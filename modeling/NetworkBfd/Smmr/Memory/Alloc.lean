import Mathlib.Data.List.ProdSigma
import NetworkBfd.Smmr.Memory.Rebuild

/-!
# Blocks of a well-formed category

`shmalloc` either changes nothing, when it finds neither a recycled item nor a bucket that is long enough behind the
bits it looks at, or hands out an item that was not in use (`Fits.shmalloc_spec`). `shmfree` moves the item of a block
in use to the recycle list, and changes nothing for any other block (`Fits.shmfree_used`, `Fits.shmfree_unused`).
-/

namespace NetworkBfd.Smmr.Memory

open Lib

variable {id a m n x : Nat} {data data' p p' : Bytes} {L L' : Layout}

/-! ## On one page -/

/-- The page `p` hands out an item of at least `a` bytes at `x`. -/
structure Handed (id a : Nat) (p p' : Bytes) (L L' : Layout) (x : Nat) : Prop where
  rep : PageRep id p' L'
  used : L'.used = L.used ++ [x]
  long : 32 + a ≤ len p' x
  kept : ∀ y ∈ L.blocks, ∀ i, y + 12 ≤ i → i < y + len p y → p' i = p i
  far : ∀ i, 131072 ≤ i → p' i = p i
  source : (∃ l₁ l₂, L.free = l₁ ++ x :: l₂ ∧ L'.free = l₁ ++ l₂ ∧ L'.blocks = L.blocks ∧ L'.bckt = L.bckt) ∨
    x = L.bckt ∧ len p' x = a + 32 ∧ L'.free = L.free ∧ L'.blocks = L.blocks ++ [x] ∧ L'.bckt = L.bckt + a + 32

namespace PageRep

/-- The new item was not in use. -/
theorem operateRecycle_spec (h : PageRep id p L) (ha : 0 < a) :
    operateRecycle p a = (p, 0) ∧ (∀ y ∈ L.free, len p y < 32 + a) ∨
      ∃ p' L' x, operateRecycle p a = (p', x) ∧ x ∈ L.free ∧ 32 + a ≤ len p x ∧ Handed id a p p' L L' x := by
  rw [operateRecycle, if_neg (by omega), h.findFreeitemOverSize_eq ha]
  cases hfind : L.free.find? fun y => decide (32 + a ≤ len p y) with
  | none =>
    refine .inl ⟨rfl, fun y hy => ?_⟩
    have := List.find?_eq_none.mp hfind y hy
    rw [decide_eq_true_eq] at this
    omega
  | some x =>
    right
    obtain ⟨hx, l₁, l₂, hl, -⟩ := List.find?_eq_some_iff_append.mp hfind
    rw [decide_eq_true_eq] at hx
    have hmem : x ∈ L.free := hl ▸ List.mem_append_right _ List.mem_cons_self
    have hplace := h.place (h.mem_free hmem)
    have hne : x ≠ 0 := by omega
    obtain ⟨hrep, hout⟩ := h.recycled hl
    rw [Option.getD_some, if_neg hne]
    refine ⟨_, _, x, rfl, hmem, hx, hrep, rfl, ?_, fun y hy i h1 h2 => ?_, fun i hi => ?_,
      .inl ⟨l₁, l₂, hl, rfl, rfl, rfl⟩⟩
    · rw [len_congr fun i h1 h2 => hout i (h.outside (.inl ⟨x, h.mem_free hmem, h1, by omega⟩))]
      exact hx
    · exact hout i (h.outside (.inl ⟨y, hy, h1, h2⟩))
    · exact hout i (h.outside (.inr (.inr (by have := h.bckt_le; omega))))

theorem operateInsert_spec (h : PageRep id p L) (hid : id < 4294967296) (ha : 4 ≤ a ∧ a % 4 = 0) :
    operateInsert id p a = (p, 0) ∧ len p L.bckt < a + 32 ∨
      ∃ p' L', operateInsert id p a = (p', L.bckt) ∧ a + 32 ≤ len p L.bckt ∧ Handed id a p p' L L' L.bckt := by
  by_cases hsize : a + 32 ≤ len p L.bckt
  · right
    obtain ⟨-, ht⟩ := h.last_used
    have hbckt := h.bckt_le
    have h6 := h.bucket.size
    simp only [mmposBcktInit, mmsizBcktInitSize] at h6
    have hitem := @insertedPage_item id a L.bckt p _ (len p L.bckt) ht ⟨hbckt.1, by omega⟩ hid
    refine ⟨_, _, h.operateInsert_eq (by omega) hsize, hsize, h.inserted hid ha hsize, rfl, ?_, fun y hy i h1 h2 => ?_,
      fun i hi => ?_, .inr ⟨rfl, hitem.1.2.2.2, rfl, rfl, rfl⟩⟩
    · rw [hitem.1.2.2.2]
      omega
    · exact h.inserted_kept hy h1 h2
    · exact insertedPage_of_outside (by omega)
  · left
    rw [operateInsert, if_neg (by omega)]
    simp only [h.bucket.next, mmsizHfSize]
    rw [if_pos (by omega)]
    exact ⟨rfl, by omega⟩

end PageRep

/-! ## Over the pages -/

/-- What `attempt` did: nothing, or it handed out an item. -/
theorem attempt_spec {b : SysPage} {op : Bytes → Bytes × Nat} {F : Prop}
    (hop : op (page data n) = (page data n, 0) ∧ F ∨
      ∃ p' L' x, op (page data n) = (p', x) ∧ x ≠ 0 ∧ ¬F ∧ Handed id a (page data n) p' L L' x) :
    attempt data b n op = (data, 0) ∧ (isPagebit data b n = true → F) ∨
      ∃ p' L' x, attempt data b n op = (withPage data n p', x) ∧ x ≠ 0 ∧ (isPagebit data b n = true ∧ ¬F) ∧
        Handed id a (page data n) p' L L' x := by
  rw [attempt]
  by_cases hb : isPagebit data b n = true
  · rw [if_pos hb]
    simp only []
    rcases hop with ⟨h1, h2⟩ | ⟨p', L', x, h1, h2, h3, h4⟩
    · rw [h1]
      exact .inl ⟨by rw [withPage_page], fun _ => h2⟩
    · rw [h1]
      exact .inr ⟨p', L', x, rfl, h2, ⟨hb, h3⟩, h4⟩
  · rw [if_neg hb]
    exact .inl ⟨rfl, fun h => absurd h hb⟩

/-- At the pair `q` of bitmaps and a page there is nothing for `a` bytes. -/
def Missed (data : Bytes) (L : Nat → Layout) (a : Nat) (q : (SysPage × SysPage) × Nat) : Prop :=
  (isPagebit data q.1.2 q.2 = true → ∀ y ∈ (L q.2).free, len (page data q.2) y < 32 + a) ∧
    (isPagebit data q.1.1 q.2 = true → len (page data q.2) (L q.2).bckt < a + 32)

theorem foundBlock_eq (id : BitVec 32) (n : Nat) (hx : x ≤ 131072) :
    foundBlock id n x = some ⟨id.setWidth 16, n, x⟩ := by
  rw [foundBlock, if_neg]
  simp only [pageSize]
  omega

theorem Handed.le (h : Handed id a p p' L L' x) (hp : PageRep id p L) : 168 ≤ x ∧ x ≤ 131016 := by
  rcases h.source with ⟨l₁, l₂, h1, -⟩ | ⟨rfl, -⟩
  · have := hp.place (hp.mem_free (h1 ▸ List.mem_append_right _ List.mem_cons_self : x ∈ L.free))
    omega
  · exact hp.bckt_le

theorem shmallocLoop_spec {c : Category} {L : Nat → Layout} (h : Fits c L) (ha : 4 ≤ a ∧ a % 4 = 0)
    (l : List ((SysPage × SysPage) × Nat)) (hl : ∀ q ∈ l, q.2 ∈ userPages) :
    shmallocLoop c.id a l c.data = (c.data, none) ∧ (∀ q ∈ l, Missed c.data L a q) ∨
      ∃ q ∈ l, ¬Missed c.data L a q ∧ ∃ p' L' x,
        shmallocLoop c.id a l c.data = (withPage c.data q.2 p', some ⟨c.id.setWidth 16, q.2, x⟩) ∧
        Handed c.id.toNat a (page c.data q.2) p' (L q.2) L' x := by
  induction l with
  | nil => exact .inl ⟨rfl, fun q hq => absurd hq List.not_mem_nil⟩
  | cons q l ih =>
    obtain ⟨⟨dc, free⟩, n⟩ := q
    have hn : n ∈ userPages := hl _ List.mem_cons_self
    have hrep := h.rep n hn
    have hbckt := hrep.bckt_le
    have hid : c.id.toNat < 4294967296 := c.id.isLt
    rw [shmallocLoop, if_neg (by rw [h.err n hn]; exact Bool.false_ne_true)]
    have h1 := @attempt_spec _ _ n c.data _ free (fun p => operateRecycle p a)
      (∀ y ∈ (L n).free, len (page c.data n) y < 32 + a) <| by
        rcases hrep.operateRecycle_spec (by omega : 0 < a) with h1 | ⟨p', L', x, h1, h2, h3, h4⟩
        · exact .inl h1
        · have := hrep.place (hrep.mem_free h2)
          exact .inr ⟨p', L', x, h1, by omega, fun hf => Nat.not_lt.mpr h3 (hf x h2), h4⟩
    rcases h1 with ⟨h1, hfail⟩ | ⟨p', L', x, h1, hne, hbit, hand⟩
    · rw [h1]
      simp only [ne_eq, not_true_eq_false, if_false]
      have h2 := @attempt_spec _ _ n c.data _ dc (fun p => operateInsert c.id.toNat p a)
        (len (page c.data n) (L n).bckt < a + 32) <| by
          rcases hrep.operateInsert_spec hid ha with h2 | ⟨p', L', h2, h3, h4⟩
          · exact .inl h2
          · exact .inr ⟨p', L', _, h2, by omega, Nat.not_lt.mpr h3, h4⟩
      rcases h2 with ⟨h2, hfail'⟩ | ⟨p', L', x, h2, hne, hbit, hand⟩
      · rw [h2]
        simp only [not_true_eq_false, if_false]
        rcases ih fun q hq => hl q (List.mem_cons_of_mem _ hq) with ⟨h3, h4⟩ | ⟨q, hq, h3⟩
        · refine .inl ⟨h3, fun q hq => ?_⟩
          rcases List.mem_cons.mp hq with rfl | hq
          · exact ⟨hfail, hfail'⟩
          · exact h4 q hq
        · exact .inr ⟨q, List.mem_cons_of_mem _ hq, h3⟩
      · rw [h2]
        simp only [hne, not_false_eq_true, if_true]
        have hle := hand.le hrep
        refine .inr ⟨_, List.mem_cons_self, fun hm => hbit.2 (hm.2 hbit.1), p', L', x, ?_, hand⟩
        rw [foundBlock_eq c.id n (by omega)]
    · rw [h1]
      simp only [ne_eq, hne, not_false_eq_true, if_true]
      have hle := hand.le hrep
      refine .inr ⟨_, List.mem_cons_self, fun hm => hbit.2 (hm.1 hbit.1), p', L', x, ?_, hand⟩
      rw [foundBlock_eq c.id n (by omega)]

theorem mem_attempts {q : (SysPage × SysPage) × Nat} :
    q ∈ attempts a ↔ q.1 ∈ bitmapids.drop (startBmpId a) ∧ q.2 ∈ userPages := by
  rw [attempts, List.mem_product]

theorem alignedSize_bounds {size : Nat} (h : 0 < size) :
    size ≤ alignedSize size ∧ 4 ≤ alignedSize size ∧ alignedSize size % 4 = 0 := by
  rw [alignedSize]
  split <;> omega

/-- A bucket with room for `a` bytes has a bit that is looked at for `a` bytes. -/
theorem exists_dcClass {r : Nat} (h : a + 32 ≤ r) (hr : 32 < r) :
    ∃ ids ∈ bitmapids.drop (startBmpId a), ids.1 ∈ dcClasses r := by
  rw [startBmpId]
  split
  · refine ⟨(.dc512, .free512), by decide, ?_⟩
    rw [dcClasses]
    split_ifs <;> first | omega | decide
  · split
    · refine ⟨(.dc128, .free128), by decide, ?_⟩
      rw [dcClasses]
      split_ifs <;> first | omega | decide
    · split
      · refine ⟨(.dc032, .free032), by decide, ?_⟩
        rw [dcClasses]
        split_ifs <;> first | omega | decide
      · refine ⟨(.dc032, .free000), by decide, ?_⟩
        rw [dcClasses]
        split_ifs <;> first | omega | decide

namespace Fits

variable {c : Category} {L : Nat → Layout}

/-- `shmalloc` on a well-formed category. -/
theorem shmalloc_spec (h : Fits c L) (size : Nat) :
    shmalloc c size = (c, none) ∧ (0 < size → size ≤ 2048 → ∀ q ∈ attempts (alignedSize size),
        Missed c.data L (alignedSize size) q) ∨
      (0 < size ∧ size ≤ 2048) ∧ ∃ q ∈ attempts (alignedSize size), ¬Missed c.data L (alignedSize size) q ∧ ∃ p' L' x,
        shmalloc c size = ({ c with data := withPage c.data q.2 p' }, some ⟨c.id.setWidth 16, q.2, x⟩) ∧
        Handed c.id.toNat (alignedSize size) (page c.data q.2) p' (L q.2) L' x := by
  rw [shmalloc]
  by_cases hs : size = 0 ∨ size > 2048
  · rw [if_pos hs]
    exact .inl ⟨rfl, fun h1 h2 => by omega⟩
  · rw [if_neg hs]
    have ha := (alignedSize_bounds (by omega : 0 < size)).2
    rcases shmallocLoop_spec h ha (attempts (alignedSize size)) (fun q hq => (mem_attempts.mp hq).2) with
      ⟨h1, h2⟩ | ⟨q, hq, hmiss, p', L', x, h1, h2⟩
    · rw [h1]
      exact .inl ⟨rfl, fun _ _ => h2⟩
    · rw [h1]
      exact .inr ⟨by omega, q, hq, hmiss, p', L', x, rfl, h2⟩

/-- `shmalloc` fails exactly when there is nothing behind any of the bits it looks at. -/
theorem shmalloc_eq_none_iff {size : Nat} (h : Fits c L) (hs : 0 < size ∧ size ≤ 2048) :
    (shmalloc c size).2 = none ↔ ∀ q ∈ attempts (alignedSize size), Missed c.data L (alignedSize size) q := by
  rcases h.shmalloc_spec size with ⟨h1, h2⟩ | ⟨-, q, hq, hmiss, p', L', x, h1, -⟩
  · rw [h1]
    exact ⟨fun _ => h2 hs.1 hs.2, fun _ => rfl⟩
  · rw [h1]
    exact ⟨fun h2 => (nomatch h2), fun h2 => absurd (h2 q hq) hmiss⟩

/-- A page that is all bucket serves every size. -/
theorem shmalloc_of_empty {size : Nat} (h : Fits c L) (hs : 0 < size ∧ size ≤ 2048)
    (hn : n ∈ userPages) (hL : L n = Layout.empty) (hbit : ∀ b ∈ dcBitmaps, isPagebit c.data b n = true) :
    (shmalloc c size).2 ≠ none := by
  intro hnone
  have ha : alignedSize size ≤ 2048 := by
    rw [alignedSize]
    split <;> omega
  obtain ⟨ids, hids, hmem⟩ := @exists_dcClass (alignedSize size) 130848 (by omega) (by decide)
  have hmiss : len (page c.data n) (L n).bckt < alignedSize size + 32 :=
    ((h.shmalloc_eq_none_iff hs).mp hnone (ids, n) (mem_attempts.mpr ⟨hids, hn⟩)).2 (hbit _ (dcClasses_subset _ hmem))
  have hlen := (h.rep n hn).bucket.size
  rw [hL] at hmiss hlen
  simp only [Layout.empty, mmposBcktInit, mmsizBcktInitSize] at hlen hmiss
  omega

theorem of_emptyAt (h : Fits c L) (he : EmptyAt c.id.toNat c.data n) : Fits c (Function.update L n Layout.empty) := by
  refine ⟨fun m hm => ?_, h.err⟩
  by_cases heq : m = n
  · rw [heq, Function.update_self]
    exact he.rep
  · rw [Function.update_of_ne heq]
    exact h.rep m hm

theorem shmalloc_of_emptyAt {size : Nat} (h : Fits c L) (hs : 0 < size ∧ size ≤ 2048) (hn : n ∈ userPages)
    (he : EmptyAt c.id.toNat c.data n) : (shmalloc c size).2 ≠ none := by
  refine (h.of_emptyAt he).shmalloc_of_empty hs hn (Function.update_self ..) fun b hb => ?_
  rw [he.bit]
  exact decide_eq_true hb

/-- A block comes from one page. -/
theorem shmalloc_sameAt (h : Fits c L) (size : Nat) :
    ∃ m, ∀ n ∈ userPages, n ≠ m → SameAt c.data (shmalloc c size).1.data n := by
  rcases h.shmalloc_spec size with ⟨h1, -⟩ | ⟨-, q, hq, -, p', L', x, h1, hand⟩
  · rw [h1]
    exact ⟨0, fun _ _ _ => ⟨fun _ _ => rfl, fun _ => rfl⟩⟩
  · rw [h1]
    exact ⟨q.2, fun n hn hne => ⟨fun i hi => page_withPage_of_ne hne hand.far hi, fun b =>
      isPagebit_withPage (mem_userPages.mp hn).2 (mem_attempts.mp hq).2⟩⟩

end Fits

/-! ## Freeing -/

theorem word_page (data : Bytes) (n a k : Nat) : (page data n).word a k = data.word (mmposUsrpage n + a) k := by
  refine congrArg ofBytes (List.ext_getElem? fun i => ?_)
  rw [Bytes.getElem?_read, Bytes.getElem?_read, page, Nat.add_assoc]

theorem word_flat (data : Bytes) (n a j k : Nat) :
    data.word (mmposUsrpage n + a + j) k = (page data n).word (a + j) k := by
  rw [word_page, Nat.add_assoc]

/-- Places on pages are apart. -/
theorem usrpage_add_inj {y : Nat} (hx : x < 131072) (hy : y < 131072) :
    mmposUsrpage m + y = mmposUsrpage n + x ↔ m = n ∧ y = x := by
  simp only [mmposUsrpage, pageSize]
  omega

namespace Fits

variable {c : Category} {L : Nat → Layout}

theorem shmfreeLoop_eq (h : Fits c L) (hx : 168 ≤ x ∧ x < 131072) (l : List Nat) (hl : ∀ m ∈ l, m ∈ userPages) :
    shmfreeLoop (mmposUsrpage n + x) l c.data =
      if n ∈ l ∧ x ∈ (L n).used then withPage c.data n (releaseItem (page c.data n) x) else c.data := by
  induction l with
  | nil => rw [shmfreeLoop, if_neg (fun hc => List.not_mem_nil hc.1)]
  | cons m l ih =>
    have hm := hl m List.mem_cons_self
    have hrep := h.rep m hm
    have hplace : ∀ y ∈ 0 :: (L m).used, y < 131072 := by
      intro y hy
      rcases List.mem_cons.mp hy with rfl | hy
      · decide
      · have := hrep.place (hrep.mem_used hy)
        omega
    rw [shmfreeLoop, if_neg (by rw [h.err m hm]; exact Bool.false_ne_true), hrep.items_used (by decide)]
    cases hfind : (0 :: (L m).used).find? fun y => decide (mmposUsrpage m + y = mmposUsrpage n + x) with
    | none =>
      rw [ih fun k hk => hl k (List.mem_cons_of_mem m hk)]
      have hnot : ¬(n = m ∧ x ∈ (L n).used) := by
        rintro ⟨rfl, hu⟩
        have := List.find?_eq_none.mp hfind x (List.mem_cons_of_mem 0 hu)
        simp at this
      have hiff : (n ∈ l ∧ x ∈ (L n).used) ↔ (n ∈ m :: l ∧ x ∈ (L n).used) := by
        rw [List.mem_cons]
        tauto
      simp only [hiff]
    | some y =>
      have hy := List.mem_of_find?_eq_some hfind
      have heq := List.find?_some hfind
      rw [decide_eq_true_eq, usrpage_add_inj hx.2 (hplace y hy)] at heq
      obtain ⟨rfl, rfl⟩ := heq
      rcases List.mem_cons.mp hy with h0 | hu
      · omega
      · rw [if_pos ⟨List.mem_cons_self, hu⟩]

/-- `shmfree` of a block in use. -/
theorem shmfree_used (h : Fits c L) (hn : n ∈ userPages) (hu : x ∈ (L n).used) :
    shmfree c (mmposUsrpage n + x + sizeofMemitemHead) =
      { c with data := withPage c.data n (releaseItem (page c.data n) x) } := by
  have hrep := h.rep n hn
  have hplace := hrep.place (hrep.mem_used hu)
  have hitem := hrep.item x (hrep.mem_used hu)
  have hsig : signature c.data (mmposUsrpage n + x) = mmsigUsed :=
    (word_page c.data n x 4).symm.trans (hrep.used.signed x hu)
  have hlen : len c.data (mmposUsrpage n + x) = len (page c.data n) x := word_flat c.data n x 12 4
  have hfoot : mmposUsrpage n + x + len (page c.data n) x - sizeofMemitemFoot =
      mmposUsrpage n + footOf (page c.data n) x := by
    rw [footOf, sizeofMemitemFoot]
    omega
  have hsuf : suffix c.data (mmposUsrpage n + footOf (page c.data n) x) = mmsigSufx :=
    (word_flat c.data n (footOf (page c.data n) x) 4 4).trans hitem.foot
  have hcat : footCategoryId c.data (mmposUsrpage n + footOf (page c.data n) x) = c.id.toNat :=
    (word_flat c.data n (footOf (page c.data n) x) 8 4).trans hitem.category
  have hloop := h.shmfreeLoop_eq (n := n) (x := x) (by omega) userPages fun _ hm => hm
  rw [if_pos ⟨hn, hu⟩] at hloop
  rw [shmfree, if_neg (by simp only [mmposBcktInit, sizeofMemitemHead]; omega)]
  simp only [Nat.add_sub_cancel, hsig, hlen, hfoot, hsuf, hcat, hloop, ne_eq, not_true_eq_false, if_false]
  rw [if_neg (by omega), if_neg (by simp only [mmposMinOfst]; omega)]

/-- `shmfree` of a block that is not in use. -/
theorem shmfree_unused (h : Fits c L) (hx : 168 ≤ x ∧ x < 131072) (hu : ¬(n ∈ userPages ∧ x ∈ (L n).used)) :
    shmfree c (mmposUsrpage n + x + sizeofMemitemHead) = c := by
  have hloop := h.shmfreeLoop_eq (n := n) (x := x) hx userPages fun _ hm => hm
  rw [if_neg hu] at hloop
  rw [shmfree]
  simp only [Nat.add_sub_cancel, hloop, ite_self]

end Fits

end NetworkBfd.Smmr.Memory
