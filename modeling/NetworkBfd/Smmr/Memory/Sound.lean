import NetworkBfd.Smmr.Memory.Alloc

/-!
# The blocks in use, over whole runs

`Reachable` are the states of a category file that started empty, under any calls of `shmalloc`, `shmfree` and
`rebuild_page_statics` and any writes of the callers into their blocks. In each of them every user page is well-formed
(`Reachable.fits`), so the operations keep an exact account of the blocks in use (`Reachable.live_partition`).
-/

namespace NetworkBfd.Smmr.Memory

open Lib

variable {c : Category} {data : Bytes} {L : Nat → Layout} {b b' : Block} {n x i size : Nat}

/-- The used items of a page. -/
def usedItems (p : Bytes) : List Nat := (visited p mmsigUsed mmposMinOfst mmposUsedRoot).1.tail

/-- The blocks in use. -/
def live (c : Category) : Set Block :=
  {b | b.cateid = c.id.setWidth 16 ∧ b.pageid ∈ userPages ∧ b.offset ∈ usedItems (page c.data b.pageid)}

namespace Block

/-- The first byte of the block, its head included. -/
def start (b : Block) : Nat := mmposUsrpage b.pageid + b.offset

/-- The length of the block, head and foot included. -/
def length (b : Block) (c : Category) : Nat := len (page c.data b.pageid) b.offset

/-- The byte at `i` is in the user area of the block. -/
def Owns (b : Block) (c : Category) (i : Nat) : Prop := b.pointer ≤ i ∧ i + mmsizHfSize < b.pointer + b.length c

/-- The blocks do not overlap. -/
def Apart (b b' : Block) (c : Category) : Prop :=
  b.start + b.length c ≤ b'.start ∨ b'.start + b'.length c ≤ b.start

/-- The block lies in its page, behind the roots. -/
def Inside (b : Block) (c : Category) : Prop :=
  b.pageid ∈ userPages ∧ mmposBcktInit ≤ b.offset ∧ b.offset + b.length c ≤ mmposBcktInit + mmsizBcktInitSize

end Block

/-- The blocks of `B` have their lengths and contents in `c'` as in `c`. -/
def Keeps (B : Set Block) (c c' : Category) : Prop :=
  ∀ b ∈ B, b.length c' = b.length c ∧ ∀ i, b.Owns c i → c'.data i = c.data i

/-! ## Well-formed categories -/

namespace Fits

theorem usedItems_eq (h : Fits c L) (hn : n ∈ userPages) : usedItems (page c.data n) = (L n).used := by
  rw [usedItems, (h.rep n hn).items_used (by decide), List.tail_cons]

theorem mem_live (h : Fits c L) :
    b ∈ live c ↔ b.cateid = c.id.setWidth 16 ∧ b.pageid ∈ userPages ∧ b.offset ∈ (L b.pageid).used := by
  refine and_congr_right fun _ => and_congr_right fun hn => ?_
  rw [h.usedItems_eq hn]

theorem inside (h : Fits c L) (hb : b ∈ live c) : b.Inside c := by
  obtain ⟨-, hn, hu⟩ := h.mem_live.mp hb
  have := (h.rep _ hn).place ((h.rep _ hn).mem_used hu)
  refine ⟨hn, ?_, ?_⟩
  all_goals
    simp only [Block.length, mmposBcktInit, mmsizBcktInitSize]
    omega

/-- Two blocks in use do not overlap. -/
theorem apart (h : Fits c L) (hb : b ∈ live c) (hb' : b' ∈ live c) (hne : b ≠ b') : b.Apart b' c := by
  obtain ⟨hc, hn, hu⟩ := h.mem_live.mp hb
  obtain ⟨hc', hn', hu'⟩ := h.mem_live.mp hb'
  have h1 := (h.inside hb).2.2
  have h2 := (h.inside hb').2.2
  simp only [Block.Apart, Block.start, mmposUsrpage, pageSize, mmposBcktInit, mmsizBcktInitSize] at h1 h2 ⊢
  by_cases hp : b.pageid = b'.pageid
  · have hoff : b.offset ≠ b'.offset := by
      intro heq
      refine hne ?_
      cases b
      cases b'
      simp only at hc hc' hp heq
      rw [hc, hc', hp, heq]
    rw [hp] at hu
    have h3 := (h.rep _ hn').apart ((h.rep _ hn').mem_used hu) ((h.rep _ hn').mem_used hu') hoff
    simp only [Block.length, hp]
    omega
  · omega

/-- A byte of a user area is a byte of a block's body on its page. -/
theorem owns_iff (h : Fits c L) (hb : b ∈ live c) : b.Owns c i ↔
    ∃ j, i = mmposUsrpage b.pageid + j ∧ b.offset + 16 ≤ j ∧
      j + 16 < b.offset + len (page c.data b.pageid) b.offset := by
  obtain ⟨-, hn, hu⟩ := h.mem_live.mp hb
  have := (h.rep _ hn).place ((h.rep _ hn).mem_used hu)
  simp only [Block.Owns, Block.pointer, Block.length, sizeofMemitemHead, mmsizHfSize]
  constructor
  · rintro ⟨h1, h2⟩
    exact ⟨i - mmposUsrpage b.pageid, by omega⟩
  · rintro ⟨j, rfl, h1, h2⟩
    omega

/-- Bytes of a block's body, length first, that stay on its page. -/
theorem keeps {c' : Category} {B : Set Block} (h : Fits c L) (hB : B ⊆ live c)
    (hk : ∀ b ∈ B, ∀ j, b.offset + 12 ≤ j → j < b.offset + len (page c.data b.pageid) b.offset →
      page c'.data b.pageid j = page c.data b.pageid j) : Keeps B c c' := by
  intro b hb
  obtain ⟨-, hn, hu⟩ := h.mem_live.mp (hB hb)
  have := (h.rep _ hn).place ((h.rep _ hn).mem_used hu)
  refine ⟨len_congr fun j h1 h2 => hk b hb j h1 (by omega), fun i hi => ?_⟩
  obtain ⟨j, rfl, h1, h2⟩ := (h.owns_iff (hB hb)).mp hi
  exact hk b hb j (by omega) (by omega)

end Fits

/-! ## One call -/

namespace Fits

theorem shmalloc_none (h : Fits c L) (hs : (shmalloc c size).2 = none) : (shmalloc c size).1 = c := by
  rcases h.shmalloc_spec size with ⟨h1, -⟩ | ⟨-, q, -, -, p', L', x, h1, -⟩
  · rw [h1]
  · rw [h1] at hs
    cases hs

/-- What a successful `shmalloc` leaves. -/
theorem shmalloc_some (h : Fits c L) (hs : (shmalloc c size).2 = some b) :
    (∃ L', Fits (shmalloc c size).1 L') ∧ (shmalloc c size).1.id = c.id ∧ b ∉ live c ∧
      live (shmalloc c size).1 = insert b (live c) ∧ size + mmsizHfSize ≤ b.length (shmalloc c size).1 ∧
      Keeps (live c) c (shmalloc c size).1 := by
  rcases h.shmalloc_spec size with ⟨h1, -⟩ | ⟨hsize, ⟨bmp, n⟩, hq, -, p', L', x, h1, hand⟩
  · rw [h1] at hs
    cases hs
  · rw [h1] at hs ⊢
    cases hs
    have hn := (mem_attempts.mp hq).2
    have hfits := h.store hn hand.rep hand.far
    have hnot : x ∉ (L n).used := by
      have hnd := (List.nodup_append.mp hand.rep.nodup).1
      rw [hand.used] at hnd
      exact fun hm => (List.nodup_append.mp hnd).2.2 x hm x List.mem_cons_self rfl
    refine ⟨⟨_, hfits⟩, id_data c _, fun hb => hnot (h.mem_live.mp hb).2.2, ?_, ?_, ?_⟩
    · ext d
      rw [hfits.mem_live, Set.mem_insert_iff, h.mem_live]
      by_cases hd : d.pageid = n
      · simp only [hd, Function.update_self, hand.used, List.mem_append, List.mem_singleton]
        constructor
        · rintro ⟨h2, h3, h4 | h4⟩
          · exact .inr ⟨h2, h3, h4⟩
          · left
            cases d
            simp only at h2 hd h4
            rw [h2, hd, h4]
        · rintro (rfl | ⟨h2, h3, h4⟩)
          · exact ⟨rfl, hn, .inr rfl⟩
          · exact ⟨h2, h3, .inl h4⟩
      · rw [Function.update_of_ne hd]
        constructor
        · exact .inr
        · rintro (rfl | h2)
          · exact absurd rfl hd
          · exact h2
    · have h2 := hand.long
      have h3 := (alignedSize_bounds hsize.1).1
      simp only [Block.length, page_withPage_self, mmsizHfSize]
      omega
    · refine h.keeps (fun _ hb => hb) fun d hd j h2 h3 => ?_
      obtain ⟨-, hdn, hdu⟩ := h.mem_live.mp hd
      have hrep := h.rep _ hdn
      have hplace := hrep.place (hrep.mem_used hdu)
      by_cases heq : d.pageid = n
      · rw [heq] at hdu h3 hrep ⊢
        simp only [page_withPage_self]
        exact hand.kept _ (hrep.mem_used hdu) j h2 h3
      · exact page_withPage_of_ne heq hand.far (by omega)

/-- `shmfree` of a block in use, and the layout that it leaves. -/
theorem shmfree_spec {l₁ l₂ : List Nat} (h : Fits c L) (hn : n ∈ userPages) (hl : (L n).used = l₁ ++ x :: l₂) :
    ∃ p', shmfree c (mmposUsrpage n + x + sizeofMemitemHead) = { c with data := withPage c.data n p' } ∧
      (∀ i, 131072 ≤ i → p' i = page c.data n i) ∧
      (∀ y ∈ (L n).blocks, ∀ i, y + 12 ≤ i → i < y + len (page c.data n) y → p' i = page c.data n i) ∧
      Fits { c with data := withPage c.data n p' }
        (Function.update L n { L n with used := l₁ ++ l₂, free := (L n).free ++ [x] }) := by
  have hrep := h.rep n hn
  have hu : x ∈ (L n).used := hl ▸ List.mem_append_right _ List.mem_cons_self
  obtain ⟨hrel, hout⟩ := hrep.released hl
  have hfar : ∀ i, 131072 ≤ i → releaseItem (page c.data n) x i = page c.data n i := fun i hi =>
    hout i (hrep.outside (.inr (.inr (by have := hrep.bckt_le; omega))))
  exact ⟨_, h.shmfree_used hn hu, hfar, fun y hy i h1 h2 => hout i (hrep.outside (.inl ⟨y, hy, h1, h2⟩)),
    h.store hn hrel hfar⟩

/-- What `shmfree` of a block in use leaves. -/
theorem shmfree_live (h : Fits c L) (hb : b ∈ live c) :
    (∃ L', Fits (shmfree c b.pointer) L') ∧ (shmfree c b.pointer).id = c.id ∧
      live (shmfree c b.pointer) = live c \ {b} ∧ Keeps (live c) c (shmfree c b.pointer) := by
  obtain ⟨hc, hn, hu⟩ := h.mem_live.mp hb
  obtain ⟨l₁, l₂, hl⟩ := List.append_of_mem hu
  have hrep := h.rep _ hn
  obtain ⟨p', hfree, hfar, hkept, hfits⟩ := h.shmfree_spec hn hl
  rw [Block.pointer, hfree]
  refine ⟨⟨_, hfits⟩, id_data c _, ?_, ?_⟩
  · ext d
    rw [hfits.mem_live, Set.mem_sdiff, Set.mem_singleton_iff, h.mem_live]
    by_cases hd : d.pageid = b.pageid
    · have hnd := hrep.members_used.nodup
      rw [hl] at hnd
      have hnot := (List.nodup_cons.mp (List.nodup_middle.mp hnd)).1
      simp only [hd, Function.update_self, hl, List.mem_append, List.mem_cons]
      constructor
      · rintro ⟨h2, h3, h4⟩
        refine ⟨⟨h2, h3, by tauto⟩, ?_⟩
        rintro rfl
        exact hnot (List.mem_append.mpr h4)
      · rintro ⟨⟨h2, h3, h4⟩, h5⟩
        refine ⟨h2, h3, ?_⟩
        rcases h4 with h4 | h4 | h4
        · exact .inl h4
        · refine absurd ?_ h5
          cases d
          cases b
          simp only at h2 hd h4 hc
          rw [h2, hc, hd, h4]
        · exact .inr h4
    · rw [Function.update_of_ne hd]
      constructor
      · intro h2
        refine ⟨h2, ?_⟩
        rintro rfl
        exact hd rfl
      · exact fun h2 => h2.1
  · refine h.keeps (fun _ hd => hd) fun d hd j h2 h3 => ?_
    obtain ⟨-, hdn, hdu⟩ := h.mem_live.mp hd
    have hrep' := h.rep _ hdn
    have hplace := hrep'.place (hrep'.mem_used hdu)
    by_cases heq : d.pageid = b.pageid
    · rw [heq] at hdu h3 ⊢
      simp only [page_withPage_self]
      exact hkept _ (hrep.mem_used hdu) j h2 h3
    · exact page_withPage_of_ne heq hfar (by omega)

/-- The state after `shmfree` of a block in use: the bits, the lengths and the buckets are as they were, and the item is
in the recycle list. -/
theorem freed (h : Fits c L) (hb : b ∈ live c) :
    ∃ L', Fits (shmfree c b.pointer) L' ∧ b.offset ∈ (L' b.pageid).free ∧
      len (page (shmfree c b.pointer).data b.pageid) b.offset = b.length c ∧
      (∀ m ∈ userPages, ∀ s, isPagebit (shmfree c b.pointer).data s m = isPagebit c.data s m) ∧
      ∀ m, (L' m).bckt = (L m).bckt := by
  obtain ⟨-, hn, hu⟩ := h.mem_live.mp hb
  obtain ⟨l₁, l₂, hl⟩ := List.append_of_mem hu
  have hplace := (h.rep _ hn).place ((h.rep _ hn).mem_used hu)
  obtain ⟨p', hfree, hfar, hkept, hfits⟩ := h.shmfree_spec hn hl
  rw [Block.pointer, hfree]
  refine ⟨_, hfits, ?_, ?_, fun m hm s => isPagebit_withPage (mem_userPages.mp hm).2 hn, fun m => ?_⟩
  · rw [Function.update_self]
    exact List.mem_append_right _ List.mem_cons_self
  · rw [page_withPage_self]
    exact len_congr fun i h1 h2 => hkept _ ((h.rep _ hn).mem_used hu) i h1 (by omega)
  · by_cases heq : m = b.pageid
    · rw [heq, Function.update_self]
    · rw [Function.update_of_ne heq]

theorem shmfree_sameAt (h : Fits c L) (hb : b ∈ live c) (hn : n ∈ userPages) (hne : n ≠ b.pageid) :
    SameAt c.data (shmfree c b.pointer).data n := by
  obtain ⟨-, hm, hu⟩ := h.mem_live.mp hb
  obtain ⟨l₁, l₂, hl⟩ := List.append_of_mem hu
  obtain ⟨p', hfree, hfar, -⟩ := h.shmfree_spec hm hl
  rw [Block.pointer, hfree]
  exact ⟨fun i hi => page_withPage_of_ne hne hfar hi, fun d => isPagebit_withPage (mem_userPages.mp hn).2 hm⟩

/-- `shmfree` of a block that is not in use. -/
theorem shmfree_dead (h : Fits c L) (hoff : 168 ≤ b.offset ∧ b.offset < 131072) (hc : b.cateid = c.id.setWidth 16)
    (hb : b ∉ live c) : shmfree c b.pointer = c := by
  refine h.shmfree_unused hoff fun hu => hb (h.mem_live.mpr ⟨hc, hu⟩)

/-- What a rebuild of every page leaves. -/
theorem rebuilt_live (h : Fits c L) (hr : ∀ n ∈ userPages, RebuiltAt c.id.toNat c.data data n (L n)) :
    live { c with data := data } = live c ∧ Keeps (live c) c { c with data := data } := by
  refine ⟨?_, h.keeps (fun _ hb => hb) fun d hd j h2 h3 => ?_⟩
  · ext d
    rw [(h.of_rebuiltAt hr).mem_live, h.mem_live]
    refine and_congr_right fun _ => and_congr_right fun _ => ?_
    rw [Layout.rebuilt]
    split
    · rename_i hu
      rw [hu]
      exact Iff.rfl
    · exact Iff.rfl
  · obtain ⟨-, hn, hu⟩ := h.mem_live.mp hd
    have hplace := (h.rep _ hn).place ((h.rep _ hn).mem_used hu)
    exact (hr _ hn).kept (List.ne_nil_of_mem hu) j (by omega) (by omega) (by omega)

/-- Writes of the callers into their blocks reach no head, foot or root. -/
theorem control_write (h : Fits c L) (hw : ∀ i, data i ≠ c.data i → ∃ b ∈ live c, b.Owns c i) (hn : n ∈ userPages)
    (hi : Control (page c.data n) (L n) i) : page data n i = page c.data n i := by
  by_contra hne
  obtain ⟨b, hb, hown⟩ := hw _ hne
  obtain ⟨j, heq, h1, h2⟩ := (h.owns_iff hb).mp hown
  obtain ⟨-, hbn, hbu⟩ := h.mem_live.mp hb
  have hplace := (h.rep _ hbn).place ((h.rep _ hbn).mem_used hbu)
  have hi' : i < 131072 := by
    have hle := (h.rep n hn).bckt_le
    rcases hi with h3 | h3 | h3 | ⟨x, hx, h3⟩ | h3
    · omega
    · omega
    · omega
    · have := (h.rep n hn).place hx
      omega
    · omega
  obtain ⟨rfl, rfl⟩ := (usrpage_add_inj (by omega) hi').mp heq
  have hrep := h.rep _ hbn
  rcases hi with h3 | h3 | h3 | ⟨x, hx, h3⟩ | h3
  · omega
  · omega
  · omega
  · have hx' := hrep.place hx
    by_cases hxe : x = b.offset
    · subst hxe
      omega
    · have := hrep.apart hx (hrep.mem_used hbu) hxe
      omega
  · omega

/-- Writes of the callers into their blocks. -/
theorem write (h : Fits c L) (hw : ∀ i, data i ≠ c.data i → ∃ b ∈ live c, b.Owns c i) :
    Fits { c with data := data } L := by
  have hsys : ∀ i, i < 131072 → data i = c.data i := by
    intro i hi
    by_contra hne
    obtain ⟨b, hb, hown⟩ := hw i hne
    obtain ⟨j, rfl, -⟩ := (h.owns_iff hb).mp hown
    have := mem_userPages.mp (h.inside hb).1
    simp only [mmposUsrpage, pageSize] at hi
    omega
  refine ⟨fun n hn => (h.rep n hn).congr fun i hi => h.control_write hw hn hi, fun n hn => ?_⟩
  rw [← h.err n hn]
  exact bit_of_bytes (mem_userPages.mp hn).2 fun i _ h2 => hsys i h2

end Fits

/-! ## Runs -/

/-- The states of a category file that started empty and was opened, with the blocks that were handed out. -/
inductive Reachable (id : BitVec 32) (filesize k : Nat) : Category → List Block → Prop
  | opened : Reachable id filesize k (rebuildPagesArea k ⟨id, filesize, fun _ => 0⟩) []
  | shmalloc {c : Category} {B : List Block} (size : Nat) (h : Reachable id filesize k c B) :
    Reachable id filesize k (shmalloc c size).1 ((shmalloc c size).2.toList ++ B)
  | shmfree {c : Category} {B : List Block} {b : Block} (h : Reachable id filesize k c B) (hb : b ∈ B) :
    Reachable id filesize k (shmfree c b.pointer) B
  | rebuildPageStatics {c : Category} {B : List Block} (h : Reachable id filesize k c B) :
    Reachable id filesize k (rebuildPageStatics c) B
  | write {c : Category} {B : List Block} {data : Bytes} (h : Reachable id filesize k c B)
    (hw : ∀ i, data i ≠ c.data i → ∃ b ∈ live c, b.Owns c i) : Reachable id filesize k { c with data := data } B

/-- An empty file of 128 MiB, opened. -/
@[irreducible] def freshCategory : Category := rebuildPagesArea 0 ⟨0, 134217728, fun _ => 0⟩

theorem reachable_fresh : Reachable 0 134217728 0 freshCategory [] := by
  rw [freshCategory]
  exact .opened

namespace Reachable

variable {id : BitVec 32} {filesize k : Nat} {B : List Block}

theorem zero_signature (n : Nat) : signature (page (fun _ => 0) n) mmposUsedRoot ≠ mmsigUsed := by
  have hpage : page (fun _ => 0) n = fun _ => 0 := rfl
  rw [hpage]
  decide

/-- In every state the user pages are well-formed, and the blocks handed out are places of items. -/
theorem fits (h : Reachable id filesize k c B) :
    (∃ L, Fits c L) ∧ c.id = id ∧ ∀ b ∈ B, b.cateid = id.setWidth 16 ∧ 168 ≤ b.offset ∧ b.offset < 131072 := by
  induction h with
  | opened =>
    exact ⟨⟨_, fits_fresh (fun n _ => zero_signature n) k⟩, Fits.id_rebuildPagesArea k,
      fun b hb => absurd hb List.not_mem_nil⟩
  | shmalloc size h ih =>
    rename_i c B
    obtain ⟨⟨L, hfits⟩, hid, hB⟩ := ih
    cases hs : (Memory.shmalloc c size).2 with
    | none =>
      rw [hfits.shmalloc_none hs]
      exact ⟨⟨L, hfits⟩, hid, hB⟩
    | some b =>
      obtain ⟨⟨L', hfits'⟩, hid', -, hlive, -⟩ := hfits.shmalloc_some hs
      refine ⟨⟨L', hfits'⟩, hid'.trans hid, fun d hd => ?_⟩
      rcases List.mem_append.mp hd with hd | hd
      · rw [Option.mem_toList] at hd
        cases hd
        have hb : b ∈ live (Memory.shmalloc c size).1 := hlive ▸ Set.mem_insert b _
        have hin := (hfits'.inside hb).2
        obtain ⟨h1, h2, h3⟩ := hfits'.mem_live.mp hb
        have := (hfits'.rep _ h2).place ((hfits'.rep _ h2).mem_used h3)
        rw [hid', hid] at h1
        exact ⟨h1, by omega, by omega⟩
      · exact hB d hd
  | shmfree h hb ih =>
    rename_i c B b
    obtain ⟨⟨L, hfits⟩, hid, hB⟩ := ih
    by_cases hlive : b ∈ live c
    · obtain ⟨hf, hid', -⟩ := hfits.shmfree_live hlive
      exact ⟨hf, hid'.trans hid, hB⟩
    · obtain ⟨h1, h2⟩ := hB b hb
      rw [hfits.shmfree_dead h2 (by rw [h1, hid]) hlive]
      exact ⟨⟨L, hfits⟩, hid, hB⟩
  | rebuildPageStatics h ih =>
    obtain ⟨⟨L, hfits⟩, hid, hB⟩ := ih
    exact ⟨⟨_, hfits.rebuildPageStatics⟩, Fits.id_rebuildPageStatics.trans hid, hB⟩
  | write h hw ih =>
    obtain ⟨⟨L, hfits⟩, hid, hB⟩ := ih
    exact ⟨⟨L, hfits.write hw⟩, hid, hB⟩

end Reachable

/-! ## A fresh category -/

theorem emptyAt_freshCategory (hn : n ∈ userPages) : EmptyAt 0 freshCategory.data n := by
  rw [freshCategory]
  exact @emptyAt_fresh ⟨0, 134217728, fun _ => 0⟩ (fun m _ => Reachable.zero_signature m) 0 n hn

theorem fits_freshCategory : Fits freshCategory fun _ => Layout.empty := by
  rw [freshCategory]
  exact fits_fresh (fun m _ => Reachable.zero_signature m) 0

theorem id_freshCategory : freshCategory.id = 0 := by
  rw [freshCategory]
  exact Fits.id_rebuildPagesArea 0

theorem shmalloc_freshCategory (hs : 0 < n ∧ n ≤ 2048) : (shmalloc freshCategory n).2 ≠ none := by
  have hone : 1 ∈ userPages := mem_userPages.mpr ⟨by decide, by decide⟩
  refine fits_freshCategory.shmalloc_of_empty hs hone rfl fun b hb => ?_
  rw [(emptyAt_freshCategory hone).bit]
  exact decide_eq_true hb

/-- Two blocks are handed out and one of them is freed. -/
theorem exists_freed : ∃ c b b' L, Reachable 0 134217728 0 c [b', b] ∧ live c = {b'} ∧ b ≠ b' ∧ Fits c L ∧
    b.pageid ∈ userPages ∧ b.offset ∈ (L b.pageid).free ∧ (shmalloc c 64).2 ≠ none := by
  have hs : 0 < 64 ∧ 64 ≤ 2048 := ⟨by decide, by decide⟩
  have hpick : ∀ x y z : Nat, ∃ n ∈ userPages, n ≠ x ∧ n ≠ y ∧ n ≠ z := by
    intro x y z
    by_contra h
    have hp : ∀ n, 1 ≤ n → n < 1024 → n = x ∨ n = y ∨ n = z := fun n h1 h2 => by
      by_contra hn
      exact h ⟨n, mem_userPages.mpr ⟨h1, h2⟩, by tauto⟩
    have h1 := hp 1 (by decide) (by decide)
    have h2 := hp 2 (by decide) (by decide)
    have h3 := hp 3 (by decide) (by decide)
    have h4 := hp 4 (by decide) (by decide)
    omega
  have hempty : ∀ n ∈ userPages, EmptyAt 0 freshCategory.data n := fun n hn => emptyAt_freshCategory hn
  have hnone : live freshCategory = ∅ := Set.eq_empty_iff_forall_notMem.mpr fun d hd =>
    List.not_mem_nil (fits_freshCategory.mem_live.mp hd).2.2
  -- the first block
  obtain ⟨b, hb⟩ := Option.ne_none_iff_exists'.mp (shmalloc_freshCategory hs)
  obtain ⟨⟨L₁, hfits₁⟩, hid₁, -, hlive₁, -⟩ := fits_freshCategory.shmalloc_some hb
  obtain ⟨m₁, hsame₁⟩ := fits_freshCategory.shmalloc_sameAt 64
  have hreach₁ := reachable_fresh.shmalloc 64
  rw [hb] at hreach₁
  rw [hnone] at hlive₁
  rw [id_freshCategory] at hid₁
  generalize (shmalloc freshCategory 64).1 = c₁ at *
  -- the second
  obtain ⟨n₁, hn₁, hne₁, -⟩ := hpick m₁ m₁ m₁
  have hsome₁ : (shmalloc c₁ 64).2 ≠ none :=
    hfits₁.shmalloc_of_emptyAt hs hn₁ (by rw [hid₁]; exact (hempty n₁ hn₁).of_same (hsame₁ n₁ hn₁ hne₁))
  obtain ⟨b', hb'⟩ := Option.ne_none_iff_exists'.mp hsome₁
  obtain ⟨⟨L₂, hfits₂⟩, hid₂, hnew, hlive₂, -⟩ := hfits₁.shmalloc_some hb'
  obtain ⟨m₂, hsame₂⟩ := hfits₁.shmalloc_sameAt 64
  have hreach₂ := hreach₁.shmalloc 64
  rw [hb'] at hreach₂
  rw [hid₁] at hid₂
  generalize (shmalloc c₁ 64).1 = c₂ at *
  -- the first is freed
  have hbb' : b ≠ b' := by
    rintro rfl
    exact hnew (hlive₁ ▸ Set.mem_insert b _)
  have hmem : b ∈ live c₂ := by
    rw [hlive₂, hlive₁]
    exact Set.mem_insert_of_mem _ (Set.mem_insert b _)
  obtain ⟨-, hid₃, hlive₃, -⟩ := hfits₂.shmfree_live hmem
  obtain ⟨L₃, hfits₃, hfree, -⟩ := hfits₂.freed hmem
  refine ⟨_, b, b', L₃, hreach₂.shmfree (b := b) ?_, ?_, hbb', hfits₃, (hfits₂.mem_live.mp hmem).2.1, hfree, ?_⟩
  · exact List.mem_cons_of_mem _ (List.mem_cons_self ..)
  · rw [hlive₃, hlive₂, hlive₁]
    ext d
    simp only [Set.mem_sdiff, Set.mem_insert_iff, Set.mem_singleton_iff, Set.mem_empty_iff_false, or_false]
    constructor
    · rintro ⟨h1 | h1, h2⟩
      · exact h1
      · exact absurd h1 h2
    · rintro rfl
      exact ⟨.inl rfl, fun h => hbb' h.symm⟩
  · obtain ⟨n, hn, h1, h2, h3⟩ := hpick m₁ m₂ b.pageid
    refine hfits₃.shmalloc_of_emptyAt hs hn ?_
    rw [hid₃, hid₂]
    exact (hempty n hn).of_same (((hsame₁ n hn h1).trans (hsame₂ n hn h2)).trans (hfits₂.shmfree_sameAt hmem hn h3))

namespace Reachable

variable {id : BitVec 32} {filesize k : Nat} {B : List Block}

/-- The pages stay well-formed, and the calls keep an exact account of the blocks in use. -/
theorem live_partition (h : Reachable id filesize k c B) :
    (∀ n ∈ userPages, ∃ L, PageRep id.toNat (page c.data n) L) ∧
    (∀ size b, (Memory.shmalloc c size).2 = some b → b ∉ live c ∧ live (Memory.shmalloc c size).1 = insert b (live c) ∧
      b.Inside (Memory.shmalloc c size).1 ∧ size + mmsizHfSize ≤ b.length (Memory.shmalloc c size).1 ∧
      (∀ b' ∈ live c, b.Apart b' (Memory.shmalloc c size).1) ∧ Keeps (live c) c (Memory.shmalloc c size).1) ∧
    (∀ size, (Memory.shmalloc c size).2 = none → (Memory.shmalloc c size).1 = c) ∧
    (∀ b ∈ B, b ∈ live c → live (Memory.shmfree c b.pointer) = live c \ {b} ∧
      Keeps (live c) c (Memory.shmfree c b.pointer)) ∧
    (∀ b ∈ B, b ∉ live c → Memory.shmfree c b.pointer = c) ∧
    live (Memory.rebuildPageStatics c) = live c ∧ Keeps (live c) c (Memory.rebuildPageStatics c) := by
  obtain ⟨⟨L, hfits⟩, hid, hB⟩ := h.fits
  refine ⟨fun n hn => ⟨L n, hid ▸ hfits.rep n hn⟩, fun size b hs => ?_, fun size hs => hfits.shmalloc_none hs,
    fun b hb hl => ?_, fun b hb hl => ?_, ?_⟩
  · obtain ⟨⟨L', hfits'⟩, -, hnot, hlive, hlen, hkeep⟩ := hfits.shmalloc_some hs
    have hb : b ∈ live (Memory.shmalloc c size).1 := hlive ▸ Set.mem_insert b _
    refine ⟨hnot, hlive, hfits'.inside hb, hlen, fun b' hb' => ?_, hkeep⟩
    refine hfits'.apart hb (hlive ▸ Set.mem_insert_of_mem b hb') ?_
    rintro rfl
    exact hnot hb'
  · exact (hfits.shmfree_live hl).2.2
  · exact hfits.shmfree_dead (hB b hb).2 (by rw [(hB b hb).1, hid]) hl
  · exact hfits.rebuilt_live hfits.rebuildPageStatics_spec

/-- Two blocks are handed out, and one of them is freed: freeing it again does nothing, freeing the other one leaves no
block in use, and a third is apart from that. -/
theorem live_partition_freed : ∃ c b b' d, Reachable 0 134217728 0 c [b', b] ∧ live c = {b'} ∧ b ≠ b' ∧
    (∃ L, PageRep (0#32).toNat (page c.data b'.pageid) L) ∧ Memory.shmfree c b.pointer = c ∧
    live (Memory.shmfree c b'.pointer) = ∅ ∧ (Memory.shmalloc c 64).2 = some d ∧
    live (Memory.shmalloc c 64).1 = {d, b'} ∧ d.Apart b' (Memory.shmalloc c 64).1 := by
  obtain ⟨c, b, b', L, h, hlive, hne, hfits, -, -, hsome⟩ := exists_freed
  obtain ⟨d, hd⟩ := Option.ne_none_iff_exists'.mp hsome
  obtain ⟨hpages, halloc, -, hfree, hdead, -, -⟩ := live_partition h
  have hb' : b' ∈ live c := hlive ▸ Set.mem_singleton b'
  have hb : b ∉ live c := hlive ▸ hne
  obtain ⟨-, hinsert, -, -, hapart, -⟩ := halloc 64 d hd
  refine ⟨c, b, b', d, h, hlive, hne, hpages _ (hfits.mem_live.mp hb').2.1, hdead b ?_ hb, ?_, hd, ?_, hapart b' hb'⟩
  · exact List.mem_cons_of_mem _ (List.mem_singleton_self b)
  · rw [(hfree b' (List.mem_cons_self ..) hb').1, hlive, Set.sdiff_self]
  · rw [hinsert, hlive]

end Reachable

end NetworkBfd.Smmr.Memory
