import NetworkBfd.Smmr.Memory.Reuse

/-!
# What a rebuild leaves behind

After `rebuildPageStatics` the sums of every page and of the category are those of the lists as they stand
(`Refreshed`). `Settled` says that a page is as a rebuild leaves it; to rebuild such a page changes nothing
(`Settled.rebuild_eq`), so a second `rebuildPageStatics` counts the same sums again (`Reachable.statics_settled`).
-/

namespace NetworkBfd.Smmr.Memory

open Lib

variable {id m n : Nat} {data data' p : Bytes} {L : Layout} {b : SysPage}

/-! ## The bits of one page -/

/-- The two memories differ in bits of page `n` only. -/
def MarksOf (n : Nat) (data data' : Bytes) : Prop := ∀ i j, j < 8 →
  (∃ b : SysPage, i = mmposSyspageBmp b + n / 8 ∧ j = n % 8) ∨ (data' i).getLsbD j = (data i).getLsbD j

namespace MarksOf

theorem refl (n : Nat) (data : Bytes) : MarksOf n data data := fun _ _ _ => .inr rfl

theorem trans {data'' : Bytes} (h : MarksOf n data data') (h' : MarksOf n data' data'') : MarksOf n data data'' := by
  intro i j hj
  rcases h i j hj with h1 | h1
  · exact .inl h1
  · rcases h' i j hj with h2 | h2
    · exact .inl h2
    · exact .inr (h2.trans h1)

/-- They are the same when these bits agree, too. -/
theorem eq (h : MarksOf n data data') (hb : ∀ b, isPagebit data' b n = isPagebit data b n) : data' = data := by
  funext i
  apply BitVec.eq_of_getLsbD_eq
  intro j hj
  rcases h i j hj with ⟨b, rfl, rfl⟩ | h1
  · exact hb b
  · exact h1

/-- Bytes outside of the bitmaps. -/
theorem byte (h : MarksOf n data data') (hn : n < 1024) {i : Nat} (hi : i < 2048 ∨ 131072 ≤ i) : data' i = data i := by
  apply BitVec.eq_of_getLsbD_eq
  intro j hj
  rcases h i j hj with ⟨b, rfl, -⟩ | h1
  · have := b.index_pos
    simp only [mmposSyspageBmp, syspageSize] at hi
    omega
  · exact h1

end MarksOf

theorem marksOf_pagebit (n : Nat) (data : Bytes) (v : Bool) (b : SysPage) : MarksOf n data (pagebit data n v b) := by
  intro i j hj
  by_cases h : i = mmposSyspageBmp b + n / 8 ∧ j = n % 8
  · exact .inl ⟨b, h⟩
  · exact .inr (Bytes.getLsbD_setBit (not_and_or.mp h) hj)

theorem marksOf_pagebits (n : Nat) (data : Bytes) (v : Bool) (bs : List SysPage) :
    MarksOf n data (pagebits data n v bs) := by
  induction bs generalizing data with
  | nil => exact .refl n data
  | cons b bs ih => exact (marksOf_pagebit n data v b).trans (ih _)

theorem marksOf_recycleBits (n : Nat) (data p : Bytes) (items : List Nat) :
    MarksOf n data (recycleBits data n p items) := by
  rw [recycleBits]
  induction countedItems p mmposFreeRoot items generalizing data with
  | nil => exact .refl n data
  | cons x l ih => exact (marksOf_pagebits n data true _).trans (ih _)

theorem marksOf_freshBits (n : Nat) (data p : Bytes) (items : List Nat) (r : Nat) :
    MarksOf n data (freshBits data n p items r) := by
  apply MarksOf.trans _ (marksOf_pagebits n _ true _)
  apply MarksOf.trans _ (marksOf_recycleBits n _ p items)
  exact (marksOf_pagebits n data false _).trans (marksOf_pagebits n _ false _)

/-- An error bit that is off stays off. -/
theorem errOff_eq (hn : n < 1024) (he : isPagebit data .err n = false) : pagebit data n false .err = data := by
  apply (marksOf_pagebit n data false .err).eq
  intro b
  rw [isPagebit_pagebit hn hn]
  split
  · rename_i h
    rw [← h.1, he]
  · rfl

/-! ## The bytes of one page -/

theorem patch_putHead (x s v n l : Nat) : Bytes.Patch fun p => putHead p x s v n l :=
  (Bytes.patch_putWord (x + 12) 4 l).comp ((Bytes.patch_putWord (x + 8) 4 n).comp
    ((Bytes.patch_putWord (x + 4) 4 v).comp (Bytes.patch_putWord x 4 s)))

theorem patch_putRoot (r s n f l : Nat) : Bytes.Patch fun p => putRoot p r s n f l := by
  have hhead := patch_putHead r s 0 n mmposRootSize
  have hlinks := (Bytes.patch_putWord (r + mmposRootDtl + 4) 4 l).comp
    ((Bytes.patch_putWord (r + mmposRootDtl) 4 f).comp hhead)
  have huse := (Bytes.patch_putWord (r + mmposRootDtl + 20) 4 0).comp
    ((Bytes.patch_putWord (r + mmposRootDtl + 16) 4 0).comp hlinks)
  have hfree := (Bytes.patch_putWord (r + mmposRootDtl + 12) 4 0).comp
    ((Bytes.patch_putWord (r + mmposRootDtl + 8) 4 0).comp huse)
  exact (Bytes.patch_putWord (r + mmposRootFoot + 4) 4 mmsigSufx).comp hfree

theorem patch_shrinkPage : Bytes.Patch shrinkPage := by
  have hfree := patch_putRoot mmposFreeRoot mmsigFree mmflgClose mmposFreeRoot mmposFreeRoot
  have hbckt := patch_putRoot mmposBcktRoot mmsigBckt mmposBcktInit mmposBcktRoot mmposBcktInit
  have hhead := patch_putHead mmposBcktInit mmsigBckt mmposBcktRoot mmflgClose mmsizBcktInitSize
  exact (Bytes.patch_putWord (mmposBcktInit + (mmsizBcktInitSize - sizeofMemitemFoot) + 4) 4 mmsigSufx).comp
    (hhead.comp (hbckt.comp hfree))

/-- The sums that `putSums` writes. -/
theorem putSums_fields (p : Bytes) {u c f k : Nat} (hu : u < 4294967296) (hc : c < 4294967296) (hf : f < 4294967296)
    (hk : k < 4294967296) :
    useSize (putSums p u c f k) mmposUsedRoot = u ∧ useCnt (putSums p u c f k) mmposUsedRoot = c ∧
      freeSize (putSums p u c f k) mmposFreeRoot = f ∧ freeCnt (putSums p u c f k) mmposFreeRoot = k := by
  simp only [putSums, useSize, useCnt, freeSize, freeCnt, setUseSize, setUseCnt, setFreeSize, setFreeCnt,
    mmposUsedRoot, mmposFreeRoot, mmposRootDtl]
  refine ⟨?_, ?_, ?_, word_putWord_four hk⟩
  · rw [Bytes.word_putWord_of_disjoint (by omega), Bytes.word_putWord_of_disjoint (by omega),
      Bytes.word_putWord_of_disjoint (by omega), word_putWord_four hu]
  · rw [Bytes.word_putWord_of_disjoint (by omega), Bytes.word_putWord_of_disjoint (by omega), word_putWord_four hc]
  · rw [Bytes.word_putWord_of_disjoint (by omega), word_putWord_four hf]

/-- `shrinkPage` clears the sums of the recycle list. -/
theorem shrinkPage_sums (p : Bytes) :
    freeSize (shrinkPage p) mmposFreeRoot = 0 ∧ freeCnt (shrinkPage p) mmposFreeRoot = 0 := by
  have hout : ∀ w q, 56 ≤ w → w + 4 ≤ 112 → (setSuffix (putHead (putRoot q mmposBcktRoot mmsigBckt mmposBcktInit
      mmposBcktRoot mmposBcktInit) mmposBcktInit mmsigBckt mmposBcktRoot mmflgClose mmsizBcktInitSize)
      (mmposBcktInit + (mmsizBcktInitSize - sizeofMemitemFoot)) mmsigSufx).word w 4 = q.word w 4 := by
    intro w q h1 h2
    apply Bytes.word_congr
    intro i h3 h4
    simp only [setSuffix, mmposBcktInit, mmsizBcktInitSize, sizeofMemitemFoot]
    rw [Bytes.putWord_of_outside (by omega), putHead_of_outside (by omega),
      putRoot_of_outside (by simp only [mmposBcktRoot]; omega)]
  simp only [shrinkPage, freeSize, freeCnt, mmposFreeRoot, mmposRootDtl]
  refine ⟨(hout 80 _ (by omega) (by omega)).trans ?_, (hout 84 _ (by omega) (by omega)).trans ?_⟩
  all_goals simp only [putRoot, setSuffix, setFreeCnt, setFreeSize, mmposRootDtl, mmposRootFoot]
  · rw [Bytes.word_putWord_of_disjoint (by omega), Bytes.word_putWord_of_disjoint (by omega),
      word_putWord_four (by omega)]
  · rw [Bytes.word_putWord_of_disjoint (by omega), word_putWord_four (by omega)]

/-- To write the sums that are there changes nothing. -/
theorem putSums_self (p : Bytes) : putSums p (useSize p mmposUsedRoot) (useCnt p mmposUsedRoot)
    (freeSize p mmposFreeRoot) (freeCnt p mmposFreeRoot) = p := by
  simp only [putSums, useSize, useCnt, freeSize, freeCnt, setUseSize, setUseCnt, setFreeSize, setFreeCnt,
    Bytes.putWord_word]

/-! ## The sums -/

/-- The four sums of a category. -/
inductive Total
  | freeSize
  | freeCnt
  | useSize
  | useCnt
deriving DecidableEq, Repr

/-- The place of the sum in `mempage_system_t`. -/
def Total.offset : Total → Nat
  | freeSize => 12
  | freeCnt => 16
  | useSize => 20
  | useCnt => 24

/-- The sum of the whole category. -/
def Total.ofCategory (data : Bytes) (t : Total) : Nat := data.word t.offset 4

/-- The sum of one page. -/
def Total.ofPage (p : Bytes) : Total → Nat
  | freeSize => Memory.freeSize p mmposFreeRoot
  | freeCnt => Memory.freeCnt p mmposFreeRoot
  | useSize => Memory.useSize p mmposUsedRoot
  | useCnt => Memory.useCnt p mmposUsedRoot

theorem Total.offset_bounds (t : Total) : 12 ≤ t.offset ∧ t.offset + 4 ≤ 28 := by
  cases t <;> exact ⟨by decide, by decide⟩

theorem SameAt.total (h : SameAt data data' n) (t : Total) : t.ofPage (page data' n) = t.ofPage (page data n) := by
  have hword : ∀ a, a + 4 ≤ 168 → (page data' n).word a 4 = (page data n).word a 4 := fun a ha =>
    Bytes.word_congr fun i _ h2 => h.bytes i (by omega)
  cases t with
  | freeSize => exact hword 80 (by omega)
  | freeCnt => exact hword 84 (by omega)
  | useSize => exact hword 32 (by omega)
  | useCnt => exact hword 36 (by omega)

/-! ## Settled pages -/

namespace PageRep

theorem usedItems_eq (h : PageRep id p L) : usedItems p = L.used := by
  rw [usedItems, h.items_used (by decide), List.tail_cons]

/-- No total comes near to 2 ^ 32. -/
theorem totals_le (h : PageRep id p L) : (L.used.map (len p)).sum ≤ 130848 ∧ L.used.length ≤ 130848 ∧
    (L.free.map (len p)).sum ≤ 130848 ∧ L.free.length ≤ 130848 := by
  have h1 := h.sums
  have h2 := h.bckt_le
  have h3 := h.tiles.length_le fun x hx => (h.item x hx).long
  have h4 := h.perm.length_eq
  rw [List.length_append] at h4
  simp only [mmposBcktInit] at h3
  omega

theorem summedPage_eq (h : PageRep id p L) : summedPage p L =
    Memory.putSums p (L.used.map (len p)).sum L.used.length (L.free.map (len p)).sum L.free.length := by
  have h1 := h.totals_le
  rw [summedPage, sizeSummary, countSummary, h.countedItems_free, Nat.mod_eq_of_lt (by omega),
    Nat.mod_eq_of_lt (by omega)]

theorem summedPage_fields (h : PageRep id p L) :
    useSize (summedPage p L) mmposUsedRoot = (L.used.map (len p)).sum ∧
      useCnt (summedPage p L) mmposUsedRoot = L.used.length ∧
      freeSize (summedPage p L) mmposFreeRoot = (L.free.map (len p)).sum ∧
      freeCnt (summedPage p L) mmposFreeRoot = L.free.length := by
  have h1 := h.totals_le
  rw [h.summedPage_eq]
  exact putSums_fields p (by omega) (by omega) (by omega) (by omega)

end PageRep

/-- The sums in the roots of a page are the totals of its lists. -/
structure Summed (p : Bytes) : Prop where
  useSize : Memory.useSize p mmposUsedRoot = ((usedItems p).map (len p)).sum
  useCnt : Memory.useCnt p mmposUsedRoot = (usedItems p).length
  freeSize : Memory.freeSize p mmposFreeRoot = ((freeItems p).map (len p)).sum
  freeCnt : Memory.freeCnt p mmposFreeRoot = (freeItems p).length

/-- Page `n`, of layout `L`, is as a rebuild leaves it: its sums and its bits are those of its lists, and without used
items it is all bucket. -/
structure Settled (id : Nat) (data : Bytes) (n : Nat) (L : Layout) : Prop where
  rep : PageRep id (page data n) L
  err : isPagebit data .err n = false
  summed : Summed (page data n)
  dc : ∀ b ∈ dcBitmaps, isPagebit data b n = true ↔
    b ∈ dcClasses (remainSize (L.used.map (len (page data n))).sum L.used.length)
  free : ∀ b ∈ freeBitmaps, isPagebit data b n = true ↔ ∃ x ∈ L.free, b ∈ freeClasses (len (page data n) x - 32)
  whole : L.used = [] → L = Layout.empty ∧ ∀ i, i < 131072 → shrinkPage (page data n) i = page data n i

/-- An empty page has the bits of all size classes of the bucket. -/
theorem dcClasses_empty : dcClasses (remainSize ((Layout.empty.used.map (len p)).sum) Layout.empty.used.length) =
    dcBitmaps := by
  rw [show Layout.empty.used = [] from rfl, List.map_nil, List.sum_nil, List.length_nil]
  decide

namespace Settled

theorem summedPage_eq (h : Settled id data n L) : summedPage (page data n) L = page data n := by
  have hself := putSums_self (page data n)
  rwa [h.summed.useSize, h.summed.useCnt, h.summed.freeSize, h.summed.freeCnt, h.rep.usedItems_eq, h.rep.freeItems_eq,
    ← h.rep.summedPage_eq] at hself

theorem freshBits_eq (h : Settled id data n L) (hn : n < 1024) : freshBits data n (page data n) (56 :: L.free)
    (remainSize (L.used.map (len (page data n))).sum L.used.length) = data := by
  obtain ⟨-, -, herr, hdc, hfree⟩ := freshBits_spec data (page data n) (56 :: L.free)
    (remainSize (L.used.map (len (page data n))).sum L.used.length) hn
  rw [h.rep.countedItems_free] at hfree
  apply (marksOf_freshBits n data (page data n) _ _).eq
  intro b
  rcases b.mem_bitmaps with hb | hb | rfl
  · rw [Bool.eq_iff_iff, hdc b hb.1, h.dc b hb.1]
  · rw [Bool.eq_iff_iff, hfree b hb.2, h.free b hb.2]
  · exact herr

theorem shrinkBacketRecycle_eq (h : Settled id data n L) (hn : n ∈ userPages) (hu : L.used = []) :
    shrinkBacketRecycle n data = data := by
  have hn' := (mem_userPages.mp hn).2
  obtain ⟨rfl, hwhole⟩ := h.whole hu
  have hbits : pagebits (pagebits data n true dcBitmaps) n false freeBitmaps = data := by
    apply ((marksOf_pagebits n data true dcBitmaps).trans (marksOf_pagebits n _ false freeBitmaps)).eq
    intro b
    rw [isPagebit_pagebits hn' hn', isPagebit_pagebits hn' hn']
    rcases b.mem_bitmaps with hb | hb | rfl
    · rw [if_neg (fun h => hb.2 h.1), if_pos ⟨hb.1, rfl⟩, eq_comm, h.dc b hb.1, dcClasses_empty]
      exact hb.1
    · rw [if_pos ⟨hb.2, rfl⟩, eq_comm, Bool.eq_false_iff, Ne, h.free b hb.2]
      rintro ⟨x, hx, -⟩
      exact absurd hx List.not_mem_nil
    · rw [if_neg (fun h => absurd h.1 (by decide)), if_neg (fun h => absurd h.1 (by decide))]
  have hpage : shrinkPage (page data n) = page data n := by
    funext i
    by_cases hi : i < 131072
    · exact hwhole i hi
    · exact shrinkPage_of_outside (by omega)
  rw [shrinkBacketRecycle, hbits, hpage, withPage_page]

/-- To rebuild a settled page changes nothing. -/
theorem rebuild_eq (h : Settled id data n L) (hn : n ∈ userPages) :
    rebuildBitmapAndPagesummary n data false = (data, .ok) := by
  rw [Memory.rebuild_eq h.rep hn]
  simp only []
  rw [h.freshBits_eq (mem_userPages.mp hn).2, h.summedPage_eq, withPage_page]
  split
  · rename_i hu
    rw [h.shrinkBacketRecycle_eq hn hu]
  · rfl

/-- A page and its bits decide whether it is settled. -/
theorem of_same (h : Settled id data n L) (hs : SameAt data data' n) : Settled id data' n L := by
  have hrep := h.rep.of_lt hs.bytes
  obtain ⟨hlen, hused, hfree⟩ := h.rep.lens_congr fun i _ hi => hs.bytes i hi
  refine ⟨hrep, (hs.bit .err).trans h.err, ⟨?_, ?_, ?_, ?_⟩, fun b hb => ?_, fun b hb => ?_, fun hu => ?_⟩
  · rw [hrep.usedItems_eq, hused, ← h.rep.usedItems_eq, ← h.summed.useSize]
    exact hs.total .useSize
  · rw [hrep.usedItems_eq, ← h.rep.usedItems_eq, ← h.summed.useCnt]
    exact hs.total .useCnt
  · rw [hrep.freeItems_eq, hfree, ← h.rep.freeItems_eq, ← h.summed.freeSize]
    exact hs.total .freeSize
  · rw [hrep.freeItems_eq, ← h.rep.freeItems_eq, ← h.summed.freeCnt]
    exact hs.total .freeCnt
  · rw [hs.bit, hused, h.dc b hb]
  · rw [hs.bit, h.free b hb]
    refine exists_congr fun x => and_congr_right fun hx => ?_
    rw [hlen x (h.rep.mem_free hx)]
  · obtain ⟨heq, hwhole⟩ := h.whole hu
    refine ⟨heq, fun i hi => ?_⟩
    rw [patch_shrinkPage.congr (hs.bytes i hi), hwhole i hi, hs.bytes i hi]

end Settled

/-! ## A rebuild settles its page -/

theorem Layout.used_rebuilt (L : Layout) : L.rebuilt.used = L.used := by
  rw [Layout.rebuilt]
  split
  · rename_i hu
    rw [hu]
    rfl
  · rfl

theorem sameAt_addSums (data : Bytes) (m : Nat) (hn : n ∈ userPages) :
    SameAt data (addFreeSums (addUseSums data m) m) n :=
  (sameAt_addUseSums hn).trans (sameAt_addFreeSums hn)

section Page

variable (h : PageRep id (page data m) L) (hm : m ∈ userPages)

include h hm

/-- The page after a rebuild. -/
theorem page_rebuild : page (rebuildBitmapAndPagesummary m data false).1 m =
    if L.used = [] then shrinkPage (summedPage (page data m) L) else summedPage (page data m) L := by
  rw [rebuild_eq h hm]
  simp only []
  split
  · rw [page_shrinkBacketRecycle hm, page_withPage_self]
  · rw [page_withPage_self]

/-- The first part of the system page after a rebuild. -/
theorem byte_rebuild {i : Nat} (hi : i < 2048) : (rebuildBitmapAndPagesummary m data false).1 i = data i := by
  have hm' := mem_userPages.mp hm
  have hlt : i < mmposUsrpage m := by
    simp only [mmposUsrpage, pageSize]
    omega
  rw [rebuild_eq h hm]
  simp only []
  split
  · rw [shrinkBacketRecycle, withPage_of_lt hlt, (marksOf_pagebits m _ false freeBitmaps).byte hm'.2 (.inl hi),
      (marksOf_pagebits m _ true dcBitmaps).byte hm'.2 (.inl hi), withPage_of_lt hlt,
      (marksOf_freshBits m data _ _ _).byte hm'.2 (.inl hi)]
  · rw [withPage_of_lt hlt, (marksOf_freshBits m data _ _ _).byte hm'.2 (.inl hi)]

/-- The root of the used list keeps its bytes, its sums apart. -/
theorem root_rebuild {i : Nat} (hi : i < 56) (hsum : i < 32 ∨ 40 ≤ i) :
    page (rebuildBitmapAndPagesummary m data false).1 m i = page data m i := by
  rw [page_rebuild h hm]
  split
  · rw [shrinkPage_of_outside (.inl hi), summedPage, putSums_of_outside hsum (by omega)]
  · rw [summedPage, putSums_of_outside hsum (by omega)]

theorem rebuild_settled (he : isPagebit data .err m = false) :
    Settled id (rebuildBitmapAndPagesummary m data false).1 m L.rebuilt := by
  obtain ⟨data', heq, hr, -⟩ := rebuild_spec h hm
  obtain ⟨f1, f2, f3, f4⟩ := h.summedPage_fields
  have hpage := page_rebuild h hm
  have hrep := hr.rep
  rw [heq] at hpage ⊢
  simp only [] at hpage ⊢
  by_cases hu : L.used = []
  · have hempty : L.rebuilt = Layout.empty := if_pos hu
    obtain ⟨s1, s2⟩ := shrinkPage_sums (summedPage (page data m) L)
    rw [if_pos hu] at hpage
    rw [hu] at f1 f2
    rw [hempty] at hrep ⊢
    have hword : ∀ a, a + 4 ≤ 56 → (page data' m).word a 4 = (summedPage (page data m) L).word a 4 := fun a ha => by
      rw [hpage]
      exact Bytes.word_congr fun i _ h2 => shrinkPage_of_outside (.inl (by omega))
    refine ⟨hrep, hr.err.trans he, ⟨?_, ?_, ?_, ?_⟩, fun b hb => ?_, fun b hb => ?_, fun _ => ⟨rfl, fun i _ => ?_⟩⟩
    · rw [hrep.usedItems_eq]
      exact (hword 32 (by omega)).trans f1
    · rw [hrep.usedItems_eq]
      exact (hword 36 (by omega)).trans f2
    · rw [hrep.freeItems_eq, hpage]
      exact s1
    · rw [hrep.freeItems_eq, hpage]
      exact s2
    · rw [hr.dc b hb, dcClasses_empty]
      exact ⟨fun _ => hb, fun _ => .inl hu⟩
    · rw [hr.free b hb]
      refine ⟨fun h1 => absurd hu h1.1, ?_⟩
      rintro ⟨x, hx, -⟩
      exact absurd hx List.not_mem_nil
    · rw [hpage, patch_shrinkPage.idempotent]
  · have hsame : L.rebuilt = L := if_neg hu
    rw [if_neg hu] at hpage
    rw [hsame] at hrep ⊢
    obtain ⟨hlen, hused, hfree⟩ := h.lens_congr fun i h1 h2 => hr.kept hu i h2 (.inr (by omega)) (.inr (by omega))
    refine ⟨hrep, hr.err.trans he, ⟨?_, ?_, ?_, ?_⟩, fun b hb => ?_, fun b hb => ?_, fun hu' => absurd hu' hu⟩
    · rw [hrep.usedItems_eq, hused, hpage, f1]
    · rw [hrep.usedItems_eq, hpage, f2]
    · rw [hrep.freeItems_eq, hfree, hpage, f3]
    · rw [hrep.freeItems_eq, hpage, f4]
    · rw [hr.dc b hb, hused]
      exact ⟨fun h1 => h1.resolve_left hu, .inr⟩
    · rw [hr.free b hb]
      refine ⟨fun ⟨_, x, hx, h1⟩ => ⟨x, hx, ?_⟩, fun ⟨x, hx, h1⟩ => ⟨hu, x, hx, ?_⟩⟩
      · rwa [hlen x (h.mem_free hx)]
      · rwa [hlen x (h.mem_free hx)] at h1

/-- What `rebuild_page_statics` does with a well-formed page. -/
theorem rebuildPage_eq (he : isPagebit data .err m = false) :
    rebuildPage data m = addFreeSums (addUseSums (rebuildBitmapAndPagesummary m data false).1 m) m := by
  obtain ⟨data', heq, hr, -⟩ := rebuild_spec h hm
  rw [rebuildPage, heq]
  simp only []
  rw [errOff_eq (mem_userPages.mp hm).2 (hr.err.trans he)]

theorem rebuildPage_settled (he : isPagebit data .err m = false) : Settled id (rebuildPage data m) m L.rebuilt ∧
    ∀ i, i < 56 → (i < 32 ∨ 40 ≤ i) → page (rebuildPage data m) m i = page data m i := by
  have hsame := sameAt_addSums (rebuildBitmapAndPagesummary m data false).1 m hm
  rw [rebuildPage_eq h hm he]
  refine ⟨(rebuild_settled h hm he).of_same hsame, fun i h1 h2 => ?_⟩
  rw [hsame.bytes i (by omega), root_rebuild h hm h1 h2]

end Page

/-! ## The sums of the category -/

theorem addSums_of_outside {i : Nat} (hi : i < 12 ∨ 28 ≤ i) : addFreeSums (addUseSums data m) m i = data i := by
  simp only [addFreeSums, addUseSums]
  rw [Bytes.putWord_of_outside (by omega), Bytes.putWord_of_outside (by omega), Bytes.putWord_of_outside (by omega),
    Bytes.putWord_of_outside (by omega)]

theorem total_addSums (hm : m ∈ userPages) (t : Total) : t.ofCategory (addFreeSums (addUseSums data m) m) =
    (t.ofCategory data + t.ofPage (page data m)) % 4294967296 := by
  have hpage : ∀ (d : Bytes) a v, a + 4 ≤ 2048 → page (d.putWord a 4 v) m = page d m := fun d a v ha =>
    (samePages_putWord ha).page hm
  have hself : ∀ (d : Bytes) a v, (d.putWord a 4 v).word a 4 = v % 4294967296 := fun d a v =>
    Bytes.word_putWord_self d a 4 v
  cases t <;>
    simp (disch := omega) only [Total.ofCategory, Total.ofPage, Total.offset, addFreeSums, addUseSums, hpage, hself,
      Bytes.word_putWord_of_disjoint]

theorem clearSums_of_outside {i : Nat} (hi : i < 12 ∨ 28 ≤ i) : clearSums data i = data i := by
  rw [clearSums, Bytes.putWord_of_outside (by omega), Bytes.putWord_of_outside (by omega),
    Bytes.putWord_of_outside (by omega), Bytes.putWord_of_outside (by omega)]

theorem total_clearSums (data : Bytes) (t : Total) : t.ofCategory (clearSums data) = 0 := by
  have hself : ∀ (d : Bytes) a, (d.putWord a 4 0).word a 4 = 0 := fun d a => Bytes.word_putWord_self d a 4 0
  cases t <;>
    simp (disch := omega) only [Total.ofCategory, Total.offset, clearSums, hself, Bytes.word_putWord_of_disjoint]

/-- Memories with the same sums, and the same bytes beside them. -/
theorem eq_of_totals (h : ∀ i, i < 12 ∨ 28 ≤ i → data' i = data i)
    (ht : ∀ t : Total, t.ofCategory data' = t.ofCategory data) : data' = data := by
  funext i
  have hword : ∀ t : Total, t.offset ≤ i → i < t.offset + 4 → data' i = data i := fun t =>
    Bytes.byte_of_word (ht t)
  have h1 := hword .freeSize
  have h2 := hword .freeCnt
  have h3 := hword .useSize
  have h4 := hword .useCnt
  simp only [Total.offset] at h1 h2 h3 h4
  by_cases hi : i < 12 ∨ 28 ≤ i
  · exact h i hi
  · rcases (by omega : i < 16 ∨ 16 ≤ i ∧ i < 20 ∨ 20 ≤ i ∧ i < 24 ∨ 24 ≤ i ∧ i < 28) with h5 | h5 | h5 | h5
    · exact h1 (by omega) h5
    · exact h2 h5.1 h5.2
    · exact h3 h5.1 h5.2
    · exact h4 h5.1 h5.2

/-! ## All pages -/

/-- One page adds its sums. -/
theorem total_rebuildPage (hm : m ∈ userPages) (h : PageRep id (page data m) L) (he : isPagebit data .err m = false)
    (t : Total) : t.ofCategory (rebuildPage data m) =
      (t.ofCategory data + t.ofPage (page (rebuildPage data m) m)) % 4294967296 := by
  have hsame := sameAt_addSums (rebuildBitmapAndPagesummary m data false).1 m hm
  have hword : t.ofCategory (rebuildBitmapAndPagesummary m data false).1 = t.ofCategory data := by
    have := t.offset_bounds
    exact Bytes.word_congr fun i _ h2 => byte_rebuild h hm (by omega)
  rw [rebuildPage_eq h hm he, total_addSums hm, hsame.total, hword]

/-- The pages add up. -/
theorem foldl_total {L : Nat → Layout} (t : Total) (l : List Nat) (hl : ∀ n ∈ l, n ∈ userPages) (hnd : l.Nodup)
    (h : ∀ n ∈ l, PageRep id (page data n) (L n) ∧ isPagebit data .err n = false) :
    t.ofCategory (l.foldl rebuildPage data) =
      (t.ofCategory data + (l.map fun n => t.ofPage (page (l.foldl rebuildPage data) n)).sum) % 4294967296 := by
  induction l generalizing data with
  | nil =>
    have hlt : t.ofCategory data < 4294967296 := Bytes.word_lt data t.offset 4
    rw [List.foldl_nil, List.map_nil, List.sum_nil, Nat.add_zero, Nat.mod_eq_of_lt hlt]
  | cons m l ih =>
    obtain ⟨hnot, hnd⟩ := List.nodup_cons.mp hnd
    have hm := hl m List.mem_cons_self
    have hl' : ∀ n ∈ l, n ∈ userPages := fun n hn => hl n (List.mem_cons_of_mem m hn)
    obtain ⟨hrep, herr⟩ := h m List.mem_cons_self
    have hother := (rebuildPage_spec hm hrep herr).other
    have hrest : ∀ n ∈ l, PageRep id (page (rebuildPage data m) n) (L n) ∧
        isPagebit (rebuildPage data m) .err n = false := by
      intro n hn
      obtain ⟨h1, h2⟩ := h n (List.mem_cons_of_mem m hn)
      have hs := hother n (hl' n hn) fun heq => hnot (heq ▸ hn)
      exact ⟨h1.of_lt hs.bytes, (hs.bit .err).trans h2⟩
    -- page m is not touched again
    have hkept := (foldl_pages (P := fun d n => PageRep id (page d n) (L n) ∧ isPagebit d .err n = false)
      (Q := fun _ _ _ => True) (fun hp hs => ⟨hp.1.of_lt hs.bytes, (hs.bit .err).trans hp.2⟩) (fun _ _ => trivial)
      (fun _ _ _ => trivial) (fun hm hp => ⟨trivial, (rebuildPage_spec hm hp.1 hp.2).other⟩) l hl' hnd hrest).2
        m hm hnot
    rw [List.foldl_cons, ih hl' hnd hrest, total_rebuildPage hm hrep herr, List.map_cons, List.sum_cons, hkept.total,
      Nat.mod_add_mod, Nat.add_assoc]

/-- On settled pages a rebuild changes the sums of the category only. -/
theorem foldl_settled {L : Nat → Layout} (l : List Nat) (hl : ∀ n ∈ l, n ∈ userPages)
    (h : ∀ n ∈ l, Settled id data n (L n)) {i : Nat} (hi : i < 12 ∨ 28 ≤ i) :
    l.foldl rebuildPage data i = data i := by
  induction l generalizing data with
  | nil => rfl
  | cons m l ih =>
    have hm := hl m List.mem_cons_self
    have hset := h m List.mem_cons_self
    have hstep : rebuildPage data m = addFreeSums (addUseSums data m) m := by
      rw [rebuildPage_eq hset.rep hm hset.err, hset.rebuild_eq hm]
    have hrest : ∀ n ∈ l, Settled id (rebuildPage data m) n (L n) := by
      intro n hn
      have hn' := hl n (List.mem_cons_of_mem m hn)
      rw [hstep]
      exact (h n (List.mem_cons_of_mem m hn)).of_same (sameAt_addSums data m hn')
    rw [List.foldl_cons, ih (fun n hn => hl n (List.mem_cons_of_mem m hn)) hrest, hstep, addSums_of_outside hi]

/-! ## Whole categories -/

/-- What a rebuild has to make of the category `c`. -/
structure Refreshed (c c' : Category) : Prop where
  live : live c' = live c
  bytes : ∀ b ∈ Memory.live c, ∀ i, b.start ≤ i → i < b.start + b.length c → c'.data i = c.data i
  chain : ∀ n ∈ userPages, visited (page c'.data n) mmsigUsed mmposMinOfst mmposUsedRoot =
    visited (page c.data n) mmsigUsed mmposMinOfst mmposUsedRoot
  root : ∀ n ∈ userPages, ∀ i, i < 56 → (i < 32 ∨ 40 ≤ i) → page c'.data n i = page c.data n i
  summed : ∀ n ∈ userPages, Summed (page c'.data n)
  total : ∀ t : Total, t.ofCategory c'.data = (userPages.map fun n => t.ofPage (page c'.data n)).sum
  err : ∀ n ∈ userPages, isPagebit c'.data .err n = false

/-- The sums of one page are below its space. -/
theorem PageRep.total_le (h : PageRep id p L) (hs : Summed p) (t : Total) : t.ofPage p ≤ 130848 := by
  obtain ⟨h1, h2, h3, h4⟩ := h.totals_le
  rw [← h.usedItems_eq] at h1 h2
  rw [← h.freeItems_eq] at h3 h4
  cases t with
  | freeSize => exact hs.freeSize.trans_le h3
  | freeCnt => exact hs.freeCnt.trans_le h4
  | useSize => exact hs.useSize.trans_le h1
  | useCnt => exact hs.useCnt.trans_le h2

/-- The sums of all pages do not wrap. -/
theorem sum_userPages_lt {f : Nat → Nat} (h : ∀ n ∈ userPages, f n ≤ 130848) : (userPages.map f).sum < 4294967296 := by
  have hlen : userPages.length = 1023 := by rw [userPages, List.length_range', pageCnt]
  have hle := List.sum_le_card_nsmul (userPages.map f) 130848 fun v hv => by
    obtain ⟨n, hn, rfl⟩ := List.mem_map.mp hv
    exact h n hn
  rw [List.length_map, hlen, smul_eq_mul] at hle
  omega

theorem Category.eq_of_data {c : Category} (h : data = c.data) : ({ c with data := data } : Category) = c := by
  subst h
  rfl

namespace Fits

variable {c : Category} {L : Nat → Layout}

theorem clearSums (h : Fits c L) : ∀ n ∈ userPages, PageRep c.id.toNat (page (Memory.clearSums c.data) n) (L n) ∧
    isPagebit (Memory.clearSums c.data) .err n = false := by
  intro n hn
  have hs := sameAt_clearSums c.data hn
  exact ⟨(h.rep n hn).of_lt hs.bytes, (hs.bit .err).trans (h.err n hn)⟩

/-- After a rebuild every page is settled, and the root of its used list is as it was. -/
theorem rebuildPageStatics_settled (h : Fits c L) : ∀ n ∈ userPages,
    Settled c.id.toNat (Memory.rebuildPageStatics c).data n (L n).rebuilt ∧
      ∀ i, i < 56 → (i < 32 ∨ 40 ≤ i) → page (Memory.rebuildPageStatics c).data n i = page c.data n i := by
  have hfold := (foldl_pages (P := fun d n => PageRep c.id.toNat (page d n) (L n) ∧ isPagebit d .err n = false)
    (Q := fun d d' n => Settled c.id.toNat d' n (L n).rebuilt ∧
      ∀ i, i < 56 → (i < 32 ∨ 40 ≤ i) → page d' n i = page d n i)
    (fun hp hs => ⟨hp.1.of_lt hs.bytes, (hs.bit .err).trans hp.2⟩)
    (fun hq hs => ⟨hq.1.of_same hs, fun i h1 h2 => (hs.bytes i (by omega)).trans (hq.2 i h1 h2)⟩)
    (fun _ hs hq => ⟨hq.1, fun i h1 h2 => (hq.2 i h1 h2).trans (hs.bytes i (by omega))⟩)
    (fun hm hp => ⟨rebuildPage_settled hp.1 hm hp.2, (rebuildPage_spec hm hp.1 hp.2).other⟩)
    userPages (fun _ hn => hn) nodup_userPages h.clearSums).1
  intro n hn
  obtain ⟨h1, h2⟩ := hfold n hn
  rw [data_rebuildPageStatics]
  exact ⟨h1, fun i h3 h4 => (h2 i h3 h4).trans ((sameAt_clearSums c.data hn).bytes i (by omega))⟩

/-- The sums after a rebuild. -/
theorem total_rebuildPageStatics (h : Fits c L) (t : Total) : t.ofCategory (Memory.rebuildPageStatics c).data =
    (userPages.map fun n => t.ofPage (page (Memory.rebuildPageStatics c).data n)).sum % 4294967296 := by
  rw [data_rebuildPageStatics, foldl_total t userPages (fun _ hn => hn) nodup_userPages h.clearSums,
    total_clearSums, Nat.zero_add]

/-- On a settled category a rebuild writes the same sums again. -/
theorem rebuildPageStatics_eq (hset : ∀ n ∈ userPages, Settled c.id.toNat c.data n (L n))
    (ht : ∀ t : Total, t.ofCategory c.data = (userPages.map fun n => t.ofPage (page c.data n)).sum % 4294967296) :
    Memory.rebuildPageStatics c = c := by
  have hfits : Fits c L := ⟨fun n hn => (hset n hn).rep, fun n hn => (hset n hn).err⟩
  have hbyte : ∀ i, i < 12 ∨ 28 ≤ i → (Memory.rebuildPageStatics c).data i = c.data i := by
    intro i hi
    have hclear := fun n hn => (hset n hn).of_same (sameAt_clearSums c.data hn)
    rw [data_rebuildPageStatics, foldl_settled userPages (fun _ hn => hn) hclear hi, clearSums_of_outside hi]
  have hpage : ∀ n ∈ userPages, page (Memory.rebuildPageStatics c).data n = page c.data n := by
    intro n hn
    have := mem_userPages.mp hn
    funext i
    apply hbyte
    simp only [mmposUsrpage, pageSize]
    omega
  have hdata : (Memory.rebuildPageStatics c).data = c.data := by
    apply eq_of_totals hbyte
    intro t
    rw [hfits.total_rebuildPageStatics t, ht t]
    exact congrArg (fun l => l.sum % 4294967296) (List.map_congr_left fun n hn => congrArg t.ofPage (hpage n hn))
  rw [data_rebuildPageStatics] at hdata
  exact Category.eq_of_data hdata

theorem refreshed (h : Fits c L) : Refreshed c (Memory.rebuildPageStatics c) := by
  have hset := h.rebuildPageStatics_settled
  have hrebuilt := h.rebuildPageStatics_spec
  refine ⟨(h.rebuilt_live hrebuilt).1, fun b hb i h1 h2 => ?_, fun n hn => ?_, fun n hn => (hset n hn).2,
    fun n hn => (hset n hn).1.summed, fun t => ?_, fun n hn => (hset n hn).1.err⟩
  · obtain ⟨-, hn, hu⟩ := h.mem_live.mp hb
    have hplace := (h.rep _ hn).place ((h.rep _ hn).mem_used hu)
    simp only [Block.start, Block.length] at h1 h2
    obtain ⟨j, rfl⟩ := Nat.exists_eq_add_of_le (Nat.le_trans (Nat.le_add_right _ b.offset) h1)
    exact (hrebuilt _ hn).kept (List.ne_nil_of_mem hu) j (by omega) (by omega) (by omega)
  · rw [(h.rep n hn).visited_used (by decide), (hset n hn).1.rep.visited_used (by decide), Layout.used_rebuilt]
  · have hlt : (userPages.map fun n => t.ofPage (page (Memory.rebuildPageStatics c).data n)).sum < 4294967296 :=
      sum_userPages_lt fun n hn => (hset n hn).1.rep.total_le (hset n hn).1.summed t
    rw [h.total_rebuildPageStatics t, Nat.mod_eq_of_lt hlt]

end Fits

/-- A rebuild leaves the blocks in use as they are and the sums right, and a second one changes nothing. -/
theorem Reachable.statics_settled {id : BitVec 32} {filesize k : Nat} {c : Category} {B : List Block}
    (h : Reachable id filesize k c B) : Refreshed c (Memory.rebuildPageStatics c) ∧
      Memory.rebuildPageStatics (Memory.rebuildPageStatics c) = Memory.rebuildPageStatics c := by
  obtain ⟨⟨L, hfits⟩, -, -⟩ := h.fits
  refine ⟨hfits.refreshed, Fits.rebuildPageStatics_eq (L := fun n => (L n).rebuilt) (fun n hn => ?_)
    hfits.total_rebuildPageStatics⟩
  rw [Fits.id_rebuildPageStatics]
  exact (hfits.rebuildPageStatics_settled n hn).1

/-- A block is in use, and another one was freed and lies in the recycle list of its page. -/
theorem statics_settled_freed : ∃ c b b', Reachable 0 134217728 0 c [b', b] ∧ live c = {b'} ∧ b ≠ b' ∧
    b.offset ∈ freeItems (page c.data b.pageid) ∧ Refreshed c (rebuildPageStatics c) ∧
    rebuildPageStatics (rebuildPageStatics c) = rebuildPageStatics c := by
  obtain ⟨c, b, b', L, h, hlive, hne, hfits, hn, hfree, -⟩ := exists_freed
  obtain ⟨hrefreshed, hagain⟩ := Reachable.statics_settled h
  exact ⟨c, b, b', h, hlive, hne, (hfits.rep _ hn).freeItems_eq.symm ▸ hfree, hrefreshed, hagain⟩

end NetworkBfd.Smmr.Memory
