import NetworkBfd.Smmr.Memory.Pages

/-!
# Rebuilding well-formed pages

On a well-formed page `rebuildBitmapAndPagesummary` succeeds (`rebuild_spec`): it sets the sums and the bits of the
page by its lists, and changes nothing else unless no item is used, when it makes the whole page bucket again. So
`rebuildPageStatics` and `rebuildPagesArea` keep a category well-formed (`Fits.rebuildPageStatics`,
`Fits.rebuildPagesArea`), and `rebuildPagesArea` makes a fresh file so (`fits_fresh`).
-/

namespace NetworkBfd.Smmr.Memory

open Lib

variable {id m n : Nat} {data data' p : Bytes} {L : Layout} {b : SysPage}

/-- The page as a rebuild leaves it: bucket only, if no item is used. -/
def Layout.rebuilt (L : Layout) : Layout := if L.used = [] then Layout.empty else L

/-! ## Summaries -/

namespace PageRep

theorem countedItems_chain {r : Nat} {l : List Nat} (h : PageRep id p L) (hr : r < 168) (hl : ∀ x ∈ l, x ∈ L.blocks) :
    countedItems p r (r :: l) = l := by
  rw [countedItems, List.filter_cons_of_neg (by simp)]
  refine List.filter_eq_self.mpr fun x hx => ?_
  have := h.place (hl x hx)
  rw [decide_eq_true_eq, mmposMinOfst]
  omega

theorem countedItems_used (h : PageRep id p L) : countedItems p mmposUsedRoot (0 :: L.used) = L.used :=
  h.countedItems_chain (by decide) fun _ hx => h.mem_used hx

theorem countedItems_free (h : PageRep id p L) : countedItems p mmposFreeRoot (56 :: L.free) = L.free :=
  h.countedItems_chain (by decide) fun _ hx => h.mem_free hx

/-- The lengths of the used items and of the recycled ones fill the space before the bucket. -/
theorem sums (h : PageRep id p L) : 168 + ((L.used.map (len p)).sum + (L.free.map (len p)).sum) = L.bckt := by
  have h1 := h.tiles.sum
  rwa [← (h.perm.map (len p)).sum_nat, List.map_append, List.sum_append] at h1

theorem sizeSummary_used (h : PageRep id p L) :
    sizeSummary p mmposUsedRoot (0 :: L.used) = (L.used.map (len p)).sum := by
  have h1 := h.sums
  have h2 := h.bckt_le
  rw [sizeSummary, h.countedItems_used]
  exact Nat.mod_eq_of_lt (by omega)

theorem countSummary_used (h : PageRep id p L) : countSummary p mmposUsedRoot (0 :: L.used) = L.used.length := by
  have h1 := h.length_le
  have h2 := h.perm.length_eq
  rw [List.length_append] at h2
  rw [countSummary, h.countedItems_used]
  exact Nat.mod_eq_of_lt (by omega)

theorem sum_eq_zero_iff {l : List Nat} (h : PageRep id p L) (hl : ∀ x ∈ l, x ∈ L.blocks) :
    (l.map (len p)).sum = 0 ↔ l = [] := by
  constructor
  · intro h1
    cases l with
    | nil => rfl
    | cons x l =>
      have := h.place (hl x List.mem_cons_self)
      rw [List.map_cons, List.sum_cons] at h1
      omega
  · rintro rfl
    rfl

end PageRep

/-! ## Bits -/

theorem recycleBits_spec (hm : m < 1024) (items : List Nat) :
    SamePages data (recycleBits data m p items) ∧ ∀ b n, n < 1024 → (isPagebit (recycleBits data m p items) b n = true ↔
      (m = n ∧ ∃ x ∈ countedItems p mmposFreeRoot items, b ∈ freeClasses (len p x - 32)) ∨
        isPagebit data b n = true) := by
  rw [recycleBits]
  induction countedItems p mmposFreeRoot items generalizing data with
  | nil => exact ⟨fun i _ => rfl, fun b n _ => by simp⟩
  | cons x l ih =>
    rw [List.foldl_cons]
    obtain ⟨h1, h2⟩ := @ih (pagebits data m true (freeClasses (len p x - mmposMinOfst)))
    refine ⟨(samePages_pagebits hm _).trans h1, fun b n hn => ?_⟩
    rw [h2 b n hn, isPagebit_pagebits hn hm, mmposMinOfst]
    constructor
    · rintro (⟨h3, y, hy, h4⟩ | h3)
      · exact .inl ⟨h3, y, List.mem_cons_of_mem x hy, h4⟩
      · split at h3
        · rename_i h4
          exact .inl ⟨h4.2, x, List.mem_cons_self, h4.1⟩
        · exact .inr h3
    · rintro (⟨h3, y, hy, h4⟩ | h3)
      · rcases List.mem_cons.mp hy with rfl | hy
        · exact .inr (if_pos ⟨h4, h3⟩)
        · exact .inl ⟨h3, y, hy, h4⟩
      · refine .inr ?_
        split
        · rfl
        · exact h3

theorem freeClasses_subset (r : Nat) : freeClasses r ⊆ freeBitmaps := by
  rw [freeClasses]
  split_ifs <;> decide

theorem dcClasses_subset (r : Nat) : dcClasses r ⊆ dcBitmaps := by
  rw [dcClasses]
  split_ifs <;> decide

theorem SysPage.mem_bitmaps (b : SysPage) :
    b ∈ dcBitmaps ∧ b ∉ freeBitmaps ∨ b ∉ dcBitmaps ∧ b ∈ freeBitmaps ∨ b = .err := by
  cases b <;> decide

/-! ## A page -/

/-- What a rebuild makes of page `n`, of layout `L`. -/
structure RebuiltAt (id : Nat) (data data' : Bytes) (n : Nat) (L : Layout) : Prop where
  rep : PageRep id (page data' n) L.rebuilt
  kept : L.used ≠ [] → ∀ i, i < 131072 → (i < 32 ∨ 40 ≤ i) → (i < 80 ∨ 88 ≤ i) → page data' n i = page data n i
  err : isPagebit data' .err n = isPagebit data .err n
  dc : ∀ b ∈ dcBitmaps, isPagebit data' b n = true ↔ L.used = [] ∨
    b ∈ dcClasses (remainSize (L.used.map (len (page data n))).sum L.used.length)
  free : ∀ b ∈ freeBitmaps, isPagebit data' b n = true ↔ L.used ≠ [] ∧
    ∃ x ∈ L.free, b ∈ freeClasses (len (page data n) x - 32)

/-- What a rebuild of page `m`, of layout `L`, makes of the memory. -/
structure Rebuilt (id : Nat) (data data' : Bytes) (m : Nat) (L : Layout) : Prop where
  self : RebuiltAt id data data' m L
  other : ∀ n ∈ userPages, n ≠ m → SameAt data data' n

/-- The sums that a rebuild writes into the two roots. -/
def putSums (p : Bytes) (useSize useCnt freeSize freeCnt : Nat) : Bytes :=
  setFreeCnt (setFreeSize (setUseCnt (setUseSize p mmposUsedRoot useSize) mmposUsedRoot useCnt) mmposFreeRoot freeSize)
    mmposFreeRoot freeCnt

theorem putSums_of_outside {u c f k i : Nat} (h1 : i < 32 ∨ 40 ≤ i) (h2 : i < 80 ∨ 88 ≤ i) :
    putSums p u c f k i = p i := by
  simp only [putSums, setFreeCnt, setFreeSize, setUseCnt, setUseSize, mmposUsedRoot, mmposFreeRoot, mmposRootDtl]
  rw [Bytes.putWord_of_outside (by omega), Bytes.putWord_of_outside (by omega), Bytes.putWord_of_outside (by omega),
    Bytes.putWord_of_outside (by omega)]

theorem PageRep.putSums {u c f k : Nat} (h : PageRep id p L) : PageRep id (putSums p u c f k) L := by
  refine h.congr fun i hi => putSums_of_outside ?_ ?_
  all_goals
    have h1 := h.bckt_le
    rcases hi with h2 | h2 | h2 | ⟨x, hx, h2⟩ | h2
    · omega
    · omega
    · omega
    · have := h.place hx
      omega
    · omega

/-- The bits of page `m`, and only these, are changed by `shrinkBacketRecycle`. -/
theorem isPagebit_shrinkBacketRecycle (hm : m ∈ userPages) (hn : n < 1024) :
    isPagebit (shrinkBacketRecycle m data) b n =
      if m = n then (if b ∈ freeBitmaps then false else if b ∈ dcBitmaps then true else isPagebit data b n)
      else isPagebit data b n := by
  have hm' := (mem_userPages.mp hm).2
  rw [shrinkBacketRecycle, isPagebit_withPage hn hm, isPagebit_pagebits hn hm', isPagebit_pagebits hn hm']
  by_cases h1 : m = n
  · simp only [h1, and_true, if_true]
  · simp only [h1, and_false, if_false]

theorem page_shrinkBacketRecycle (hm : m ∈ userPages) :
    page (shrinkBacketRecycle m data) m = shrinkPage (page data m) := by
  have hm' := (mem_userPages.mp hm).2
  have hsame : SamePages data (pagebits (pagebits data m true dcBitmaps) m false freeBitmaps) :=
    (samePages_pagebits hm' _).trans (samePages_pagebits hm' _)
  rw [shrinkBacketRecycle, page_withPage_self, hsame.page hm]

theorem page_shrinkBacketRecycle_of_ne (hm : m ∈ userPages) (hn : n ∈ userPages) (hne : n ≠ m) {i : Nat}
    (hi : i < 131072) : page (shrinkBacketRecycle m data) n i = page data n i := by
  have hm' := (mem_userPages.mp hm).2
  have hsame : SamePages data (pagebits (pagebits data m true dcBitmaps) m false freeBitmaps) :=
    (samePages_pagebits hm' _).trans (samePages_pagebits hm' _)
  rw [shrinkBacketRecycle, page_withPage_of_ne hne (fun i hi => shrinkPage_of_outside (by omega)) hi, hsame.page hn]

/-- The bits of page `m` anew: those of its recycled items, and those of what is left. -/
def freshBits (data : Bytes) (m : Nat) (p : Bytes) (items : List Nat) (r : Nat) : Bytes :=
  pagebits (recycleBits (pagebits (pagebits data m false dcBitmaps) m false freeBitmaps) m p items) m true (dcClasses r)

theorem freshBits_spec (data p : Bytes) (items : List Nat) (r : Nat) (hm : m < 1024) :
    SamePages data (freshBits data m p items r) ∧
      (∀ b n, n < 1024 → n ≠ m → isPagebit (freshBits data m p items r) b n = isPagebit data b n) ∧
      isPagebit (freshBits data m p items r) .err m = isPagebit data .err m ∧
      (∀ b ∈ dcBitmaps, isPagebit (freshBits data m p items r) b m = true ↔ b ∈ dcClasses r) ∧
      ∀ b ∈ freeBitmaps, isPagebit (freshBits data m p items r) b m = true ↔
        ∃ x ∈ countedItems p mmposFreeRoot items, b ∈ freeClasses (len p x - 32) := by
  obtain ⟨hsame, hbits⟩ := @recycleBits_spec _ (pagebits (pagebits data m false dcBitmaps) m false freeBitmaps)
    p hm items
  have hdc : ∀ b ∈ freeBitmaps, b ∉ dcBitmaps := by decide
  have hall : ∀ b n, n < 1024 → (isPagebit (freshBits data m p items r) b n = true ↔ (b ∈ dcClasses r ∧ m = n) ∨
      (m = n ∧ ∃ x ∈ countedItems p mmposFreeRoot items, b ∈ freeClasses (len p x - 32)) ∨
      ¬(b ∈ freeBitmaps ∧ m = n) ∧ ¬(b ∈ dcBitmaps ∧ m = n) ∧ isPagebit data b n = true) := by
    intro b n hn
    rw [freshBits, isPagebit_on hn hm, hbits b n hn, isPagebit_off hn hm, isPagebit_off hn hm]
  refine ⟨?_, fun b n hn hne => ?_, ?_, fun b hb => ?_, fun b hb => ?_⟩
  · exact ((samePages_pagebits hm _).trans (samePages_pagebits hm _)).trans (hsame.trans (samePages_pagebits hm _))
  · have hne' := Ne.symm hne
    rw [Bool.eq_iff_iff, hall b n hn]
    simp only [hne', and_false, false_and, false_or, not_false_eq_true, true_and]
  · have h1 : SysPage.err ∉ dcClasses r := fun h => absurd (dcClasses_subset r h) (by decide)
    have h2 : ∀ k, SysPage.err ∉ freeClasses k := fun k h => absurd (freeClasses_subset k h) (by decide)
    have h3 : SysPage.err ∉ freeBitmaps := by decide
    have h4 : SysPage.err ∉ dcBitmaps := by decide
    rw [Bool.eq_iff_iff, hall .err m hm]
    simp only [h1, h2, h3, h4, false_and, and_false, exists_false, false_or, not_false_eq_true, true_and]
  · have h2 : ∀ k, b ∉ freeClasses k := fun k h => hdc b (freeClasses_subset k h) hb
    rw [hall b m hm]
    simp only [h2, hb, and_true, and_false, exists_false, not_true_eq_false, false_and, or_false]
  · have h1 : b ∉ dcClasses r := fun h => hdc b hb (dcClasses_subset r h)
    rw [hall b m hm]
    simp only [h1, hb, and_true, true_and, false_or, not_true_eq_false, false_and, or_false]

/-- The page with the sums that a rebuild writes. -/
def summedPage (p : Bytes) (L : Layout) : Bytes :=
  putSums p (L.used.map (len p)).sum L.used.length (sizeSummary p mmposFreeRoot (56 :: L.free))
    (countSummary p mmposFreeRoot (56 :: L.free))

theorem rebuild_eq (h : PageRep id (page data m) L) (hm : m ∈ userPages) :
    rebuildBitmapAndPagesummary m data false =
      let r := remainSize (L.used.map (len (page data m))).sum L.used.length
      let data' := withPage (freshBits data m (page data m) (56 :: L.free) r) m (summedPage (page data m) L)
      (if L.used = [] then shrinkBacketRecycle m data' else data', .ok) := by
  have hm' := mem_userPages.mp hm
  have hclear : SamePages data (pagebits (pagebits data m false dcBitmaps) m false freeBitmaps) :=
    (samePages_pagebits hm'.2 _).trans (samePages_pagebits hm'.2 _)
  rw [rebuildBitmapAndPagesummary, if_neg (by simp only [pageCnt]; omega)]
  simp only [Bool.false_eq_true, if_false, hclear.page hm, h.visited_free (by decide : mmposMinOfst ≤ 36),
    h.visited_used (by decide : mmposMinOfst ≤ 36), h.sizeSummary_used, h.countSummary_used]
  simp only [Bool.not_true, Bool.and_false, Bool.false_eq_true, if_false, Bool.not_false, Bool.true_and, beq_iff_eq,
    h.sum_eq_zero_iff fun _ hx => h.mem_used hx]
  rfl

/-- A rebuild of a well-formed page succeeds. -/
theorem rebuild_spec (h : PageRep id (page data m) L) (hm : m ∈ userPages) :
    ∃ data', rebuildBitmapAndPagesummary m data false = (data', .ok) ∧ Rebuilt id data data' m L := by
  have hm' := (mem_userPages.mp hm).2
  refine ⟨_, rebuild_eq h hm, ?_⟩
  obtain ⟨hsame, hbit, herr, hdc, hfree⟩ := freshBits_spec data (page data m) (56 :: L.free)
    (remainSize (L.used.map (len (page data m))).sum L.used.length) hm'
  rw [h.countedItems_free] at hfree
  have hrep : PageRep id (summedPage (page data m) L) L := h.putSums
  have hsum : ∀ i, (i < 32 ∨ 40 ≤ i) → (i < 80 ∨ 88 ≤ i) → summedPage (page data m) L i = page data m i :=
    fun i => putSums_of_outside
  generalize freshBits data m (page data m) (56 :: L.free)
    (remainSize (L.used.map (len (page data m))).sum L.used.length) = d at hsame hbit herr hdc hfree ⊢
  generalize summedPage (page data m) L = q at hrep hsum ⊢
  have hother : ∀ n ∈ userPages, n ≠ m → ∀ i, i < 131072 → page (withPage d m q) n i = page data n i := by
    intro n hn hne i hi
    rw [page_withPage_of_ne hne (fun j hj => ?_) hi, hsame.page hn]
    rw [hsum j (by omega) (by omega), hsame.page hm]
  have hw : ∀ b n, n < 1024 → isPagebit (withPage d m q) b n = isPagebit d b n := fun b n hn => isPagebit_withPage hn hm
  by_cases hu : L.used = []
  · simp only [hu, if_true]
    have hused := hrep.used
    rw [hu] at hused
    have hsh : ∀ b n, n < 1024 → isPagebit (shrinkBacketRecycle m (withPage d m q)) b n =
        if m = n then (if b ∈ freeBitmaps then false else if b ∈ dcBitmaps then true else isPagebit d b n)
        else isPagebit d b n := fun b n hn => by
      rw [isPagebit_shrinkBacketRecycle hm hn, hw b n hn]
    refine ⟨⟨?_, fun hne => absurd hu hne, ?_, fun b hb => ?_, fun b hb => ?_⟩,
      fun n hn hne => ⟨fun i hi => ?_, fun b => ?_⟩⟩
    · rw [page_shrinkBacketRecycle hm, page_withPage_self, Layout.rebuilt, if_pos hu]
      exact shrinkPage_rep hused
    · rw [hsh .err m hm', if_pos rfl, if_neg (by decide), if_neg (by decide), herr]
    · have hnot : b ∉ freeBitmaps := (show ∀ b ∈ dcBitmaps, b ∉ freeBitmaps by decide) b hb
      rw [hsh b m hm', if_pos rfl, if_neg hnot, if_pos hb]
      simp [hu]
    · rw [hsh b m hm', if_pos rfl, if_pos hb]
      simp [hu]
    · rw [page_shrinkBacketRecycle_of_ne hm hn hne hi, hother n hn hne i hi]
    · have hn' := (mem_userPages.mp hn).2
      rw [hsh b n hn', if_neg (Ne.symm hne), hbit b n hn' hne]
  · simp only [hu, if_false]
    refine ⟨⟨?_, fun _ i _ h1 h2 => ?_, ?_, fun b hb => ?_, fun b hb => ?_⟩,
      fun n hn hne => ⟨hother n hn hne, fun b => ?_⟩⟩
    · rw [page_withPage_self, Layout.rebuilt, if_neg hu]
      exact hrep
    · rw [page_withPage_self, hsum i h1 h2]
    · rw [hw .err m hm', herr]
    · rw [hw b m hm', hdc b hb]
      simp [hu]
    · rw [hw b m hm', hfree b hb]
      simp [hu]
    · have hn' := (mem_userPages.mp hn).2
      rw [hw b n hn', hbit b n hn' hne]

/-! ## All pages -/

/-- The sums of the category and the error bit of the page may change besides. -/
theorem RebuiltAt.trans {data'' : Bytes} (h : RebuiltAt id data data' n L) (h' : SameAt data' data'' n) :
    RebuiltAt id data data'' n L := by
  refine ⟨h.rep.of_lt h'.bytes, fun hu i hi h1 h2 => ?_, (h'.bit .err).trans h.err, fun b hb => ?_, fun b hb => ?_⟩
  · rw [h'.bytes i hi, h.kept hu i hi h1 h2]
  · rw [h'.bit b, h.dc b hb]
  · rw [h'.bit b, h.free b hb]

theorem SameAt.rebuiltAt {data'' : Bytes} (h : SameAt data data' n) (hrep : PageRep id (page data n) L)
    (h' : RebuiltAt id data' data'' n L) : RebuiltAt id data data'' n L := by
  obtain ⟨hlen, hused, -⟩ := hrep.lens_congr fun i _ hi => h.bytes i hi
  refine ⟨h'.rep, fun hu i hi h1 h2 => ?_, h'.err.trans (h.bit .err), fun b hb => ?_, fun b hb => ?_⟩
  · rw [h'.kept hu i hi h1 h2, h.bytes i hi]
  · rw [h'.dc b hb, hused]
  · rw [h'.free b hb]
    refine and_congr_right fun _ => exists_congr fun x => and_congr_right fun hx => ?_
    rw [hlen x (hrep.mem_free hx)]

theorem Rebuilt.trans {data'' : Bytes} (h : Rebuilt id data data' m L) (hm : m ∈ userPages)
    (h' : ∀ n ∈ userPages, SameAt data' data'' n) : Rebuilt id data data'' m L :=
  ⟨h.self.trans (h' m hm), fun n hn hne => (h.other n hn hne).trans (h' n hn)⟩

theorem sameAt_errOff (hm : m ∈ userPages) (hn : n ∈ userPages) (he : isPagebit data .err m = false) :
    SameAt data (pagebit data m false .err) n := by
  have hm' := (mem_userPages.mp hm).2
  have hn' := (mem_userPages.mp hn).2
  refine ⟨fun i _ => ?_, fun b => ?_⟩
  · rw [(samePages_pagebit hm').page hn]
  · rw [isPagebit_pagebit hn' hm']
    split
    · rename_i heq
      rw [← heq.1, ← heq.2, he]
    · rfl

theorem sameAt_addUseSums (hn : n ∈ userPages) : SameAt data (addUseSums data m) n :=
  (sameAt_putWord hn (by decide)).trans (sameAt_putWord hn (by decide))

theorem sameAt_addFreeSums (hn : n ∈ userPages) : SameAt data (addFreeSums data m) n :=
  (sameAt_putWord hn (by decide)).trans (sameAt_putWord hn (by decide))

theorem sameAt_clearSums (data : Bytes) (hn : n ∈ userPages) : SameAt data (clearSums data) n :=
  (((sameAt_putWord hn (by decide)).trans (sameAt_putWord hn (by decide))).trans (sameAt_putWord hn (by decide))).trans
    (sameAt_putWord hn (by decide))

theorem rebuildPage_spec (hm : m ∈ userPages) (h : PageRep id (page data m) L) (he : isPagebit data .err m = false) :
    Rebuilt id data (rebuildPage data m) m L := by
  obtain ⟨data', heq, hr⟩ := rebuild_spec h hm
  have he' : isPagebit data' .err m = false := hr.self.err.trans he
  rw [rebuildPage, heq]
  exact hr.trans hm fun n hn =>
    ((sameAt_errOff hm hn he').trans (sameAt_addUseSums hn)).trans (sameAt_addFreeSums hn)

theorem rebuildValidPage_spec (hm : m ∈ userPages) (h : PageRep id (page data m) L)
    (he : isPagebit data .err m = false) : Rebuilt id data (rebuildValidPage data m) m L := by
  obtain ⟨data', heq, hr⟩ := rebuild_spec h hm
  have he' : isPagebit data' .err m = false := hr.self.err.trans he
  rw [rebuildValidPage, heq]
  refine hr.trans hm fun n hn => (sameAt_errOff hm hn he').trans ?_
  simp only []
  split <;> split
  · exact (sameAt_addUseSums hn).trans (sameAt_addFreeSums hn)
  · exact sameAt_addUseSums hn
  · exact sameAt_addFreeSums hn
  · exact ⟨fun i _ => rfl, fun b => rfl⟩

theorem validRoots_of_rep (h : PageRep id p L) : validRoots p = true := by
  rw [validRoots, h.used.root, h.free.root, h.bucket.root]
  rfl

theorem openPage_spec (hm : m ∈ userPages) (h : PageRep id (page data m) L) (he : isPagebit data .err m = false) :
    Rebuilt id data (openPage data m) m L := by
  have hsig : signature (page data m) mmposUsedRoot = mmsigUsed := (validRoot_iff.mp h.used.root).1
  rw [openPage, if_neg (by rw [hsig]; simp), if_pos (validRoots_of_rep h)]
  exact rebuildValidPage_spec hm h he

/-- A page without items, behind its bits of the bucket only. -/
structure EmptyAt (id : Nat) (data : Bytes) (n : Nat) : Prop where
  rep : PageRep id (page data n) Layout.empty
  bit : ∀ b, isPagebit data b n = decide (b ∈ dcBitmaps)

theorem EmptyAt.of_same (h : EmptyAt id data n) (hs : SameAt data data' n) : EmptyAt id data' n :=
  ⟨h.rep.of_lt hs.bytes, fun b => (hs.bit b).trans (h.bit b)⟩

theorem openPage_fresh (id : Nat) (hm : m ∈ userPages) (hsig : signature (page data m) mmposUsedRoot ≠ mmsigUsed) :
    EmptyAt id (openPage data m) m ∧ ∀ n ∈ userPages, n ≠ m → SameAt data (openPage data m) n := by
  have hm' := (mem_userPages.mp hm).2
  rw [openPage, if_pos hsig]
  simp only []
  generalize hd1 : withPage data m (putUsedRoot (page data m)) = d1
  have h1 : page d1 m = putUsedRoot (page data m) := by rw [← hd1, page_withPage_self]
  have hother : ∀ n ∈ userPages, n ≠ m → SameAt data (shrinkBacketRecycle m d1) n := by
    intro n hn hne
    have hn' := (mem_userPages.mp hn).2
    refine ⟨fun i hi => ?_, fun b => ?_⟩
    · rw [page_shrinkBacketRecycle_of_ne hm hn hne hi, ← hd1]
      refine page_withPage_of_ne hne (fun j hj => putRoot_of_outside ?_) hi
      simp only [mmposUsedRoot]
      omega
    · rw [isPagebit_shrinkBacketRecycle hm hn', if_neg (Ne.symm hne), ← hd1, isPagebit_withPage hn' hm]
  have h2 : page (shrinkBacketRecycle m d1) m = shrinkPage (putUsedRoot (page data m)) := by
    rw [page_shrinkBacketRecycle hm, h1]
  generalize shrinkBacketRecycle m d1 = d2 at hother h2 ⊢
  have hsame : SamePages d2 (pagebits (pagebit d2 m false .err) m true dcBitmaps) :=
    (samePages_pagebit hm').trans (samePages_pagebits hm' _)
  have hbits : ∀ b n, n < 1024 → isPagebit (pagebits (pagebit d2 m false .err) m true dcBitmaps) b n =
      if b ∈ dcBitmaps ∧ m = n then true else if .err = b ∧ m = n then false else isPagebit d2 b n := fun b n hn => by
    rw [isPagebit_pagebits hn hm', isPagebit_pagebit hn hm']
  generalize pagebits (pagebit d2 m false .err) m true dcBitmaps = d3 at hsame hbits ⊢
  have hrep : PageRep id (page d3 m) Layout.empty := by
    rw [hsame.page hm, h2]
    exact shrinkPage_rep putUsedRoot_chain
  have herr : isPagebit d3 .err m = false := by
    rw [hbits .err m hm', if_neg (fun hc => absurd hc.1 (by decide)), if_pos ⟨rfl, rfl⟩]
  obtain ⟨hself, hrest⟩ := rebuildValidPage_spec hm hrep herr
  refine ⟨⟨hself.rep, fun b => ?_⟩, fun n hn hne => ?_⟩
  · rw [Bool.eq_iff_iff, decide_eq_true_iff]
    rcases b.mem_bitmaps with hb | hb | rfl
    · rw [hself.dc b hb.1]
      exact ⟨fun _ => hb.1, fun _ => .inl rfl⟩
    · rw [hself.free b hb.2]
      exact ⟨fun h => absurd rfl h.1, fun h => absurd h hb.1⟩
    · rw [hself.err, herr]
      decide
  have hn' := (mem_userPages.mp hn).2
  refine ((hother n hn hne).trans ⟨fun i _ => ?_, fun b => ?_⟩).trans (hrest n hn hne)
  · rw [hsame.page hn]
  · rw [hbits b n hn', if_neg (fun hc => hne hc.2.symm), if_neg (fun hc => hne hc.2.symm)]

/-- A loop over pages whose step changes its own page only. -/
theorem foldl_pages {step : Bytes → Nat → Bytes} {P : Bytes → Nat → Prop} {Q : Bytes → Bytes → Nat → Prop}
    (hpre : ∀ {d d' n}, P d n → SameAt d d' n → P d' n)
    (hright : ∀ {d d' d'' n}, Q d d' n → SameAt d' d'' n → Q d d'' n)
    (hleft : ∀ {d d' d'' n}, P d n → SameAt d d' n → Q d' d'' n → Q d d'' n)
    (hstep : ∀ {d m}, m ∈ userPages → P d m → Q d (step d m) m ∧ ∀ n ∈ userPages, n ≠ m → SameAt d (step d m) n)
    (l : List Nat) (hl : ∀ n ∈ l, n ∈ userPages) (hnd : l.Nodup) (h : ∀ n ∈ l, P data n) :
    (∀ n ∈ l, Q data (l.foldl step data) n) ∧ ∀ n ∈ userPages, n ∉ l → SameAt data (l.foldl step data) n := by
  induction l generalizing data with
  | nil => exact ⟨fun n hn => absurd hn List.not_mem_nil, fun n _ _ => ⟨fun i _ => rfl, fun b => rfl⟩⟩
  | cons m l ih =>
    obtain ⟨hm, hnd⟩ := List.nodup_cons.mp hnd
    have hmem := hl m List.mem_cons_self
    obtain ⟨hpost, hother⟩ := hstep hmem (h m List.mem_cons_self)
    have hne : ∀ n ∈ l, n ≠ m := fun n hn heq => hm (heq ▸ hn)
    have hpre' : ∀ n ∈ l, P (step data m) n := fun n hn =>
      hpre (h n (List.mem_cons_of_mem m hn)) (hother n (hl n (List.mem_cons_of_mem m hn)) (hne n hn))
    obtain ⟨h1, h2⟩ := ih (fun n hn => hl n (List.mem_cons_of_mem m hn)) hnd hpre'
    rw [List.foldl_cons]
    refine ⟨fun n hn => ?_, fun n hn hnot => ?_⟩
    · rcases List.mem_cons.mp hn with rfl | hn
      · exact hright hpost (h2 n hmem hm)
      · exact hleft (h n (List.mem_cons_of_mem m hn)) (hother n (hl n (List.mem_cons_of_mem m hn)) (hne n hn)) (h1 n hn)
    · have hnm : n ≠ m := fun heq => hnot (heq ▸ List.mem_cons_self)
      exact (hother n hn hnm).trans (h2 n hn fun h3 => hnot (List.mem_cons_of_mem m h3))

theorem nodup_userPages : userPages.Nodup := by
  rw [userPages]
  exact List.nodup_range'

/-- A rebuilding loop over the user pages of a well-formed category. -/
theorem foldl_rebuilt {step : Bytes → Nat → Bytes} {L : Nat → Layout}
    (hstep : ∀ {d m L}, m ∈ userPages → PageRep id (page d m) L → isPagebit d .err m = false →
      Rebuilt id d (step d m) m L)
    (h : ∀ n ∈ userPages, PageRep id (page data n) (L n) ∧ isPagebit data .err n = false) :
    ∀ n ∈ userPages, RebuiltAt id data (userPages.foldl step data) n (L n) :=
  (foldl_pages (P := fun d n => PageRep id (page d n) (L n) ∧ isPagebit d .err n = false)
    (Q := fun d d' n => RebuiltAt id d d' n (L n))
    (fun hp hs => ⟨hp.1.of_lt hs.bytes, (hs.bit .err).trans hp.2⟩) (fun hp hs => hp.trans hs)
    (fun hp hs hq => hs.rebuiltAt hp.1 hq) (fun hm hp => ⟨(hstep hm hp.1 hp.2).self, (hstep hm hp.1 hp.2).other⟩)
    userPages (fun _ hn => hn) nodup_userPages h).1

namespace Fits

variable {c : Category} {L : Nat → Layout}

theorem of_rebuiltAt (h : Fits c L) (hr : ∀ n ∈ userPages, RebuiltAt c.id.toNat c.data data n (L n)) :
    Fits { c with data := data } fun n => (L n).rebuilt :=
  ⟨fun n hn => (hr n hn).rep, fun n hn => (hr n hn).err.trans (h.err n hn)⟩

theorem data_rebuildPageStatics : (Memory.rebuildPageStatics c).data =
    userPages.foldl rebuildPage (clearSums c.data) := by
  simp only [Memory.rebuildPageStatics]

theorem data_rebuildPagesArea (k : Nat) : (Memory.rebuildPagesArea k c).data =
    userPages.foldl openPage (clearSums (((c.data.putWord 0 4 k).putWord 4 4 pageSize).putWord 8 4 c.filesize)) := by
  simp only [Memory.rebuildPagesArea]

theorem id_data (c : Category) (data : Bytes) : ({ c with data := data } : Category).id = c.id := rfl

theorem id_rebuildPagesArea (k : Nat) : (Memory.rebuildPagesArea k c).id = c.id :=
  id_data c (userPages.foldl openPage
    (clearSums (((c.data.putWord 0 4 k).putWord 4 4 pageSize).putWord 8 4 c.filesize)))

theorem id_rebuildPageStatics : (Memory.rebuildPageStatics c).id = c.id :=
  id_data c (userPages.foldl rebuildPage (clearSums c.data))

/-- `rebuild_page_statics` on a well-formed category. -/
theorem rebuildPageStatics_spec (h : Fits c L) :
    ∀ n ∈ userPages, RebuiltAt c.id.toNat c.data (rebuildPageStatics c).data n (L n) := by
  intro n hn
  have hclear := sameAt_clearSums c.data hn
  rw [data_rebuildPageStatics]
  refine hclear.rebuiltAt (h.rep n hn) (foldl_rebuilt rebuildPage_spec (fun k hk => ?_) n hn)
  have hk' := sameAt_clearSums c.data hk
  exact ⟨(h.rep k hk).of_lt hk'.bytes, (hk'.bit .err).trans (h.err k hk)⟩

theorem rebuildPageStatics (h : Fits c L) : Fits (rebuildPageStatics c) fun n => (L n).rebuilt :=
  h.of_rebuiltAt h.rebuildPageStatics_spec

theorem sameAt_header (data : Bytes) (k : Nat) (hn : n ∈ userPages) : SameAt data
    (clearSums (((data.putWord 0 4 k).putWord 4 4 pageSize).putWord 8 4 c.filesize)) n :=
  (((sameAt_putWord hn (by decide)).trans (sameAt_putWord hn (by decide))).trans
    (sameAt_putWord hn (by decide))).trans (sameAt_clearSums _ hn)

/-- `rebuild_pages_area` on a category that is well-formed already. -/
theorem rebuildPagesArea_spec (h : Fits c L) (k : Nat) :
    ∀ n ∈ userPages, RebuiltAt c.id.toNat c.data (rebuildPagesArea k c).data n (L n) := by
  intro n hn
  rw [data_rebuildPagesArea]
  refine (sameAt_header (c := c) _ k hn).rebuiltAt (h.rep n hn)
    (foldl_rebuilt openPage_spec (fun j hj => ?_) n hn)
  have hj' := sameAt_header (c := c) c.data k hj
  exact ⟨(h.rep j hj).of_lt hj'.bytes, (hj'.bit .err).trans (h.err j hj)⟩

theorem rebuildPagesArea (h : Fits c L) (k : Nat) : Fits (rebuildPagesArea k c) fun n => (L n).rebuilt :=
  h.of_rebuiltAt (h.rebuildPagesArea_spec k)

end Fits

theorem SameAt.signature (h : SameAt data data' n) :
    signature (page data' n) mmposUsedRoot = signature (page data n) mmposUsedRoot :=
  Bytes.word_congr fun i _ h2 => h.bytes i (by simp only [mmposUsedRoot] at h2; omega)

theorem foldl_fresh (id : Nat) (h : ∀ n ∈ userPages, signature (page data n) mmposUsedRoot ≠ mmsigUsed) :
    ∀ n ∈ userPages, EmptyAt id (userPages.foldl openPage data) n :=
  (foldl_pages (P := fun d n => signature (page d n) mmposUsedRoot ≠ mmsigUsed)
    (Q := fun _ d' n => EmptyAt id d' n) (fun hp hs => by rwa [hs.signature]) (fun hp hs => hp.of_same hs)
    (fun _ _ hq => hq) (fun hm hp => openPage_fresh id hm hp) userPages (fun _ hn => hn) nodup_userPages h).1

/-- A file without pages, opened. -/
theorem emptyAt_fresh {c : Category} (h : ∀ n ∈ userPages, signature (page c.data n) mmposUsedRoot ≠ mmsigUsed)
    (k : Nat) : ∀ n ∈ userPages, EmptyAt c.id.toNat (rebuildPagesArea k c).data n := by
  rw [Fits.data_rebuildPagesArea]
  refine foldl_fresh c.id.toNat fun n hn => ?_
  rw [(Fits.sameAt_header (c := c) _ _ hn).signature]
  exact h n hn

theorem fits_fresh {c : Category} (h : ∀ n ∈ userPages, signature (page c.data n) mmposUsedRoot ≠ mmsigUsed) (k : Nat) :
    Fits (rebuildPagesArea k c) fun _ => Layout.empty := by
  have hpages := emptyAt_fresh h k
  rw [← Fits.id_rebuildPagesArea k] at hpages
  exact ⟨fun n hn => (hpages n hn).rep, fun n hn => (hpages n hn).bit .err⟩

end NetworkBfd.Smmr.Memory
