import NetworkBfd.Smmr.Memory.Rebuild

/-!
# Rebuilding pages with any contents

`walk` is a loop of `_rebuild_bitmap_and_pagesummary` along one chain, with the bytes that it reads. On any page it
ends, and it does not end well if the chain leads to an item that is not valid (`rebuild_refuses`). But the length of
the next item is read before its offset is compared with the size of the page, and the foot is looked up behind that
length: the reads stay inside of the page exactly if the heads and feet of the items that the chain leads to do
(`walk_inside_iff`, `rebuild_tolerates_iff`).
-/

namespace NetworkBfd.Smmr.Memory

open Lib

variable {p data : Bytes} {sig minLen root m : Nat}

/-! ## The loop and what it reads -/

/-- The checks of an item, and the place and width of what they read. -/
def checkItem (p : Bytes) (sig minLen x foot : Nat) : Bool × List (Nat × Nat) :=
  if signature p x ≠ sig then (false, [(x, 4)])
  else if len p x < minLen then (false, [(x, 4), (x + 12, 4)])
  else (suffix p foot == mmsigSufx, [(x, 4), (x + 12, 4), (foot + 4, 4)])

/-- The loop along a chain, from the item at `x` on: the items that it counts, whether it reached `MMFLG_CLOSE`, and
what it reads. -/
def walk (p : Bytes) (sig minLen : Nat) : Nat → Nat → Nat → (List Nat × Bool) × List (Nat × Nat)
  | 0, _, _ => (([], false), [])
  | n + 1, x, foot =>
    if pageSize ≤ x then (([], false), [])
    else
      let (valid, reads) := checkItem p sig minLen x foot
      if !valid then (([], false), reads)
      else
        let next := nextOffset p x
        let reads := reads ++ [(x + 8, 4)]
        if next = mmflgClose then (([x], true), reads)
        else if n = 0 then (([x], false), reads)
        else
          let rest := walk p sig minLen n next (footOf p next)
          ((x :: rest.1.1, rest.1.2), reads ++ (next + 12, 4) :: rest.2)

/-- The loop along the chain of a root, until `check_counter` exceeds `UINT_MAX`. -/
def walkChain (p : Bytes) (sig root : Nat) : (List Nat × Bool) × List (Nat × Nat) :=
  walk p sig mmposMinOfst (uintMax + 2) root (root + mmposRootFoot)

/-- What `_rebuild_bitmap_and_pagesummary` reads of the page along the chains. -/
def rebuildReads (pageid : Nat) (data : Bytes) (onlyDc : Bool) : List (Nat × Nat) :=
  if pageid < 1 ∨ pageCnt ≤ pageid then []
  else
    let recycled := walkChain (page data pageid) mmsigFree mmposFreeRoot
    if !onlyDc && !recycled.1.2 then recycled.2
    else (if onlyDc then [] else recycled.2) ++ (walkChain (page data pageid) mmsigUsed mmposUsedRoot).2

theorem checkItem_fst (x foot : Nat) :
    (checkItem p sig minLen x foot).1 = true ↔ signature p x = sig ∧ minLen ≤ len p x ∧ suffix p foot = mmsigSufx := by
  rw [checkItem]
  split
  · rename_i h
    simp [h]
  · rename_i hsig
    rw [not_not] at hsig
    split
    · rename_i hlen
      simp only [Bool.false_eq_true, hsig, true_and, false_iff]
      omega
    · rename_i hlen
      rw [beq_iff_eq]
      exact ⟨fun h => ⟨hsig, Nat.le_of_not_lt hlen, h⟩, fun h => h.2.2⟩

/-- The loop finds the items that the other functions visit. -/
theorem walk_fst : ∀ (n x foot : Nat), (walk p sig minLen n x foot).1 =
    follow (nextOffset p) mmflgClose (fun y => validItem p sig minLen y (footOf p y)) n
    (validItem p sig minLen x foot) x
  | 0, _, _ => rfl
  | n + 1, x, foot => by
    have hvalid : validItem p sig minLen x foot = (decide (x < pageSize) && (checkItem p sig minLen x foot).1) := by
      rw [Bool.eq_iff_iff, Bool.and_eq_true, checkItem_fst, decide_eq_true_iff]
      exact validItem_iff
    rw [walk, follow, hvalid]
    by_cases hx : pageSize ≤ x
    · rw [if_pos hx, decide_eq_false (Nat.not_lt.mpr hx)]
      rfl
    · rw [if_neg hx]
      simp only [Nat.lt_of_not_le hx, decide_true, Bool.true_and]
      cases hc : (checkItem p sig minLen x foot).1 with
      | false => rfl
      | true =>
        simp only [Bool.not_true, Bool.false_eq_true, if_false, if_true]
        split
        · rfl
        · split
          · rename_i hn
            rw [hn]
            rfl
          · rw [walk_fst n]

theorem walkChain_fst : (walkChain p sig root).1 = visited p sig mmposMinOfst root := walk_fst _ _ _

/-! ## Items of a chain -/

/-- The step from an item to the next one, both with their feet. -/
def linkStep (p : Bytes) (s : Nat × Nat) : Nat × Nat := (nextOffset p s.1, footOf p (nextOffset p s.1))

/-- The item is valid, and not the last. -/
def Linking (p : Bytes) (sig : Nat) (s : Nat × Nat) : Prop :=
  validItem p sig mmposMinOfst s.1 s.2 = true ∧ nextOffset p s.1 ≠ mmflgClose

/-- The items, with their feet, that the chain of a root leads to. -/
def ChainLeads (p : Bytes) (sig root : Nat) : Nat × Nat → Prop :=
  Leads (Linking p sig) (linkStep p) (root, root + mmposRootFoot)

/-- The head is inside of the page, and so is the foot, if the head is right. -/
def Inside (p : Bytes) (sig : Nat) (s : Nat × Nat) : Prop :=
  s.1 + sizeofMemitemHead ≤ pageSize ∧ (signature p s.1 = sig → mmposMinOfst ≤ len p s.1 → s.2 + 8 ≤ pageSize)

/-- The chain leads through valid items to `MMFLG_CLOSE`. -/
def Closes (p : Bytes) (sig root : Nat) : Prop :=
  ∃ s, ChainLeads p sig root s ∧ validItem p sig mmposMinOfst s.1 s.2 = true ∧ nextOffset p s.1 = mmflgClose

/-- The chain leads to an item that is not valid. -/
def Broken (p : Bytes) (sig root : Nat) : Prop :=
  ∃ s, ChainLeads p sig root s ∧ validItem p sig mmposMinOfst s.1 s.2 = false

theorem validItem_of_checkItem {x foot : Nat} (hx : x < pageSize) :
    validItem p sig minLen x foot = (checkItem p sig minLen x foot).1 := by
  rw [Bool.eq_iff_iff, checkItem_fst, validItem_iff]
  exact and_iff_right hx

/-- What the checks read of an item is inside of the page if the item is. -/
theorem checkItem_inside {s : Nat × Nat} (hx : s.1 + sizeofMemitemHead ≤ pageSize) :
    (∀ r ∈ (checkItem p sig mmposMinOfst s.1 s.2).2, r.1 + r.2 ≤ pageSize) ↔ Inside p sig s := by
  simp only [sizeofMemitemHead, pageSize] at hx
  rw [checkItem, Inside]
  split
  · rename_i hsig
    simp only [List.mem_singleton, forall_eq, hsig, false_implies, and_true, sizeofMemitemHead, pageSize]
    omega
  · rename_i hsig
    rw [not_not] at hsig
    split
    · rename_i hlen
      simp only [List.mem_cons, List.not_mem_nil, or_false, forall_eq_or_imp, forall_eq, hsig, true_implies,
        sizeofMemitemHead,
        pageSize]
      omega
    · rename_i hlen
      simp only [List.mem_cons, List.not_mem_nil, or_false, forall_eq_or_imp, forall_eq, hsig, true_implies,
        sizeofMemitemHead,
        pageSize]
      omega

/-- The loop reads inside of the page exactly if the items are there that it comes to. -/
theorem walk_inside : ∀ (n : Nat) {s : Nat × Nat}, s.1 + sizeofMemitemHead ≤ pageSize →
    ((∀ r ∈ (walk p sig mmposMinOfst n s.1 s.2).2, r.1 + r.2 ≤ pageSize) ↔
      ∀ k < n, (∀ i < k, Linking p sig ((linkStep p)^[i] s)) → Inside p sig ((linkStep p)^[k] s))
  | 0, _, _ => ⟨fun _ k hk => absurd hk (Nat.not_lt_zero k), fun _ r hr => absurd hr List.not_mem_nil⟩
  | n + 1, s, hx => by
    have hlt : s.1 < pageSize := by
      simp only [sizeofMemitemHead, pageSize] at hx ⊢
      omega
    rw [forall_iterate_succ, walk, if_neg (Nat.not_le.mpr hlt), ← checkItem_inside hx]
    have hvalid := @validItem_of_checkItem p sig mmposMinOfst _ s.2 hlt
    have hlink : (s.1 + 8) + 4 ≤ pageSize := by
      simp only [sizeofMemitemHead] at hx
      omega
    generalize checkItem p sig mmposMinOfst s.1 s.2 = checked at hvalid ⊢
    obtain ⟨valid, reads⟩ := checked
    dsimp only at hvalid ⊢
    cases valid with
    | false =>
      have hnot : ¬ Linking p sig s := fun h => Bool.false_ne_true (hvalid.symm.trans h.1)
      simp only [hnot, false_implies, and_true, Bool.not_false, if_true]
    | true =>
      simp only [Bool.not_true, Bool.false_eq_true, if_false]
      by_cases hclose : nextOffset p s.1 = mmflgClose
      · have hnot : ¬ Linking p sig s := fun h => h.2 hclose
        simp only [if_pos hclose, hnot, false_implies, and_true, List.forall_mem_append, List.mem_singleton, forall_eq,
          hlink]
      · have hlinking : Linking p sig s := ⟨hvalid, hclose⟩
        simp only [if_neg hclose, hlinking, true_implies]
        by_cases hn : n = 0
        · subst hn
          simp only [if_true, List.forall_mem_append, List.mem_singleton, forall_eq, hlink, and_true, Nat.not_lt_zero,
            false_implies, implies_true]
        · simp only [if_neg hn, List.forall_mem_append, List.forall_mem_cons, List.not_mem_nil, false_implies,
            implies_true, hlink, and_true]
          refine and_congr_right fun _ => ?_
          by_cases hnext : (linkStep p s).1 + sizeofMemitemHead ≤ pageSize
          · have ih := walk_inside n hnext
            rw [← ih]
            exact and_iff_right hnext
          · refine iff_of_false (fun h => hnext h.1) fun h => hnext ?_
            exact (h 0 (Nat.pos_of_ne_zero hn) fun i hi => absurd hi (Nat.not_lt_zero i)).1

/-- The item is valid, and the last. -/
def Last (p : Bytes) (sig : Nat) (s : Nat × Nat) : Prop :=
  validItem p sig mmposMinOfst s.1 s.2 = true ∧ nextOffset p s.1 = mmflgClose

/-- The loop does not end well unless it comes to the last item. -/
theorem walk_open : ∀ (n : Nat) (s : Nat × Nat), (walk p sig mmposMinOfst n s.1 s.2).1.2 = false ↔
    ∀ k < n, (∀ i < k, Linking p sig ((linkStep p)^[i] s)) → ¬ Last p sig ((linkStep p)^[k] s)
  | 0, _ => ⟨fun _ k hk => absurd hk (Nat.not_lt_zero k), fun _ => rfl⟩
  | n + 1, s => by
    have ih := walk_open n (linkStep p s)
    rw [walk_fst] at ih ⊢
    rw [forall_iterate_succ (P := fun s => ¬ Last p sig s), follow, ← ih]
    cases hvalid : validItem p sig mmposMinOfst s.1 s.2 with
    | false =>
      have hlast : ¬ Last p sig s := fun h => Bool.false_ne_true (hvalid.symm.trans h.1)
      have hlinking : ¬ Linking p sig s := fun h => Bool.false_ne_true (hvalid.symm.trans h.1)
      simp only [Bool.false_eq_true, if_false, hlast, hlinking, not_false_eq_true, false_implies, and_true]
    | true =>
      rw [if_pos rfl]
      by_cases hclose : nextOffset p s.1 = mmflgClose
      · rw [if_pos hclose]
        exact iff_of_false (fun h => Bool.false_ne_true h.symm) fun h => h.1 ⟨hvalid, hclose⟩
      · rw [if_neg hclose]
        exact ⟨fun h => ⟨fun hlast => hclose hlast.2, fun _ => h⟩, fun h => h.2 ⟨hvalid, hclose⟩⟩

/-- The loop comes to every item that the chain leads to. -/
theorem chainLeads_iff {s : Nat × Nat} : ChainLeads p sig root s ↔ ∃ k < uintMax + 2,
    s = (linkStep p)^[k] (root, root + mmposRootFoot) ∧
      ∀ i < k, Linking p sig ((linkStep p)^[i] (root, root + mmposRootFoot)) := by
  refine ⟨fun h => ?_, fun ⟨k, _, hk⟩ => leads_iff.mpr ⟨k, hk⟩⟩
  have hfew : ∀ s, ChainLeads p sig root s → Linking p sig s →
      s ∈ insert (root, root + mmposRootFoot) ((Finset.range pageSize).image fun x => (x, footOf p x)) := by
    intro s hs hlink
    obtain ⟨k, rfl, -⟩ := leads_iff.mp hs
    cases k with
    | zero => exact Finset.mem_insert_self _ _
    | succ k =>
      rw [Function.iterate_succ_apply'] at hlink ⊢
      refine Finset.mem_insert_of_mem (Finset.mem_image.mpr ⟨_, Finset.mem_range.mpr ?_, rfl⟩)
      exact (validItem_iff.mp hlink.1).1
  obtain ⟨k, hk, hs⟩ := (leads_iff_le hfew).mp h
  refine ⟨k, lt_of_le_of_lt hk ?_, hs⟩
  have h1 := Finset.card_insert_le (root, root + mmposRootFoot) ((Finset.range pageSize).image fun x => (x, footOf p x))
  have h2 := Finset.card_image_le (s := Finset.range pageSize) (f := fun x => (x, footOf p x))
  rw [Finset.card_range] at h2
  simp only [pageSize, uintMax] at h1 h2 ⊢
  omega

/-- The reads along a chain. -/
theorem walkChain_inside (hroot : root + mmposRootSize ≤ pageSize) :
    (∀ r ∈ (walkChain p sig root).2, r.1 + r.2 ≤ pageSize) ↔ ∀ s, ChainLeads p sig root s → Inside p sig s := by
  have hhead : (root, root + mmposRootFoot).1 + sizeofMemitemHead ≤ pageSize := by
    simp only [mmposRootSize, sizeofMemitemHead, pageSize] at hroot ⊢
    omega
  rw [walkChain, walk_inside _ hhead]
  constructor
  · intro h s hs
    obtain ⟨k, hk, rfl, hlink⟩ := chainLeads_iff.mp hs
    exact h k hk hlink
  · exact fun h k hk hlink => h _ (chainLeads_iff.mpr ⟨k, hk, rfl, hlink⟩)

theorem walkChain_closes : (walkChain p sig root).1.2 = true ↔ Closes p sig root := by
  rw [← Bool.not_eq_false, walkChain, walk_open (uintMax + 2) (root, root + mmposRootFoot)]
  constructor
  · intro h
    by_contra hopen
    exact h fun k hk hlink hlast => hopen ⟨_, chainLeads_iff.mpr ⟨k, hk, rfl, hlink⟩, hlast⟩
  · rintro ⟨s, hs, hlast⟩ h
    obtain ⟨k, hk, rfl, hlink⟩ := chainLeads_iff.mp hs
    exact h k hk hlink hlast

/-- A chain that leads to an item that is not valid does not close. -/
theorem Broken.not_closes (h : Broken p sig root) : ¬ Closes p sig root := by
  rintro ⟨s, hs, hlast⟩
  obtain ⟨s', hs', hinvalid⟩ := h
  obtain ⟨k, rfl, hlink⟩ := leads_iff.mp hs
  obtain ⟨j, rfl, hlink'⟩ := leads_iff.mp hs'
  rcases Nat.lt_trichotomy j k with hlt | rfl | hlt
  · exact Bool.false_ne_true (hinvalid.symm.trans (hlink j hlt).1)
  · exact Bool.false_ne_true (hinvalid.symm.trans hlast.1)
  · exact (hlink' k hlt).2 hlast.2

/-! ## The rebuild of a page -/

/-- The rebuild of page `m` reads inside of the page, and refuses it if a chain leads to an item that is not valid. -/
structure Tolerates (data : Bytes) (m : Nat) (onlyDc : Bool) : Prop where
  inside : ∀ r ∈ rebuildReads m data onlyDc, r.1 + r.2 ≤ pageSize
  refuses : onlyDc = false ∧ Broken (page data m) mmsigFree mmposFreeRoot ∨
    Broken (page data m) mmsigUsed mmposUsedRoot →
    (rebuildBitmapAndPagesummary m data onlyDc).2 = .ng

theorem closes_iff_visited : Closes p sig root ↔ (visited p sig mmposMinOfst root).2 = true := by
  rw [← walkChain_closes, walkChain_fst]

/-- A chain that does not close makes the rebuild fail. -/
theorem rebuild_ng (hm : m ∈ userPages) {onlyDc : Bool}
    (h : onlyDc = false ∧ ¬ Closes (page data m) mmsigFree mmposFreeRoot ∨
      ¬ Closes (page data m) mmsigUsed mmposUsedRoot) :
    (rebuildBitmapAndPagesummary m data onlyDc).2 = .ng := by
  have hm' := mem_userPages.mp hm
  have hdc : SamePages data (pagebits data m false dcBitmaps) := samePages_pagebits hm'.2 _
  have hall : SamePages data (pagebits (pagebits data m false dcBitmaps) m false freeBitmaps) :=
    hdc.trans (samePages_pagebits hm'.2 _)
  rw [closes_iff_visited, closes_iff_visited, Bool.not_eq_true, Bool.not_eq_true] at h
  rw [rebuildBitmapAndPagesummary, if_neg (by simp only [pageCnt]; omega)]
  cases onlyDc with
  | true =>
    have hused : (visited (page data m) mmsigUsed mmposMinOfst mmposUsedRoot).2 = false :=
      h.elim (fun h => absurd h.1 Bool.noConfusion) id
    simp only [if_true, hdc.page hm, hused, Bool.not_true, Bool.false_and, Bool.false_eq_true, if_false, Bool.not_false]
  | false =>
    simp only [Bool.false_eq_true, if_false, hall.page hm, Bool.not_false, Bool.true_and]
    split
    · rfl
    · rename_i hfree
      have hused : (visited (page data m) mmsigUsed mmposMinOfst mmposUsedRoot).2 = false :=
        h.elim (fun h => absurd (by rw [h.2]; rfl) hfree) id
      simp only [hused, Bool.not_false, if_true]

/-- The used chain is walked only after the free chain has closed. -/
theorem rebuildReads_inside (hm : m ∈ userPages) (onlyDc : Bool) :
    (∀ r ∈ rebuildReads m data onlyDc, r.1 + r.2 ≤ pageSize) ↔
      (onlyDc = false → ∀ s, ChainLeads (page data m) mmsigFree mmposFreeRoot s → Inside (page data m) mmsigFree s) ∧
        ((onlyDc = false → Closes (page data m) mmsigFree mmposFreeRoot) →
          ∀ s, ChainLeads (page data m) mmsigUsed mmposUsedRoot s → Inside (page data m) mmsigUsed s) := by
  have hm' := mem_userPages.mp hm
  rw [rebuildReads, if_neg (by simp only [pageCnt]; omega), ← walkChain_closes, ← walkChain_inside (by decide),
    ← walkChain_inside (by decide)]
  generalize walkChain (page data m) mmsigFree mmposFreeRoot = recycled
  generalize (walkChain (page data m) mmsigUsed mmposUsedRoot).2 = reads
  cases onlyDc with
  | true =>
    simp only [Bool.not_true, Bool.false_and, Bool.false_eq_true, if_false, if_true, List.nil_append, reduceCtorEq,
      false_implies, true_and, true_implies]
  | false =>
    simp only [Bool.not_false, Bool.true_and, Bool.false_eq_true, if_false, true_implies]
    cases recycled.1.2 with
    | false => simp only [Bool.not_false, if_true, Bool.false_eq_true, false_implies, and_true]
    | true => simp only [Bool.not_true, Bool.false_eq_true, if_false, List.forall_mem_append, true_implies]

/-- On any page: the rebuild tolerates it exactly if the items that the chains lead to are inside of the page. -/
theorem rebuild_tolerates_iff (hm : m ∈ userPages) (onlyDc : Bool) : Tolerates data m onlyDc ↔
    (onlyDc = false → ∀ s, ChainLeads (page data m) mmsigFree mmposFreeRoot s → Inside (page data m) mmsigFree s) ∧
      ((onlyDc = false → Closes (page data m) mmsigFree mmposFreeRoot) →
        ∀ s, ChainLeads (page data m) mmsigUsed mmposUsedRoot s → Inside (page data m) mmsigUsed s) := by
  rw [← rebuildReads_inside hm]
  refine ⟨Tolerates.inside, fun h => ⟨h, fun hbroken => rebuild_ng hm ?_⟩⟩
  exact hbroken.imp (fun h => ⟨h.1, h.2.not_closes⟩) Broken.not_closes

/-- A page of zeros. -/
theorem rebuild_tolerates_iff_zeros : Tolerates (fun _ => 0) 1 false := by
  have hsig : ∀ x, signature (page (fun _ => 0) 1) x = 0 := fun x => by
    rw [signature, Bytes.word]
    rfl
  have hroot : ∀ {sig root : Nat} {s : Nat × Nat}, sig ≠ 0 → root + 16 ≤ 131072 →
      ChainLeads (page (fun _ => 0) 1) sig root s → Inside (page (fun _ => 0) 1) sig s := by
    intro sig root s hne hle hs
    obtain ⟨k, rfl, hlink⟩ := leads_iff.mp hs
    cases k with
    | zero => exact ⟨hle, fun h => absurd ((hsig root).symm.trans h).symm hne⟩
    | succ k => exact absurd ((validItem_iff.mp (hlink 0 (Nat.succ_pos k)).1).2.1.symm.trans (hsig root)) hne
  exact (rebuild_tolerates_iff (mem_userPages.mpr (by decide)) false).mpr
    ⟨fun _ s => hroot (by decide) (by decide), fun _ s => hroot (by decide) (by decide)⟩

/-- A page without items, where the link of the free root leads to the last bytes of the page. -/
def strayPage : Bytes := setNextOffset (shrinkPage (putUsedRoot fun _ => 0)) mmposFreeRoot 131068

/-- The length of an item is read behind the page. -/
theorem rebuild_reads_behind : ¬ Tolerates (withPage (fun _ => 0) 1 strayPage) 1 false := by
  intro h
  have hinside := ((rebuildReads_inside (mem_userPages.mpr (by decide)) false).mp h.inside).1 rfl
  rw [page_withPage_self] at hinside
  have hlink : Linking strayPage mmsigFree (mmposFreeRoot, mmposFreeRoot + mmposRootFoot) := by
    constructor <;> decide +kernel
  have hstray : (linkStep strayPage (mmposFreeRoot, mmposFreeRoot + mmposRootFoot)).1 = 131068 := by decide +kernel
  have hlast := (hinside _ (Relation.ReflTransGen.single ⟨hlink, rfl⟩)).1
  rw [hstray] at hlast
  exact absurd hlast (by decide)

end NetworkBfd.Smmr.Memory
