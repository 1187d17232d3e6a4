import Mathlib.Tactic.Common

/-!
# Pages, runs and owners

A page map says which pages are taken. `firstRun` is the search for the first run of free pages (`firstRun_spec`), and
`Owned` says that things own disjoint runs of taken pages; a thing put on a free run owns it (`Owned.place`), and the
others keep theirs when one gives its own back (`Owned.free`).
-/

namespace NetworkBfd.Lib

/-- The pages `p .. p + n - 1` are free. -/
def FreeRun (used : Nat → Bool) (p n : Nat) : Prop := ∀ q, p ≤ q → q < p + n → used q = false

/-! ## First fit -/

/-- The start of the first run of `n` free pages, looking at page `m + 1` next; the last `run` pages were free. -/
def firstRun (used : Nat → Bool) (n : Nat) : Nat → Nat → Nat → Option Nat
  | 0, _, _ => none
  | steps + 1, m, run =>
    if used (m + 1) then firstRun used n steps (m + 1) 0
    else if n ≤ run + 1 then some (m + 2 - n)
    else firstRun used n steps (m + 1) (run + 1)

/-- What the search finds among the pages `1 .. last`. -/
def IsFirstRun (used : Nat → Bool) (n last : Nat) : Option Nat → Prop
  | none => ∀ q, 1 ≤ q → q + n ≤ last + 1 → ¬ FreeRun used q n
  | some p => 1 ≤ p ∧ p + n ≤ last + 1 ∧ FreeRun used p n ∧ ∀ q, 1 ≤ q → q < p → ¬ FreeRun used q n

variable {used : Nat → Bool} {n : Nat}

/-- The loop: the free pages up to `m` are too few, and no run ended before. -/
theorem firstRun_loop (hn : 0 < n) : ∀ steps m run : Nat, run < n → run ≤ m → FreeRun used (m + 1 - run) run →
    (run = m ∨ used (m - run) = true) → (∀ q, 1 ≤ q → q + n ≤ m + 1 → ¬ FreeRun used q n) →
    IsFirstRun used n (m + steps) (firstRun used n steps m run)
  | 0, _, _, _, _, _, _, hnone => hnone
  | steps + 1, m, run, hlt, hle, hfree, hedge, hnone => by
    have hsteps : m + (steps + 1) = m + 1 + steps := by omega
    rw [firstRun, hsteps]
    by_cases hused : used (m + 1) = true
    · rw [if_pos hused]
      refine firstRun_loop hn steps (m + 1) 0 hn (by omega) (fun q h1 h2 => by omega) (.inr hused) fun q h1 h2 hq => ?_
      rcases Nat.lt_or_ge (q + n) (m + 2) with hlt' | hge
      · exact hnone q h1 (by omega) hq
      · exact absurd (hq (m + 1) (by omega) (by omega)) (by rw [hused]; decide)
    · rw [if_neg hused]
      have hfree' : FreeRun used (m + 1 + 1 - (run + 1)) (run + 1) := by
        intro q h1 h2
        rcases Nat.lt_or_ge q (m + 1) with hq | hq
        · exact hfree q (by omega) (by omega)
        · obtain rfl : q = m + 1 := by omega
          simpa using hused
      -- a run that ends at `m + 1` and is longer would contain the page at the edge
      have hearlier : ∀ q, 1 ≤ q → q < m + 1 - run → q + n ≤ m + 2 → ¬ FreeRun used q n := by
        intro q h1 h2 h3 hq
        rcases Nat.lt_or_ge (q + n) (m + 2) with hlt' | hge
        · exact hnone q h1 (by omega) hq
        · rcases hedge with hedge | hedge
          · omega
          · exact absurd (hq (m - run) (by omega) (by omega)) (by rw [hedge]; decide)
      by_cases hfull : n ≤ run + 1
      · rw [if_pos hfull]
        obtain rfl : n = run + 1 := by omega
        refine ⟨by omega, by omega, ?_, fun q h1 h2 => hearlier q h1 (by omega) (by omega)⟩
        exact hfree'
      · rw [if_neg hfull]
        refine firstRun_loop hn steps (m + 1) (run + 1) (by omega) (by omega) hfree' ?_ fun q h1 h2 hq => ?_
        · rcases hedge with hedge | hedge
          · exact .inl (by omega)
          · refine .inr ?_
            rwa [show m + 1 - (run + 1) = m - run by omega]
        · exact hearlier q h1 (by omega) (by omega) hq

theorem firstRun_spec (hn : 0 < n) (steps : Nat) : IsFirstRun used n steps (firstRun used n steps 0 0) := by
  have h := @firstRun_loop used n hn steps 0 0 hn (Nat.le_refl _) (fun q h1 h2 => by omega) (.inl rfl)
    (fun q h1 h2 => by omega)
  rwa [Nat.zero_add] at h

theorem IsFirstRun.unique {last p : Nat} {r : Option Nat} (hr : IsFirstRun used n last r)
    (hp : IsFirstRun used n last (some p)) : r = some p := by
  obtain ⟨hp1, hp2, hp3, hp4⟩ := hp
  cases r with
  | none => exact absurd hp3 (hr p hp1 hp2)
  | some q =>
    obtain ⟨hq1, -, hq3, hq4⟩ := hr
    rcases Nat.lt_trichotomy q p with hlt | rfl | hgt
    · exact absurd hq3 (hp4 q hq1 hlt)
    · rfl
    · exact absurd hp3 (hq4 p hp1 hgt)

/-- A free run behind taken pages only. -/
theorem isFirstRun_of_taken {last p : Nat} (hn : 0 < n) (hp : 1 ≤ p) (hend : p + n ≤ last + 1)
    (hfree : FreeRun used p n) (hbelow : ∀ q, 1 ≤ q → q < p → used q = true) : IsFirstRun used n last (some p) := by
  refine ⟨hp, hend, hfree, fun q h1 h2 hq => ?_⟩
  have h3 := hq q (Nat.le_refl _) (by omega)
  rw [hbelow q h1 h2] at h3
  cases h3

/-- Taking a free run and freeing another one changes nothing exactly if the second covers the first and was free. -/
theorem restored_iff {p p' n' : Nat} (hn : 0 < n) (hfree : FreeRun used p n) :
    (∀ q, (if p' ≤ q ∧ q < p' + n' then false else if p ≤ q ∧ q < p + n then true else used q) = used q) ↔
      p' ≤ p ∧ p + n ≤ p' + n' ∧ FreeRun used p' n' := by
  constructor
  · intro h
    have hcover : ∀ q, p ≤ q → q < p + n → p' ≤ q ∧ q < p' + n' := by
      intro q h1 h2
      by_contra hn
      have hq := h q
      rw [if_neg hn, if_pos ⟨h1, h2⟩, hfree q h1 h2] at hq
      cases hq
    have hfirst := hcover p (Nat.le_refl _) (by omega)
    have hlast := hcover (p + n - 1) (by omega) (by omega)
    refine ⟨hfirst.1, by omega, fun q h1 h2 => ?_⟩
    have hq := h q
    rw [if_pos ⟨h1, h2⟩] at hq
    exact hq.symm
  · rintro ⟨h1, h2, hfree'⟩ q
    split
    · rename_i hq
      exact (hfree' q hq.1 hq.2).symm
    · rw [if_neg (by omega)]

/-! ## Owners -/

/-- A run of pages in a file. -/
structure PageRun where
  field : Nat
  page : Nat
  count : Nat

/-- Two runs have no page in common. -/
def PageRun.Apart (a b : PageRun) : Prop :=
  a.field = b.field → a.page + a.count ≤ b.page ∨ b.page + b.count ≤ a.page

theorem PageRun.Apart.symm {a b : PageRun} (h : a.Apart b) : b.Apart a := fun he => (h he.symm).symm

/-- The `live` things own runs of taken pages, no two the same page. -/
structure Owned {ι : Type} (used : Nat → Nat → Bool) (live : ι → Prop) (run : ι → PageRun) : Prop where
  taken : ∀ i, live i → ∀ q, (run i).page ≤ q → q < (run i).page + (run i).count → used (run i).field q = true
  apart : ∀ i j, live i → live j → i ≠ j → (run i).Apart (run j)

section Owned

variable {ι : Type} {used used' : Nat → Nat → Bool} {live live' : ι → Prop} {run run' : ι → PageRun}

/-- Fewer things on more taken pages. -/
theorem Owned.mono (h : Owned used live run) (hlive : ∀ i, live' i → live i) (hrun : ∀ i, live' i → run' i = run i)
    (hused : ∀ k q, used k q = true → used' k q = true) : Owned used' live' run' where
  taken i hi q h1 h2 := by
    rw [hrun i hi] at h1 h2 ⊢
    exact hused _ _ (h.taken i (hlive i hi) q h1 h2)
  apart i j hi hj hne := by
    rw [hrun i hi, hrun j hj]
    exact h.apart i j (hlive i hi) (hlive j hj) hne

/-- Things that keep only the first pages of their runs. -/
theorem Owned.shrink (h : Owned used live run)
    (hrun : ∀ i, live i → (run' i).field = (run i).field ∧ (run' i).page = (run i).page ∧
      (run' i).count ≤ (run i).count) : Owned used live run' where
  taken i hi q h1 h2 := by
    obtain ⟨hfield, hpage, hcount⟩ := hrun i hi
    rw [hfield]
    exact h.taken i hi q (by omega) (by omega)
  apart i j hi hj hne hfield := by
    obtain ⟨hfi, hpi, hci⟩ := hrun i hi
    obtain ⟨hfj, hpj, hcj⟩ := hrun j hj
    have := h.apart i j hi hj hne (by rw [← hfi, ← hfj, hfield])
    omega

/-- A free run has no page that is owned. -/
theorem Owned.apart_of_free (h : Owned used live run) {r : PageRun} (hfree : FreeRun (used r.field) r.page r.count)
    (hpos : 0 < r.count) {i : ι} (hi : live i) (hcount : 0 < (run i).count) : r.Apart (run i) := by
  intro hfield
  by_contra hn
  -- the runs meet at the later one of their first pages
  have h1 := h.taken i hi (max r.page (run i).page) (Nat.le_max_right _ _) (by omega)
  rw [← hfield, hfree _ (Nat.le_max_left _ _) (by omega)] at h1
  cases h1

/-- A new thing on a free run. -/
theorem Owned.place (h : Owned used live run) {i₀ : ι} (hnew : ¬ live i₀) (hlive : ∀ i, live' i → i = i₀ ∨ live i)
    (hrun : ∀ i, live i → run' i = run i) (hpos : 0 < (run' i₀).count) (hcount : ∀ i, live i → 0 < (run i).count)
    (hfree : FreeRun (used (run' i₀).field) (run' i₀).page (run' i₀).count)
    (hused : ∀ k q, used' k q = if k = (run' i₀).field ∧ (run' i₀).page ≤ q ∧ q < (run' i₀).page + (run' i₀).count
      then true else used k q) : Owned used' live' run' where
  taken i hi q h1 h2 := by
    rcases hlive i hi with rfl | hi
    · rw [hused, if_pos ⟨rfl, h1, h2⟩]
    · rw [hrun i hi] at h1 h2 ⊢
      rw [hused]
      split
      · rfl
      · exact h.taken i hi q h1 h2
  apart i j hi hj hne := by
    rcases hlive i hi with rfl | hi <;> rcases hlive j hj with rfl | hj
    · exact absurd rfl hne
    · rw [hrun j hj]
      exact h.apart_of_free hfree hpos hj (hcount j hj)
    · rw [hrun i hi]
      exact (h.apart_of_free hfree hpos hi (hcount i hi)).symm
    · rw [hrun i hi, hrun j hj]
      exact h.apart i j hi hj hne

/-- One thing gives its run back. -/
theorem Owned.free (h : Owned used live run) {i₀ : ι} (hi₀ : live i₀) (hlive : ∀ i, live' i → i ≠ i₀ ∧ live i)
    (hrun : ∀ i, live' i → run' i = run i)
    (hused : ∀ k q, used' k q = if k = (run i₀).field ∧ (run i₀).page ≤ q ∧ q < (run i₀).page + (run i₀).count
      then false else used k q) : Owned used' live' run' where
  taken i hi q h1 h2 := by
    obtain ⟨hne, hi'⟩ := hlive i hi
    rw [hrun i hi] at h1 h2 ⊢
    rw [hused, if_neg]
    · exact h.taken i hi' q h1 h2
    · rintro ⟨hfield, h3, h4⟩
      have := h.apart i i₀ hi' hi₀ hne hfield
      omega
  apart i j hi hj hne := by
    rw [hrun i hi, hrun j hj]
    exact h.apart i j (hlive i hi).2 (hlive j hj).2 hne

end Owned

end NetworkBfd.Lib
