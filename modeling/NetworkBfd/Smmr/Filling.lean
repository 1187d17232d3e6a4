import NetworkBfd.Smmr.Space

/-!
# Files from which nothing is freed

As long as no item expires, the pages of a file are taken from the first one on, and `remain_length` counts the others
(`FillsTo`). First fit is then the next page, a file that has enough left has it in a row (`freepageRound_filling`),
and the search for free pages never leaves room for `insert_to_datafile` (`insertItem_filling`).
-/

namespace NetworkBfd.Smmr

open Lib Lib.Bytes

/-- The pages `1 .. u` of a file are taken. -/
structure FillsTo (f : Bytes) (u : Nat) : Prop where
  le : u < ipcDatafilePagecnt
  taken : ∀ q, taken f q = decide (1 ≤ q ∧ q ≤ u)
  remain : remainLength f = ipcDatafileAligned * (ipcDatafilePagecnt - u)

/-- Every mapped file is filled from its first page on. -/
def Filling (files : Datafiles) : Prop := ∀ k f, files k = some f → ∃ u, FillsTo f u

variable {b : Build} {files : Datafiles} {f : Bytes} {u : Nat} {it : Item}

theorem fillsTo_initDatafile : FillsTo initDatafile 0 := by
  have hbits : ∀ i, 128 ≤ i → initDatafile i = 0 := by
    intro i hi
    unfold initDatafile setRemainLength setUsedLength
    rw [putWord_of_outside (.inr (by omega)), putWord_of_outside (.inr (by omega)),
      putWord_of_outside (.inr (by omega)),
      putWord_of_outside (.inr (by omega)), putWord_of_outside (.inr (by omega)), putWord_of_outside (.inr (by omega))]
  refine ⟨by decide, fun q => ?_, ?_⟩
  · rw [decide_eq_false (by omega), Smmr.taken, pageBit, bit, hbits _ (by omega)]
    simp
  · rw [initDatafile]
    exact remainLength_setRemainLength _ _

namespace FillsTo

theorem room (h : FillsTo f u) (hs : it.Short) : it.aligned < remainLength f ↔ u + it.pages < ipcDatafilePagecnt := by
  have ha := hs.aligned_eq.1
  have hu := h.le
  rw [h.remain, ha]
  simp only [ipcDatafileAligned, ipcDatafilePagecnt, ipcDatafileTtlsize, sizeofDbTableHeader] at hu ⊢
  omega

theorem freeRun (h : FillsTo f u) (n : Nat) : FreeRun (Smmr.taken f) (u + 1) n := by
  intro q h1 _
  rw [h.taken, decide_eq_false (by omega)]

/-- The first run of free pages begins behind the taken ones. -/
theorem firstRun (h : FillsTo f u) (hs : it.Short) (hroom : it.aligned < remainLength f) {r : Option Nat}
    (hr : IsFirstRun (Smmr.taken f) it.pages (ipcDatafilePagecnt - 1) r) : r = some (u + 1) := by
  have hlt := (h.room hs).mp hroom
  apply hr.unique
  apply isFirstRun_of_taken hs.aligned_eq.2.2.2 (Nat.le_add_left 1 u) (by omega) (h.freeRun it.pages)
  intro q h1 h2
  rw [h.taken, decide_eq_true (by omega)]

/-- An item on the first free pages. -/
theorem placed (h : FillsTo f u) (hs : it.Short) {f' : Bytes} {p : Nat} (hp : Placed f f' p it) :
    p = u + 1 ∧ FillsTo f' (u + it.pages) := by
  have hroom := (h.room hs).mp hp.room
  have ha := hs.aligned_eq.1
  obtain rfl := Option.some.inj (h.firstRun hs hp.room hp.first)
  refine ⟨rfl, hroom, fun q => ?_, ?_⟩
  · rw [hp.taken, h.taken]
    split
    · exact (decide_eq_true (by omega)).symm
    · exact decide_eq_decide.mpr (by omega)
  · rw [hp.remain, h.remain, ha]
    simp only [ipcDatafileAligned]
    omega

theorem unique (h : FillsTo f u) {v : Nat} (h' : FillsTo f v) : u = v := by
  have heq := h.remain.symm.trans h'.remain
  have hu := h.le
  have hv := h'.le
  simp only [ipcDatafileAligned, ipcDatafilePagecnt, ipcDatafileTtlsize, sizeofDbTableHeader] at heq hu hv
  omega

/-- A file with the same header. -/
theorem congr (h : FillsTo f u) {f' : Bytes} (ht : Smmr.taken f' = Smmr.taken f)
    (hr : remainLength f' = remainLength f) :
    FillsTo f' u := ⟨h.le, by rw [ht]; exact h.taken, by rw [hr]; exact h.remain⟩

end FillsTo

/-- A file takes the item on its next pages, or it has not enough left and stays as it is. -/
theorem freepageRound_filling (k : Nat) (h : FillsTo f u) (hs : it.Short) :
    (∃ f' writes, freepageRound k f it = (some ⟨k, pageOffset (u + 1), writes⟩, f') ∧ Placed f f' (u + 1) it ∧
      FillsTo f' (u + it.pages)) ∨
    (remainLength f ≤ it.aligned ∧ freepageRound k f it = (none, f)) := by
  rcases freepageRound_spec k f hs with ⟨p, f', writes, hrun, hplaced, -⟩ | ⟨f', hrun, ⟨rfl, hle⟩ | ⟨-, hnone⟩⟩
  · obtain ⟨rfl, hfills⟩ := h.placed hs hplaced
    exact .inl ⟨f', writes, hrun, hplaced, hfills⟩
  · exact .inr ⟨hle, hrun⟩
  · by_cases hroom : it.aligned < remainLength f
    · exact absurd (h.firstRun hs hroom hnone) (fun hn => by cases hn)
    · have hle := Nat.le_of_not_lt hroom
      refine .inr ⟨hle, ?_⟩
      rw [freepageRound, if_pos hle]

/-- Nothing is done to a file that does not take an item, whatever the item. -/
theorem freepageRound_unplaced {k : Nat} (h : FillsTo f u) (hnone : (freepageRound k f it).1 = none) :
    freepageRound k f it = (none, f) := by
  unfold freepageRound at hnone ⊢
  by_cases hroom : remainLength f ≤ it.aligned
  · rw [if_pos hroom]
  rw [if_neg hroom] at hnone ⊢
  cases hrun : findFree f (it.aligned / ipcDatafileAligned) (ipcDatafilePagecnt - 1) 0 0 with
  | some off =>
    rw [hrun] at hnone
    cases hnone
  | none =>
    dsimp only
    by_cases hone : it.aligned / ipcDatafileAligned = 1
    · -- the page behind the taken ones would do
      rw [hone, findFree_eq, firstRun_taken _ _ _ _ _ (by decide), Option.map_eq_none_iff] at hrun
      have hfirst := @firstRun_spec (taken f) 1 (by decide) (ipcDatafilePagecnt - 1)
      rw [hrun] at hfirst
      rw [h.remain] at hroom
      simp only [ipcDatafileAligned] at hone hroom
      exact absurd (h.freeRun 1) (hfirst (u + 1) (by omega) (by omega))
    · rw [if_neg hone]

namespace Filling

theorem fresh (h : ∀ k, files k = none ∨ files k = some initDatafile) : Filling files := by
  intro k f hf
  rcases h k with hk | hk
  · rw [hk] at hf
    cases hf
  · obtain rfl := Option.some.inj (hk.symm.trans hf)
    exact ⟨0, fillsTo_initDatafile⟩

/-- Where nothing was freed, space is not fragmented. -/
theorem not_fragmented (h : Filling files) (hs : it.Short) : ¬ Fragmented b files it := by
  rintro ⟨-, ⟨k, f, hk, hf, hroom⟩, hall⟩
  obtain ⟨u, hu⟩ := h k f hf
  have hlt := (hu.room hs).mp hroom
  exact hall k f hk hf hroom (u + 1) (by omega) (by omega) (hu.freeRun it.pages)

theorem firstFit (h : Filling files) (hs : it.Short) {k page : Nat} (hfit : FirstFit b files it k page) :
    ∃ f u, files k = some f ∧ FillsTo f u ∧ page = u + 1 := by
  obtain ⟨-, -, f, -, hf, hroom, hfirst, -⟩ := hfit
  obtain ⟨u, hu⟩ := h k f hf
  exact ⟨f, u, hf, hu, Option.some.inj (hu.firstRun hs hroom hfirst)⟩

/-- The only file that is mapped. -/
theorem only (honly : ∀ k, k ≠ 0 → files k = none) (hf : files 0 = some f) (hu : FillsTo f u) : Filling files := by
  intro k g hg
  by_cases hk : k = 0
  · subst hk
    obtain rfl := Option.some.inj (hf.symm.trans hg)
    exact ⟨u, hu⟩
  · rw [honly k hk] at hg
    cases hg

theorem firstFit_only (honly : ∀ k, k ≠ 0 → files k = none) (hf : files 0 = some f) (hu : FillsTo f u) (hs : it.Short)
    {k page : Nat} (hfit : FirstFit b files it k page) : k = 0 ∧ page = u + 1 := by
  obtain ⟨g, v, hg, hv, rfl⟩ := firstFit (only honly hf hu) hs hfit
  have hk : k = 0 := by
    by_contra hk
    rw [honly k hk] at hg
    cases hg
  subst hk
  obtain rfl := Option.some.inj (hf.symm.trans hg)
  exact ⟨rfl, by rw [hu.unique hv]⟩

/-- The first file with enough left takes the item on its next pages; if there is none, nothing changes. -/
theorem insertItem_filling (h : Filling files) (hs : it.Short) :
    (∃ k f u f' writes, k < ipcDatafileMax b ∧ files k = some f ∧ FillsTo f u ∧
      insertItem b it files = (some ⟨k, pageOffset (u + 1), writes⟩, Function.update files k (some f')) ∧
      Placed f f' (u + 1) it ∧ FillsTo f' (u + it.pages)) ∨
    (insertItem b it files = (none, files) ∧
      ∀ k f, k < ipcDatafileMax b → files k = some f → remainLength f ≤ it.aligned) := by
  obtain ⟨r, files', hrun, hout, hcase⟩ := @tryFiles_spec freepageRound it (distid b it) files (nodup_distid b it)
  have hpassed : ∀ j a, PassedOver freepageRound it j (files j) a → a = files j := by
    rintro j a (hsame | ⟨f, hf, hnone, rfl⟩)
    · exact hsame
    · obtain ⟨u, hu⟩ := h j f hf
      rcases freepageRound_filling j hu hs with ⟨f', writes, hrun, -⟩ | ⟨-, hrun⟩
      · rw [hrun] at hnone
        cases hnone
      · rw [hrun, hf]
  rcases hcase with ⟨k, f, p, f', hk, hf, hround, rfl, hf', hothers⟩ | ⟨rfl, hall⟩
  · obtain ⟨u, hu⟩ := h k f hf
    rcases freepageRound_filling k hu hs with ⟨g, writes, hrun', hplaced, hfills⟩ | ⟨-, hrun'⟩
    · obtain ⟨hp, rfl⟩ := Prod.mk.inj (hround.symm.trans hrun')
      obtain rfl := Option.some.inj hp
      refine .inl ⟨k, f, u, f', writes, mem_distid.mp hk, hf, hu, ?_, hplaced, hfills⟩
      have hfiles : files' = Function.update files k (some f') := by
        funext j
        by_cases hj : j = k
        · subst hj
          rw [hf', Function.update_self]
        · rw [Function.update_of_ne hj, hpassed j _ (hothers j hj)]
      rw [insertItem, insertToDatafileAtFreepage, hrun, hfiles]
    · rw [hrun'] at hround
      cases hround
  · have hle : ∀ k f, k < ipcDatafileMax b → files k = some f → remainLength f ≤ it.aligned := by
      intro k f hk hf
      obtain ⟨u, hu⟩ := h k f hf
      rcases freepageRound_filling k hu hs with ⟨g, writes, hrun', -⟩ | ⟨hle, -⟩
      · have hnone := (hall k (mem_distid.mpr hk)).2 f hf
        rw [hrun'] at hnone
        cases hnone
      · exact hle
    have hfiles : files' = files := by
      funext j
      by_cases hj : j ∈ distid b it
      · obtain ⟨hj', hnone⟩ := hall j hj
        cases hf : files j with
        | none => rw [hj', hf, Option.map_none]
        | some f =>
          refine (hpassed j _ ?_).trans hf
          exact .inr ⟨f, hf, hnone f hf, by rw [hj', hf, Option.map_some]⟩
      · exact hout j hj
    rw [hfiles] at hrun
    refine .inr ⟨?_, hle⟩
    rw [insertItem, insertToDatafileAtFreepage, hrun]
    exact insertToDatafile_refused hle

theorem insertItem (h : Filling files) (hs : it.Short) : Filling (insertItem b it files).2 := by
  rcases @insertItem_filling b files it h hs with ⟨k, f, u, f', writes, -, hf, -, hrun, -, hfills⟩ | ⟨hrun, -⟩
  · rw [hrun]
    intro j g hg
    dsimp only at hg
    by_cases hj : j = k
    · subst hj
      rw [Function.update_self] at hg
      obtain rfl := Option.some.inj hg
      exact ⟨_, hfills⟩
    · rw [Function.update_of_ne hj] at hg
      exact h j g hg
  · rw [hrun]
    exact h

end Filling

end NetworkBfd.Smmr
