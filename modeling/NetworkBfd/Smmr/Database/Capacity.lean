import Mathlib.Data.List.Induction
import NetworkBfd.Lib.Bins
import NetworkBfd.Smmr.Database.LastWrite

/-!
# How many stores a database takes

As long as no item expires the data files are bins, and all that a store does to them is first fit on counters: where
its item goes and what it returns depends on nothing else (`run_bins`). No store gives a page back, also not one of a
key that is there already: the pages that are marked are those of all stores that succeeded (`run_pages`).
-/

namespace NetworkBfd.Smmr

open Lib Lib.Bytes CategoryTree

/-! ## Files as bins -/

/-- The mapped files are filled up to the counters. -/
def FillsBins (files : Datafiles) (bins : Bins ℕ) : Prop :=
  ∀ k, files k = none ∧ bins k = none ∨ ∃ f u, files k = some f ∧ bins k = some u ∧ FillsTo f u

/-- An empty bin for each mapped file. -/
def emptyBins (files : Datafiles) : Bins ℕ := fun k => (files k).map fun _ => 0

/-- The pages that are marked in the files. -/
def markedPages (b : Build) (files : Datafiles) : ℕ :=
  ∑ k ∈ Finset.range (ipcDatafileMax b),
    ((Finset.range ipcDatafilePagecnt).filter fun q => pageUsed files k q = true).card

variable {b : Build} {files files' : Datafiles} {bins : Bins ℕ} {f : Bytes} {k u : ℕ} {it : Item}

namespace FillsBins

theorem filling (h : FillsBins files bins) : Filling files := by
  intro k f hf
  rcases h k with ⟨hnone, -⟩ | ⟨g, u, hg, -, hu⟩
  · rw [hf] at hnone
    cases hnone
  · obtain rfl := Option.some.inj (hf.symm.trans hg)
    exact ⟨u, hu⟩

theorem counter (h : FillsBins files bins) (hf : files k = some f) (hu : FillsTo f u) : bins k = some u := by
  rcases h k with ⟨hnone, -⟩ | ⟨g, v, hg, hv, hfills⟩
  · rw [hf] at hnone
    cases hnone
  · obtain rfl := Option.some.inj (hf.symm.trans hg)
    rw [hv, hu.unique hfills]

theorem empty (h : ∀ k, files k = none ∨ files k = some initDatafile) : FillsBins files (emptyBins files) := by
  intro k
  rcases h k with hk | hk
  · exact .inl ⟨hk, by rw [emptyBins, hk, Option.map_none]⟩
  · exact .inr ⟨initDatafile, 0, hk, by rw [emptyBins, hk, Option.map_some], fillsTo_initDatafile⟩

theorem headers (h : FillsBins files bins) (hsame : SameHeaders files files') : FillsBins files' bins := by
  intro k
  rcases h k with ⟨hnone, hbin⟩ | ⟨f, u, hf, hbin, hu⟩
  · have hmapped := hsame.2 k
    rw [hnone, Option.isSome_none] at hmapped
    exact .inl ⟨Option.not_isSome_iff_eq_none.mp (by rw [hmapped]; decide), hbin⟩
  · obtain ⟨f', hf', ht, hr, -⟩ := hsame.1 k f hf
    exact .inr ⟨f', u, hf', hbin, hu.congr ht hr⟩

/-- A bin takes an item exactly if the file claims to have more left. -/
theorem fits_iff (h : FillsBins files bins) (hs : it.Short) :
    Bins.Fits ipcDatafilePagecnt it.pages bins k ↔ ∃ f, files k = some f ∧ it.aligned < remainLength f := by
  constructor
  · rintro ⟨u, hu, hlt⟩
    rcases h k with ⟨-, hbin⟩ | ⟨f, v, hf, hv, hfills⟩
    · rw [hu] at hbin
      cases hbin
    · obtain rfl := Option.some.inj (hu.symm.trans hv)
      exact ⟨f, hf, (hfills.room hs).mpr hlt⟩
  · rintro ⟨f, hf, hroom⟩
    obtain ⟨u, hu⟩ := h.filling k f hf
    exact ⟨u, h.counter hf hu, (hu.room hs).mp hroom⟩

/-- First fit on the files is first fit on the counters. -/
theorem place_of_firstFit (h : FillsBins files bins) (hs : it.Short) {page : ℕ} (hfit : FirstFit b files it k page) :
    Bins.place ipcDatafilePagecnt (distid b it) it.pages bins = some k := by
  obtain ⟨before, after, f, hns, hf, hroom, -, hbefore⟩ := hfit
  rw [hns]
  refine Bins.place_of_split ((h.fits_iff hs).mpr ⟨f, hf, hroom⟩) fun j hj hn => ?_
  obtain ⟨g, hg, hroom'⟩ := (h.fits_iff hs).mp hn
  obtain ⟨v, hv⟩ := h.filling j g hg
  have hnone := hv.firstRun hs hroom' (hbefore j hj g hg hroom')
  cases hnone

/-- An insertion does to the files what it does to the counters. -/
theorem insertItem (h : FillsBins files bins) (hs : it.Short) :
    FillsBins (insertItem b it files).2 (Bins.put ipcDatafilePagecnt (distid b it) it.pages bins) ∧
      (insertItem b it files).1.isSome = (Bins.place ipcDatafilePagecnt (distid b it) it.pages bins).isSome := by
  rcases @Filling.insertItem_filling b files it h.filling hs with
    ⟨k, f, u, f', writes, hk, hf, hu, hrun, hplaced, hfills⟩ | ⟨hrun, hle⟩
  · have hplace : Bins.place ipcDatafilePagecnt (distid b it) it.pages bins = some k := by
      rcases @insertItem_spec b files it hs (h.filling.not_fragmented hs) with
        ⟨k', page, writes', files', hrun', -, hfit, -⟩ | ⟨files', hrun', -⟩
      · have hfield := congrArg (fun r => r.1.map Placement.field) (hrun.symm.trans hrun')
        obtain rfl := Option.some.inj hfield
        exact h.place_of_firstFit hs hfit
      · rw [hrun] at hrun'
        cases hrun'
    rw [hrun, hplace, Bins.put_of_place hplace (h.counter hf hu)]
    refine ⟨fun j => ?_, rfl⟩
    dsimp only
    by_cases hj : j = k
    · subst hj
      rw [Function.update_self, Function.update_self]
      exact .inr ⟨f', _, rfl, rfl, hfills⟩
    · rw [Function.update_of_ne hj, Function.update_of_ne hj]
      exact h j
  · have hplace : Bins.place ipcDatafilePagecnt (distid b it) it.pages bins = none := by
      refine Bins.place_eq_none.mpr fun k hk hn => ?_
      obtain ⟨f, hf, hroom⟩ := (h.fits_iff hs).mp hn
      exact absurd hroom (Nat.not_lt.mpr (hle k f (mem_distid.mp hk) hf))
    rw [hrun, hplace, Bins.put_of_none hplace]
    exact ⟨h, rfl⟩

/-- The pages that are marked are those up to the counters. -/
theorem pageUsed_iff (h : FillsBins files bins) (k q : ℕ) :
    pageUsed files k q = true ↔ ∃ u, bins k = some u ∧ 1 ≤ q ∧ q ≤ u := by
  rcases h k with ⟨hf, hbin⟩ | ⟨f, u, hf, hbin, hu⟩
  · simp [pageUsed, hf, hbin]
  · simp [pageUsed, hf, hbin, hu.taken]

theorem markedPages_eq (h : FillsBins files bins) (b : Build) :
    markedPages b files = Bins.total (Finset.range (ipcDatafileMax b)) bins := by
  refine Finset.sum_congr rfl fun k _ => ?_
  rcases h k with ⟨hf, hbin⟩ | ⟨f, u, hf, hbin, hu⟩
  · rw [hbin, Option.getD_none, Finset.card_eq_zero, Finset.filter_eq_empty_iff]
    intro q _
    rw [h.pageUsed_iff, hbin]
    rintro ⟨u, hu, -⟩
    cases hu
  · have hpages : ((Finset.range ipcDatafilePagecnt).filter fun q => pageUsed files k q = true) = Finset.Icc 1 u := by
      ext q
      rw [Finset.mem_filter, Finset.mem_range, h.pageUsed_iff, hbin, Finset.mem_Icc]
      have hle := hu.le
      constructor
      · rintro ⟨-, v, hv, h1, h2⟩
        obtain rfl := Option.some.inj hv
        exact ⟨h1, h2⟩
      · rintro ⟨h1, h2⟩
        exact ⟨Nat.lt_of_le_of_lt h2 hle, u, rfl, h1, h2⟩
    rw [hpages, hbin, Option.getD_some, Nat.card_Icc, Nat.add_sub_cancel]

end FillsBins

/-! ## Stores -/

/-- What a store asks of the files; one whose arguments are refused asks none of them. -/
def Item.request (b : Build) (it : Item) : List ℕ × ℕ :=
  (if it.key = [] ∨ it.val = [] then [] else distid b it, it.pages)

namespace Database

/-- The counters after stores. -/
def binsAfter (b : Build) (db : Database) (stores : List StoreCall) : Bins ℕ :=
  Bins.putAll ipcDatafilePagecnt (emptyBins db.files) (stores.map fun s => s.it.request b)

/-- The counters have room for the item. -/
def HasRoom (b : Build) (bins : Bins ℕ) (it : Item) : Prop :=
  ∃ k < ipcDatafileMax b, Bins.Fits ipcDatafilePagecnt it.pages bins k

variable {db db' db₀ : Database} {S : Finset NodeKey} {items : NodeKey → Item} {curtime : BitVec 32} {ret : Ret}
  {stores : List StoreCall}

theorem binsAfter_snoc (s : StoreCall) : binsAfter b db (stores ++ [s]) =
    Bins.put ipcDatafilePagecnt (s.it.request b).1 (s.it.request b).2 (binsAfter b db stores) := by
  rw [binsAfter, List.map_append]
  exact Bins.putAll_snoc _ _

theorem hasRoom_iff : HasRoom b bins it ↔
    (Bins.place ipcDatafilePagecnt (distid b it) it.pages bins).isSome = true := by
  rw [Option.isSome_iff_ne_none, Ne, Bins.place_eq_none, not_forall]
  simp only [not_forall, not_not, exists_prop, mem_distid, HasRoom]

/-- A store does to the files what it does to the counters, and succeeds if they have room and its key has a hash. -/
theorem Stored.store_bins (h : Stored b db S items) (hb : FillsBins db.files bins) (hkey : it.key ≠ [])
    (hval : it.val ≠ []) (hp : Placeable b it db.files) (hrun : db.store b curtime it = .ok (ret, db')) :
    FillsBins db'.files (Bins.put ipcDatafilePagecnt (distid b it) it.pages bins) ∧
      (ret = .ok ↔ safeHash it.key ≠ 0 ∧ HasRoom b bins it) := by
  obtain ⟨db₁, heq, -, hheaders, hinv, -⟩ := @store_eq _ _ _ _ curtime _ h.inv hkey hval (h.insertable hp)
  rw [heq] at hrun
  obtain ⟨hfills, hroom⟩ := (hb.headers hheaders).insertItem (b := b) hp.1
  have hfiles : db'.files = (insertItem b it db₁.files).2 := insertEntry_files hrun
  rw [hfiles, hasRoom_iff, ← hroom]
  refine ⟨hfills, ?_⟩
  have hspec := insertEntry_spec hinv hkey hval ((h.insertable hp).headers hheaders)
  rw [hrun] at hspec
  rcases hspec with ⟨rfl, hh, e, k, page, -, -, hinserted, -⟩ | ⟨rfl, -, -, ⟨hh, -⟩ | ⟨hnone, -⟩⟩
  · refine iff_of_true rfl ⟨hh, ?_⟩
    by_contra hn
    rw [Bool.not_eq_true, Option.isSome_eq_false_iff, Option.isNone_iff_eq_none] at hn
    -- an item that finds no room is not inserted
    rcases hins : insertItem b it db₁.files with ⟨_ | p, files⟩
    · rw [insertEntry, hins] at hrun
      cases hrun
    · rw [hins] at hn
      cases hn
  · exact iff_of_false (fun hn => by cases hn) fun hn => hn.1 hh
  · rw [hnone]
    exact iff_of_false (fun hn => by cases hn) fun hn => by cases hn.2

/-- The arguments are refused, or the item can be placed. -/
def Askable (b : Build) (it : Item) (files : Datafiles) : Prop :=
  (it.key = [] ∨ it.val = []) ∨ Placeable b it files

/-- The files after stores are filled as the counters are, and each store returned what the counters said. -/
theorem Stores.fillsBins (h : Stores b db₀ stores db) (hfresh : db₀.Fresh) (hblocks : db₀.inst.BlocksOnly) :
    (∀ s ∈ stores, s.it.expire = 0) → BeforeEach b db₀ stores (fun s db₁ => Askable b s.it db₁.files) →
    (∃ S items, Stored b db S items) ∧ FillsBins db.files (binsAfter b db₀ stores) ∧
      ∀ before s after, stores = before ++ s :: after →
        (s.ret = .ok ↔ (s.it.key ≠ [] ∧ s.it.val ≠ []) ∧ safeHash s.it.key ≠ 0 ∧
          HasRoom b (binsAfter b db₀ before) s.it) := by
  induction h with
  | nil =>
    intro _ _
    refine ⟨⟨∅, fun _ => ⟨[], [], 0, by decide, by decide⟩, hfresh.stored hblocks _⟩, FillsBins.empty hfresh.files,
      fun before s after heq => ?_⟩
    exact absurd heq (by simp)
  | @snoc db₁ db₂ stores s hstores hrun ih =>
    intro hlast hask
    obtain ⟨⟨S, items, hstored⟩, hfills, hanswers⟩ := ih (fun s hs => hlast s (List.mem_append_left _ hs)) hask.init
    have hlast' := hlast s (List.mem_append_right _ (List.mem_singleton_self s))
    have hstep : (∃ S items, Stored b db₂ S items) ∧ FillsBins db₂.files (binsAfter b db₀ (stores ++ [s])) ∧
        (s.ret = .ok ↔ (s.it.key ≠ [] ∧ s.it.val ≠ []) ∧ safeHash s.it.key ≠ 0 ∧
          HasRoom b (binsAfter b db₀ stores) s.it) := by
      rw [binsAfter_snoc]
      by_cases hargs : s.it.key = [] ∨ s.it.val = []
      · rw [Database.store, if_pos hargs] at hrun
        obtain ⟨hret, rfl⟩ := Prod.mk.inj (Except.ok.inj hrun)
        rw [Item.request, if_pos hargs, ← hret]
        exact ⟨⟨S, items, hstored⟩, hfills, iff_of_false (fun hn => by cases hn) fun hn => not_or.mpr hn.1 hargs⟩
      · have hp := (hask.last hstores).resolve_left hargs
        rw [Item.request, if_neg hargs]
        obtain ⟨hkey, hval⟩ := not_or.mp hargs
        obtain ⟨hfills', hret⟩ := hstored.store_bins hfills hkey hval hp hrun
        have hspec := @Stored.store _ _ _ _ s.curtime _ hstored hkey hval hp hlast'
        rw [hrun] at hspec
        refine ⟨?_, hfills', hret.trans (and_iff_right ⟨hkey, hval⟩).symm⟩
        rcases hspec with ⟨-, -, e, -, hstored'⟩ | ⟨-, hstored'⟩
        · exact ⟨_, _, hstored'⟩
        · exact ⟨_, _, hstored'⟩
    refine ⟨hstep.1, hstep.2.1, fun before s' after heq => ?_⟩
    rcases List.eq_nil_or_concat after with rfl | ⟨after', s'', rfl⟩
    · obtain ⟨rfl, hs⟩ := List.append_inj' heq rfl
      obtain rfl := List.singleton_inj.mp hs
      exact hstep.2.2
    · rw [List.concat_eq_append, ← List.cons_append, ← List.append_assoc] at heq
      exact hanswers before s' after' (List.append_inj' heq rfl).1

/-- The pages of the items that were stored. -/
def storedPages (stores : List StoreCall) : ℕ := ((stores.filter fun s => s.ret = .ok).map fun s => s.it.pages).sum

/-- How many files are mapped. -/
def mappedFiles (b : Build) (files : Datafiles) : ℕ :=
  ((Finset.range (ipcDatafileMax b)).filter fun k => (files k).isSome).card

theorem storedPages_snoc (s : StoreCall) :
    storedPages (stores ++ [s]) = storedPages stores + if s.ret = .ok then s.it.pages else 0 := by
  rw [storedPages, List.filter_append, List.map_append, List.sum_append, ← storedPages]
  by_cases hok : s.ret = .ok <;> simp [hok]

theorem total_emptyBins (s : Finset ℕ) (files : Datafiles) : Bins.total s (emptyBins files) = 0 := by
  refine Finset.sum_eq_zero fun k _ => ?_
  rw [emptyBins]
  cases files k <;> rfl

/-- The counters add up to the pages of the stores that they had room for. -/
theorem total_binsAfter (hhash : ∀ s ∈ stores, safeHash s.it.key ≠ 0)
    (hanswers : ∀ before s after, stores = before ++ s :: after →
      (s.ret = .ok ↔ (s.it.key ≠ [] ∧ s.it.val ≠ []) ∧ safeHash s.it.key ≠ 0 ∧
        HasRoom b (binsAfter b db₀ before) s.it)) :
    Bins.total (Finset.range (ipcDatafileMax b)) (binsAfter b db₀ stores) = storedPages stores := by
  induction stores using List.reverseRecOn with
  | nil => exact total_emptyBins _ _
  | append_singleton stores s ih =>
    have hprefix := ih (fun s hs => hhash s (List.mem_append_left _ hs)) fun before s' after heq =>
      hanswers before s' (after ++ [s]) (by rw [heq, List.append_assoc, List.cons_append])
    have hret := hanswers stores s [] rfl
    have hs := hhash s (List.mem_append_right _ (List.mem_singleton_self s))
    have horder : ∀ k ∈ (s.it.request b).1, k ∈ Finset.range (ipcDatafileMax b) := by
      intro k hk
      rw [Item.request] at hk
      dsimp only at hk
      split at hk
      · cases hk
      · exact Finset.mem_range.mpr (mem_distid.mp hk)
    rw [binsAfter_snoc, Bins.total_put horder, hprefix, storedPages_snoc]
    congr 1
    cases hplace : Bins.place ipcDatafilePagecnt (s.it.request b).1 (s.it.request b).2 (binsAfter b db₀ stores) with
    | none =>
      rw [Bins.taken_of_none hplace, if_neg fun hok => ?_]
      obtain ⟨hargs, -, hroom⟩ := hret.mp hok
      rw [hasRoom_iff] at hroom
      rw [Item.request, if_neg (not_or.mpr hargs)] at hplace
      rw [hplace] at hroom
      cases hroom
    | some k =>
      rw [Bins.taken_of_place hplace, if_pos]
      · rfl
      · by_cases hargs : s.it.key = [] ∨ s.it.val = []
        · rw [Item.request, if_pos hargs] at hplace
          cases hplace
        · rw [Item.request, if_neg hargs] at hplace
          exact hret.mpr ⟨not_or.mp hargs, hs, hasRoom_iff.mpr (by rw [hplace]; rfl)⟩

/-- Every store that succeeds takes its pages for good, so no more are stored than the mapped files have. -/
theorem run_pages (b : Build) {db₀ db : Database} {stores : List StoreCall} (hfresh : db₀.Fresh)
    (hblocks : db₀.inst.BlocksOnly) (hrun : Stores b db₀ stores db)
    (hlast : ∀ s ∈ stores, s.it.expire = 0 ∧ safeHash s.it.key ≠ 0)
    (hask : BeforeEach b db₀ stores fun s db₁ => Askable b s.it db₁.files) :
    markedPages b db.files = storedPages stores ∧
      storedPages stores ≤ mappedFiles b db₀.files * (ipcDatafilePagecnt - 1) := by
  obtain ⟨-, hfills, hanswers⟩ := hrun.fillsBins hfresh hblocks (fun s hs => (hlast s hs).1) hask
  have htotal := total_binsAfter (fun s hs => (hlast s hs).2) hanswers
  have hlt : ∀ k ∈ Finset.range (ipcDatafileMax b), ∀ u,
      binsAfter b db₀ stores k = some u → u < ipcDatafilePagecnt := by
    intro k _ u hu
    rcases hfills k with ⟨-, hbin⟩ | ⟨f, v, -, hbin, hv⟩
    · rw [hu] at hbin
      cases hbin
    · obtain rfl := Option.some.inj (hu.symm.trans hbin)
      exact hv.le
  have hmapped : ∀ k, (binsAfter b db₀ stores k).isSome = (db₀.files k).isSome := fun k => by
    rw [binsAfter, Bins.putAll_isSome, emptyBins, Option.isSome_map]
  have hle := Bins.total_le hlt
  simp only [hmapped] at hle
  rw [htotal] at hle
  exact ⟨(hfills.markedPages_eq b).trans htotal, hle⟩

/-! ## A key that is stored twice -/

/-- A key with one page and with two. -/
def twice : List StoreCall := [] ++ [⟨0, tiny 1 2, .ok⟩] ++ [⟨0, long, .ok⟩]

theorem stores_twice_askable : ∃ db, Stores .test single twice db ∧
    BeforeEach .test single twice fun s db₁ => Askable .test s.it db₁.files := by
  obtain ⟨inst, inst', f, f', e, e', db₁, db₂, -, -, -, -, hrun, hrun', hplace, -⟩ := stores_twice
  refine ⟨db₂, (Stores.nil.snoc hrun).snoc hrun', (BeforeEach.nil.snoc fun db h => ?_).snoc fun db h => ?_⟩
  · obtain rfl := h.nil_eq
    exact .inr ⟨tiny_short 1 2, (single_insertable (tiny_short 1 2)).2.2⟩
  · obtain rfl := (Stores.nil.snoc hrun).unique h
    exact .inr hplace

theorem twice_lasting : ∀ s ∈ twice, s.it.expire = 0 ∧ safeHash s.it.key ≠ 0 := by
  intro s hs
  rcases mem_two hs with rfl | rfl
  · exact ⟨rfl, by decide⟩
  · exact ⟨rfl, by decide⟩

/-- Both take their pages. -/
theorem run_pages_twice : ∃ db, Stores .test single twice db ∧ markedPages .test db.files = 3 := by
  obtain ⟨db, hrun, hask⟩ := stores_twice_askable
  have hpages := (run_pages .test single_fresh single_blocks hrun twice_lasting hask).1
  have hsum : storedPages twice = storedPages [] + (tiny 1 2).pages + long.pages := by
    rw [twice, storedPages_snoc, storedPages_snoc, if_pos rfl, if_pos rfl]
  rw [tiny_pages, long_pages] at hsum
  exact ⟨db, hrun, hpages.trans hsum⟩

end Database

end NetworkBfd.Smmr
