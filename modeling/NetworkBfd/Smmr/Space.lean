import NetworkBfd.Smmr.Rounds

/-!
# The space of all data files

`insertToDatafileAtFreepage_spec` and `changeFreeToDatafile_spec`: what an insertion at free pages and the freeing of
an item do to the pages that are taken in each file (`pageUsed`) and to the items (`ItemIn`).
-/

namespace NetworkBfd.Smmr

open Lib Lib.Bytes

/-- The pages that the bitmaps of the mapped files mark. -/
def pageUsed (files : Datafiles) (k q : Nat) : Bool :=
  match files k with
  | some f => taken f q
  | none => false

/-- File `k` holds `it` from `page` on. -/
def ItemIn (files : Datafiles) (k page : Nat) (it : Item) : Prop :=
  ∃ f, files k = some f ∧ HoldsItem f (pageOffset page) it

/-- The pages that an item at `page` of file `k` fills. -/
def Item.run (it : Item) (k page : Nat) : PageRun := ⟨k, page, it.pages⟩

/-- The item `it` went to `page` of file `k`, and nothing else was touched behind the headers. -/
structure Inserted (b : Build) (files files' : Datafiles) (it : Item) (k page : Nat) : Prop where
  field : k < ipcDatafileMax b
  page_pos : 1 ≤ page
  page_le : page + it.pages ≤ ipcDatafilePagecnt
  free : FreeRun (pageUsed files k) page it.pages
  used : ∀ j q, pageUsed files' j q = if j = k ∧ page ≤ q ∧ q < page + it.pages then true else pageUsed files j q
  holds : ItemIn files' k page it
  others : ∀ j f, files j = some f → ∃ f', files' j = some f' ∧ ∀ i, sizeofDbTableHeader ≤ i →
    (j = k → i < pageOffset page ∨ pageOffset page + it.bytes.length ≤ i) → f' i = f i
  mapped : ∀ j, (files' j).isSome = (files j).isSome

/-- No item was touched, and no page. -/
structure Untouched (files files' : Datafiles) : Prop where
  used : pageUsed files' = pageUsed files
  others : ∀ j f, files j = some f → ∃ f', files' j = some f' ∧ ∀ i, sizeofDbTableHeader ≤ i → f' i = f i
  mapped : ∀ j, (files' j).isSome = (files j).isSome

/-- The pages of the item `it` at `page` of file `k` were given back. -/
structure Released (files files' : Datafiles) (it : Item) (k page : Nat) : Prop where
  used : ∀ j q, pageUsed files' j q = if j = k ∧ page ≤ q ∧ q < page + it.pages then false else pageUsed files j q
  others : ∀ j f, files j = some f → ∃ f', files' j = some f' ∧ ∀ i, sizeofDbTableHeader ≤ i → f' i = f i
  mapped : ∀ j, (files' j).isSome = (files j).isSome

/-- Some file claims to have more left than the item needs, and none that does has so many free pages in a row; an item
of one page takes such a file's claim away and is refused instead. -/
def Fragmented (b : Build) (files : Datafiles) (it : Item) : Prop :=
  it.pages ≠ 1 ∧ (∃ k f, k < ipcDatafileMax b ∧ files k = some f ∧ it.aligned < remainLength f) ∧
    ∀ k f, k < ipcDatafileMax b → files k = some f → it.aligned < remainLength f →
      ∀ q, 1 ≤ q → q + it.pages ≤ ipcDatafilePagecnt → ¬ FreeRun (taken f) q it.pages

/-- Page `page` of file `k` is where first fit puts the item: no file before has a run of free pages and claims room. -/
def FirstFit (b : Build) (files : Datafiles) (it : Item) (k page : Nat) : Prop :=
  ∃ before after f, distid b it = before ++ k :: after ∧ files k = some f ∧ it.aligned < remainLength f ∧
    IsFirstRun (taken f) it.pages (ipcDatafilePagecnt - 1) (some page) ∧
    ∀ j ∈ before, ∀ g, files j = some g → it.aligned < remainLength g →
      IsFirstRun (taken g) it.pages (ipcDatafilePagecnt - 1) none

section

variable {b : Build} {files files' : Datafiles} {it it' : Item} {k page : Nat}

/-- The bytes of an item lie on its pages. -/
theorem Item.Short.bytes_le (h : it.Short) : pageOffset page + it.bytes.length ≤ pageOffset (page + it.pages) := by
  obtain ⟨ha, hle, -, -⟩ := h.aligned_eq
  have hl := h.length_eq
  rw [it.length_bytes]
  simp only [pageOffset, sizeofDbTableHeader, ipcDatafileAligned, sizeofDataitm] at *
  omega

/-- An item on other pages is still there. -/
theorem Inserted.keeps (h : Inserted b files files' it k page) (hs : it.Short) (hs' : it'.Short) {j page' : Nat}
    (hold : ItemIn files j page' it') (hapart : (it.run k page).Apart (it'.run j page')) :
    ItemIn files' j page' it' := by
  obtain ⟨f, hf, hit⟩ := hold
  obtain ⟨f', hf', hsame⟩ := h.others j f hf
  refine ⟨f', hf', hit.congr fun i h1 h2 => hsame i ?_ fun hj => ?_⟩
  · exact Nat.le_trans (Nat.le_add_right _ _) h1
  · have hb := @Item.Short.bytes_le it page hs
    have hb' := @Item.Short.bytes_le it' page' hs'
    have hor := hapart hj.symm
    simp only [Item.run, pageOffset, sizeofDbTableHeader, ipcDatafileAligned] at *
    omega

/-- A file that takes an item on its first free pages. -/
theorem Placed.inserted {f f' : Bytes} (h : Placed f f' page it) (hk : k < ipcDatafileMax b) (hf : files k = some f) :
    Inserted b files (Function.update files k (some f')) it k page := by
  obtain ⟨hpos, hend, hfree, -⟩ := id h.first
  refine ⟨hk, hpos, by omega, fun q h1 h2 => ?_, fun j q => ?_, ⟨f', Function.update_self .., h.holds⟩,
    fun j g hg => ?_, fun j => ?_⟩
  · simp only [pageUsed, hf]
    exact hfree q h1 h2
  · by_cases hj : j = k
    · subst hj
      simp only [pageUsed, hf, Function.update_self, true_and]
      exact h.taken q
    · simp only [pageUsed, Function.update_of_ne hj, hj, false_and, if_false]
  · by_cases hj : j = k
    · subst hj
      obtain rfl := Option.some.inj (hf.symm.trans hg)
      exact ⟨f', Function.update_self .., fun i hi hi' => h.others i hi (hi' rfl)⟩
    · exact ⟨g, by rw [Function.update_of_ne hj, hg], fun _ _ _ => rfl⟩
  · by_cases hj : j = k
    · subst hj
      rw [Function.update_self, hf, Option.isSome_some, Option.isSome_some]
    · rw [Function.update_of_ne hj]

theorem Untouched.keeps (h : Untouched files files') {j page' : Nat} (hold : ItemIn files j page' it') :
    ItemIn files' j page' it' := by
  obtain ⟨f, hf, hit⟩ := hold
  obtain ⟨f', hf', hsame⟩ := h.others j f hf
  exact ⟨f', hf', hit.congr fun i h1 _ => hsame i (Nat.le_trans (Nat.le_add_right _ _) h1)⟩

theorem Released.keeps (h : Released files files' it k page) {j page' : Nat} (hold : ItemIn files j page' it') :
    ItemIn files' j page' it' := by
  obtain ⟨f, hf, hit⟩ := hold
  obtain ⟨f', hf', hsame⟩ := h.others j f hf
  exact ⟨f', hf', hit.congr fun i h1 _ => hsame i (Nat.le_trans (Nat.le_add_right _ _) h1)⟩

/-- A file that was passed over has lost at most its `remain_length`. -/
theorem passedOver_freepage (hs : it.Short) {a a' : Option Bytes} (h : PassedOver freepageRound it k a a') :
    (∀ f, a = some f → ∃ f', a' = some f' ∧ taken f' = taken f ∧ ∀ i, sizeofDbTableHeader ≤ i → f' i = f i) ∧
      a'.isSome = a.isSome := by
  rcases h with rfl | ⟨f, rfl, hnone, rfl⟩
  · exact ⟨fun f hf => ⟨f, hf, rfl, fun _ _ => rfl⟩, rfl⟩
  · refine ⟨fun g hg => ?_, by rw [Option.isSome_some, Option.isSome_some]⟩
    have hg := Option.some.inj hg
    subst hg
    rcases freepageRound_spec k f hs with ⟨p, f', writes, hrun, -, -⟩ | ⟨f', hrun, hf'⟩
    · rw [hrun] at hnone
      cases hnone
    · refine ⟨f', congrArg (fun r => some r.2) hrun, ?_⟩
      rcases hf' with ⟨rfl, -⟩ | ⟨⟨-, rfl⟩, -⟩
      · exact ⟨rfl, fun _ _ => rfl⟩
      split
      · refine ⟨taken_setRemainLength _ _, fun i hi => ?_⟩
        simp only [sizeofDbTableHeader] at hi
        exact putWord_of_outside (.inr (by omega))
      · exact ⟨rfl, fun _ _ => rfl⟩

/-- The pages of a file that was passed over. -/
theorem pageUsed_passedOver (hs : it.Short) (h : PassedOver freepageRound it k (files k) (files' k)) :
    pageUsed files' k = pageUsed files k := by
  obtain ⟨hsome, hmap⟩ := passedOver_freepage hs h
  funext q
  unfold pageUsed
  cases hf : files k with
  | none =>
    rw [hf, Option.isSome_none, Option.isSome_eq_false_iff, Option.isNone_iff_eq_none] at hmap
    rw [hmap]
  | some f =>
    obtain ⟨f', hf', ht, -⟩ := hsome f hf
    rw [hf']
    exact congrFun ht q

/-- `insert_to_datafile_at_freepage` places the item on free pages, or it does nothing to pages and items. -/
theorem insertToDatafileAtFreepage_spec (b : Build) (files : Datafiles) (hs : it.Short) :
    (∃ k page writes files', insertToDatafileAtFreepage b it files = (some ⟨k, pageOffset page, writes⟩, files') ∧
      Inserted b files files' it k page ∧
      ∀ w ∈ writes, pageOffset page ≤ w.1 ∧ w.1 + w.2 ≤ pageOffset page + it.aligned) ∨
    (∃ files', insertToDatafileAtFreepage b it files = (none, files') ∧ Untouched files files' ∧
      (∀ k, ipcDatafileMax b ≤ k → files' k = files k) ∧
      ∀ k f, k < ipcDatafileMax b → files k = some f →
        (files' k = some f ∧ remainLength f ≤ it.aligned ∨
          (it.aligned < remainLength f ∧ files' k = some (if it.pages = 1 then setRemainLength f 0 else f)) ∧
            IsFirstRun (taken f) it.pages (ipcDatafilePagecnt - 1) none)) := by
  obtain ⟨r, files', hrun, hout, hcase⟩ := @tryFiles_spec freepageRound it (distid b it) files (nodup_distid b it)
  have hpassed : ∀ j, j ∉ distid b it → PassedOver freepageRound it j (files j) (files' j) :=
    fun j hj => .inl (hout j hj)
  rcases hcase with ⟨k, f, p, f', hk, hf, hround, rfl, hf', hothers⟩ | ⟨rfl, hall⟩
  · rcases freepageRound_spec k f hs with ⟨page, g, writes, hrun', hplaced, hwrites⟩ | ⟨g, hrun', -⟩
    · obtain ⟨hp, rfl⟩ := Prod.mk.inj (hround.symm.trans hrun')
      obtain rfl := Option.some.inj hp
      obtain ⟨hpos, hend, hfree, -⟩ := id hplaced.first
      refine .inl ⟨k, page, writes, files', hrun, ⟨mem_distid.mp hk, hpos, by omega, ?_, fun j q => ?_,
        ⟨f', hf', hplaced.holds⟩, fun j g hg => ?_, fun j => ?_⟩, hwrites⟩
      · intro q h1 h2
        simp only [pageUsed, hf]
        exact hfree q h1 h2
      · by_cases hj : j = k
        · subst hj
          simp only [pageUsed, hf, hf', true_and]
          exact hplaced.taken q
        · rw [if_neg fun hn => hj hn.1, pageUsed_passedOver hs (hothers j hj)]
      · by_cases hj : j = k
        · subst hj
          obtain rfl := Option.some.inj (hf.symm.trans hg)
          exact ⟨f', hf', fun i hi hi' => hplaced.others i hi (hi' rfl)⟩
        · obtain ⟨g', hg', -, hsame⟩ := (passedOver_freepage hs (hothers j hj)).1 g hg
          exact ⟨g', hg', fun i hi _ => hsame i hi⟩
      · by_cases hj : j = k
        · subst hj
          rw [hf, hf']
          rfl
        · exact (passedOver_freepage hs (hothers j hj)).2
    · rw [hrun'] at hround
      cases hround
  · have hpass : ∀ j, PassedOver freepageRound it j (files j) (files' j) := by
      intro j
      by_cases hj : j ∈ distid b it
      · obtain ⟨hj', hnone⟩ := hall j hj
        cases hf : files j with
        | none => exact .inl (by rw [hj', hf]; rfl)
        | some f => exact .inr ⟨f, rfl, hnone f hf, by rw [hj', hf]; rfl⟩
      · exact .inl (hout j hj)
    refine .inr ⟨files', hrun, ⟨?_, fun j g hg => ?_, fun j => (passedOver_freepage hs (hpass j)).2⟩, fun j hj => ?_,
      fun j f hj hf => ?_⟩
    · funext j
      exact pageUsed_passedOver hs (hpass j)
    · obtain ⟨g', hg', -, hsame⟩ := (passedOver_freepage hs (hpass j)).1 g hg
      exact ⟨g', hg', hsame⟩
    · exact hout j fun h => Nat.not_lt.mpr hj (mem_distid.mp h)
    · obtain ⟨hj', hnone⟩ := hall j (mem_distid.mpr hj)
      rw [hf, Option.map_some] at hj'
      rcases freepageRound_spec j f hs with ⟨page, g, writes, hround, -, -⟩ | ⟨g, hround, hg⟩
      · have hn := hnone f hf
        rw [hround] at hn
        cases hn
      · rw [hj', hround]
        rcases hg with ⟨rfl, hwhy⟩ | ⟨⟨hroom, rfl⟩, hwhy⟩
        · exact .inl ⟨rfl, hwhy⟩
        · exact .inr ⟨⟨hroom, rfl⟩, hwhy⟩

/-- After the search for free pages no file has enough left, so nothing is appended. -/
theorem insertToDatafile_refused
    (h : ∀ k f, k < ipcDatafileMax b → files k = some f → remainLength f ≤ it.aligned) :
    insertToDatafile b it files = (none, files) := by
  obtain ⟨r, files', hrun, hout, hcase⟩ := @tryFiles_spec appendRound it (distid b it) files (nodup_distid b it)
  rcases hcase with ⟨k, f, p, f', hk, hf, hround, -⟩ | ⟨rfl, hall⟩
  · rw [appendRound_of_le k (h k f (mem_distid.mp hk) hf)] at hround
    cases hround
  · have hsame : files' = files := by
      funext k
      by_cases hk : k ∈ distid b it
      · obtain ⟨hk', -⟩ := hall k hk
        rw [hk']
        cases hf : files k with
        | none => rfl
        | some f => rw [Option.map_some, appendRound_of_le k (h k f (mem_distid.mp hk) hf)]
      · exact hout k hk
    rw [insertToDatafile, hrun, hsame]

/-- The files before the one that took the item had refused it. -/
theorem tryFiles_first {round : Nat → Bytes → Item → Option Placement × Bytes} {p : Placement} :
    ∀ {ns : List Nat} {files files' : Datafiles}, ns.Nodup → tryFiles round it ns files = (some p, files') →
    ∃ before k after f, ns = before ++ k :: after ∧ files k = some f ∧ (round k f it).1 = some p ∧
      ∀ j ∈ before, ∀ g, files j = some g → (round j g it).1 = none
  | [], _, _, _, h => by cases h
  | n :: ns, files, files', hnd, h => by
    obtain ⟨hn, hnd⟩ := List.nodup_cons.mp hnd
    rw [tryFiles] at h
    cases hf : files n with
    | none =>
      simp only [hf] at h
      obtain ⟨before, k, after, f, rfl, hk, hround, hbefore⟩ := tryFiles_first hnd h
      refine ⟨n :: before, k, after, f, rfl, hk, hround, fun j hj g hg => ?_⟩
      rcases List.mem_cons.mp hj with rfl | hj
      · rw [hf] at hg
        cases hg
      · exact hbefore j hj g hg
    | some f =>
      rcases hround : round n f it with ⟨_ | q, f'⟩
      · simp only [hf, hround] at h
        obtain ⟨before, k, after, g, rfl, hk, hround', hbefore⟩ := tryFiles_first hnd h
        have hne : ∀ j ∈ before ++ k :: after, j ≠ n := fun j hj he => hn (he ▸ hj)
        rw [Function.update_of_ne (hne k (List.mem_append_right _ (List.mem_cons_self ..)))] at hk
        refine ⟨n :: before, k, after, g, rfl, hk, hround', fun j hj g hg => ?_⟩
        rcases List.mem_cons.mp hj with rfl | hj
        · obtain rfl := Option.some.inj (hf.symm.trans hg)
          rw [hround]
        · refine hbefore j hj g ?_
          rwa [Function.update_of_ne (hne j (List.mem_append_left _ hj))]
      · simp only [hf, hround, Prod.mk.injEq, Option.some.injEq] at h
        obtain ⟨rfl, -⟩ := h
        exact ⟨[], n, ns, f, rfl, hf, by rw [hround], fun j hj => by cases hj⟩

theorem insertToDatafileAtFreepage_firstFit (hs : it.Short) {p : Placement}
    (h : insertToDatafileAtFreepage b it files = (some p, files')) :
    ∃ page, p.offset = pageOffset page ∧ FirstFit b files it p.field page := by
  obtain ⟨before, k, after, f, hns, hf, hround, hbefore⟩ := tryFiles_first (nodup_distid b it) h
  rcases freepageRound_spec k f hs with ⟨page, g, writes, hrun, hplaced, -⟩ | ⟨g, hrun, -⟩
  · rw [hrun] at hround
    obtain rfl := Option.some.inj hround
    refine ⟨page, rfl, before, after, f, hns, hf, hplaced.room, hplaced.first, fun j hj g hg hroom => ?_⟩
    rcases freepageRound_spec j g hs with ⟨page', g', writes', hrun', -, -⟩ | ⟨g', -, ⟨-, hle⟩ | ⟨-, hnone⟩⟩
    · have hno := hbefore j hj g hg
      rw [hrun'] at hno
      cases hno
    · exact absurd hroom (Nat.not_lt.mpr hle)
    · exact hnone
  · rw [hrun] at hround
    cases hround

theorem pageOffset_injective : Function.Injective pageOffset := by
  intro p q h
  simp only [pageOffset, sizeofDbTableHeader, ipcDatafileAligned] at h
  omega

/-- First fit finds a place in a file whose first run of free pages is known. -/
theorem FirstFit.not_none {k page : Nat} (h : FirstFit b files it k page) {f : Bytes} (hf : files k = some f) :
    k < ipcDatafileMax b ∧ it.aligned < remainLength f ∧
      ¬ IsFirstRun (taken f) it.pages (ipcDatafilePagecnt - 1) none := by
  obtain ⟨before, after, g, hns, hg, hroom, ⟨h1, h2, h3, -⟩, -⟩ := h
  obtain rfl := Option.some.inj (hf.symm.trans hg)
  refine ⟨(@mem_distid b it k).mp ?_, hroom, fun hnone => hnone page h1 h2 h3⟩
  rw [hns]
  exact List.mem_append_right _ (List.mem_cons_self ..)

/-- An insertion where space is not fragmented. If it is refused, no file has enough left, or the item has one page and
the files that claim to have more have lost their claim. -/
theorem insertItem_spec (hs : it.Short) (hfrag : ¬ Fragmented b files it) :
    (∃ k page writes files', insertItem b it files = (some ⟨k, pageOffset page, writes⟩, files') ∧
      Inserted b files files' it k page ∧ FirstFit b files it k page ∧
      ∀ w ∈ writes, pageOffset page ≤ w.1 ∧ w.1 + w.2 ≤ pageOffset page + it.aligned) ∨
    ∃ files', insertItem b it files = (none, files') ∧ Untouched files files' ∧
      (∀ k page, ¬ FirstFit b files it k page) ∧ (∀ k, ipcDatafileMax b ≤ k → files' k = files k) ∧
      ∀ k f, k < ipcDatafileMax b → files k = some f →
        (remainLength f ≤ it.aligned ∧ files' k = some f ∨
          it.aligned < remainLength f ∧ files' k = some (setRemainLength f 0)) := by
  rcases insertToDatafileAtFreepage_spec b files hs with ⟨k, page, writes, files', hrun, hins, hwrites⟩ |
      ⟨files', hrun, huntouched, hout, hwhy⟩
  · obtain ⟨page', hpage, hfit⟩ := insertToDatafileAtFreepage_firstFit hs hrun
    obtain rfl := pageOffset_injective hpage
    refine .inl ⟨k, page, writes, files', ?_, hins, hfit, hwrites⟩
    rw [insertItem, hrun]
  · have hnofit : ∀ k page, ¬ FirstFit b files it k page := by
      intro k page hfit
      obtain ⟨-, -, f, -, hf, -⟩ := id hfit
      obtain ⟨hk, hroom, hsome⟩ := hfit.not_none hf
      rcases hwhy k f hk hf with ⟨-, hle⟩ | ⟨-, hnone⟩
      · exact absurd hroom (Nat.not_lt.mpr hle)
      · exact hsome hnone
    -- only an item of one page meets files that claim more and have no run
    have hcases : ∀ k f, k < ipcDatafileMax b → files k = some f →
        (remainLength f ≤ it.aligned ∧ files' k = some f ∨
          it.aligned < remainLength f ∧ files' k = some (setRemainLength f 0)) := by
      intro k f hk hf
      rcases hwhy k f hk hf with ⟨hsame, hle⟩ | ⟨⟨hroom, hzero⟩, -⟩
      · exact .inl ⟨hle, hsame⟩
      · by_cases hpages : it.pages = 1
        · rw [if_pos hpages] at hzero
          exact .inr ⟨hroom, hzero⟩
        · refine absurd ⟨hpages, ⟨k, f, hk, hf, hroom⟩, fun j f' hj hf' hroom' q hq hend => ?_⟩ hfrag
          rcases hwhy j f' hj hf' with ⟨-, hle⟩ | ⟨-, hnone⟩
          · exact absurd hroom' (Nat.not_lt.mpr hle)
          · exact hnone q hq hend
    refine .inr ⟨files', ?_, huntouched, hnofit, hout, hcases⟩
    rw [insertItem, hrun]
    refine insertToDatafile_refused fun k g hk hg => ?_
    cases hf : files k with
    | none =>
      have hmapped := huntouched.mapped k
      rw [hf, hg] at hmapped
      cases hmapped
    | some f =>
      rcases hcases k f hk hf with ⟨hle, hsame⟩ | ⟨-, hzero⟩
      · rw [hg] at hsame
        rwa [Option.some.inj hsame]
      · rw [hg] at hzero
        rw [Option.some.inj hzero, remainLength_setRemainLength]
        exact Nat.zero_le _

/-- An item that fits the address of a node. -/
theorem toNat_dataOffset {h : BitVec 32} {p : Placement} (hoff : p.offset < 2 ^ 24) :
    (p.resultnode h).dataOffset.toNat = p.offset := by
  simp only [Placement.resultnode, BitVec.toNat_ofNat, Nat.mod_eq_of_lt hoff]

theorem toNat_dataField {h : BitVec 32} {p : Placement} (hk : p.field < ipcDatafileMax b) :
    (p.resultnode h).dataField.toNat = p.field := by
  have hmax : ipcDatafileMax b ≤ 2 ^ 8 := by cases b <;> decide
  simp only [Placement.resultnode, BitVec.toNat_ofNat, Nat.mod_eq_of_lt (Nat.lt_of_lt_of_le hk hmax)]

/-- `change_free_to_datafile` on the node of an item gives the pages of the item back. -/
theorem changeFreeToDatafile_spec {node : NodeKey} (hold : ItemIn files k page it) (hs : it.Short)
    (hk : k < ipcDatafileMax b) (hp : 1 ≤ page) (hend : page + it.pages ≤ ipcDatafilePagecnt)
    (hfield : node.dataField.toNat = k) (hoff : node.dataOffset.toNat = pageOffset page) :
    ∃ files', changeFreeToDatafile b node files = (.ok, files') ∧ Released files files' it k page := by
  obtain ⟨f, hf, hit⟩ := hold
  obtain ⟨-, -, -, hpos⟩ := hs.aligned_eq
  have hbits : page + it.pages ≤ bitmapPages := Nat.le_trans hend (by decide)
  obtain ⟨f', hrun, hfreed⟩ := changeFreeRound_spec hit hs hbits
  have hlow : ¬ pageOffset page ≤ sizeofDbTableHeader := by
    simp only [pageOffset, sizeofDbTableHeader, ipcDatafileAligned]
    omega
  have hhigh : ¬ ipcDatafileTtlsize ≤ pageOffset page := by
    simp only [pageOffset, sizeofDbTableHeader, ipcDatafileAligned, ipcDatafileTtlsize, ipcDatafilePagecnt] at hend ⊢
    omega
  refine ⟨Function.update files k (some f'), ?_, fun j q => ?_, fun j g hg => ?_, fun j => ?_⟩
  · simp only [changeFreeToDatafile, hfield, hoff, Nat.not_le.mpr hk, hhigh, hlow, if_false, hf, hrun]
  · by_cases hj : j = k
    · subst hj
      simp only [pageUsed, hf, Function.update_self, true_and]
      exact hfreed.taken q
    · simp only [pageUsed, Function.update_of_ne hj, hj, false_and, if_false]
  · by_cases hj : j = k
    · subst hj
      obtain rfl := Option.some.inj (hf.symm.trans hg)
      exact ⟨f', Function.update_self .., hfreed.others⟩
    · exact ⟨g, by rw [Function.update_of_ne hj, hg], fun _ _ => rfl⟩
  · by_cases hj : j = k
    · subst hj
      rw [Function.update_self, hf]
      rfl
    · rw [Function.update_of_ne hj]

end

end NetworkBfd.Smmr
