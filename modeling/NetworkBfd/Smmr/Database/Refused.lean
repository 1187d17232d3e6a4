import NetworkBfd.Smmr.Database.Integrity

/-!
# A store that fails

`run_refused`: a store that returns `RET_NG` leaves the database as it was exactly if it is `Traceless`. The other
failures are a key without hash, whose item stays behind without a node (`refused_zero`), values that were overwritten
before the insertion failed, and files that lost their `remain_length`.
-/

namespace NetworkBfd.Smmr

open Lib Lib.Bytes CategoryTree

namespace Database

/-- The entry is of the key, and the new value would be written over another one. -/
def Changes (b : Build) (curtime : BitVec 32) (it : Item) (files : Datafiles) (e : NodeKey) : Prop :=
  ∃ f, files e.dataField.toNat = some f ∧ found b curtime it.key files e = .same ∧
    it.aligned ≤ alignedSize (itemLengthField f e.dataOffset.toNat) ∧
    read f (e.dataOffset.toNat + sizeofDataitm + itemKeylen f e.dataOffset.toNat)
      (itemVallen f e.dataOffset.toNat) ≠ it.val

/-- The arguments are refused, or the store finds a place and a category, or no file has enough left and no value is
overwritten. -/
def Traceless (b : Build) (curtime : BitVec 32) (it : Item) (db : Database) : Prop :=
  (it.key = [] ∨ it.val = []) ∨ (safeHash it.key ≠ 0 ∧ ∃ k page, FirstFit b db.files it k page) ∨
    (∀ k f, k < ipcDatafileMax b → db.files k = some f → remainLength f ≤ it.aligned) ∧
      ∀ e ∈ visited b curtime it.key db, ¬ Changes b curtime it db.files e

variable {b : Build} {db db' : Database} {S : Finset NodeKey} {items : NodeKey → Item} {curtime : BitVec 32} {it : Item}
  {e : NodeKey}

theorem changes_iff (h : EntryOf b db.files e (items e)) :
    Changes b curtime it db.files e ↔ Overwrites curtime items it e ∧ (items e).val ≠ it.val := by
  obtain ⟨f, hf, hit, -⟩ := h.reads
  have halign : alignedSize (itemLengthField f e.dataOffset.toNat) = (items e).aligned := by
    rw [hit.length]
    rfl
  have hval : read f (e.dataOffset.toNat + sizeofDataitm + itemKeylen f e.dataOffset.toNat)
      (itemVallen f e.dataOffset.toNat) = (items e).val := by rw [hit.keylen, hit.vallen, hit.val]
  have hfound := @EntryOf.found _ _ _ _ curtime h it.key
  have hsame : found b curtime it.key db.files e = .same ↔
      (items e).expired curtime = false ∧ (items e).key = it.key := by
    rw [hfound]
    cases hexp : (items e).expired curtime with
    | true => simp
    | false =>
      by_cases hk : (items e).key = it.key
      · simp [hk]
      · simp [hk]
  constructor
  · rintro ⟨g, hg, hs, hle, hne⟩
    obtain rfl := Option.some.inj (hf.symm.trans hg)
    rw [halign] at hle
    rw [hval] at hne
    obtain ⟨hexp, hk⟩ := hsame.mp hs
    exact ⟨⟨hexp, hk, hle⟩, hne⟩
  · rintro ⟨⟨hexp, hk, hle⟩, hne⟩
    refine ⟨f, hf, hsame.mpr ⟨hexp, hk⟩, ?_, ?_⟩
    · rwa [halign]
    · rwa [hval]

/-- A store with a hash that finds a place does not fail. -/
theorem not_refused_of_fits {db₁ : Database} (hinv : Inv b db₁ S items) (hkey : it.key ≠ []) (hval : it.val ≠ [])
    (hins : Insertable b it db₁.files) (hrun : db₁.insertEntry b it = .ok (.ng, db')) (hh : safeHash it.key ≠ 0)
    {k page : Nat} (hfit : FirstFit b db₁.files it k page) : False := by
  have hspec := insertEntry_spec hinv hkey hval hins
  rw [hrun] at hspec
  rcases hspec with ⟨hok, -⟩ | ⟨-, -, -, ⟨hzero, -⟩ | ⟨hnone, -⟩⟩
  · cases hok
  · exact hh hzero
  · rcases insertItem_spec hins.1 hins.2.1 with ⟨k', page', writes, files', hins', -⟩ | ⟨files', -, -, hnofit, -⟩
    · rw [hins'] at hnone
      cases hnone
    · exact hnofit k page hfit

/-- A store that fails leaves no trace exactly if it is traceless. -/
theorem store_refused (h : Inv b db S items) (hreg : (Call.store curtime it).Regular b db)
    (hrun : db.store b curtime it = .ok (.ng, db')) : db' = db ↔ Traceless b curtime it db := by
  by_cases hargs : it.key = [] ∨ it.val = []
  · rw [store, if_pos hargs] at hrun
    cases hrun
    exact iff_of_true rfl (.inl hargs)
  obtain ⟨hkey, hval⟩ := not_or.mp hargs
  have hins : Insertable b it db.files := (hreg.resolve_left hkey).resolve_left hval
  obtain ⟨db₁, heq, hinst, hheaders, hinv, hkeep⟩ := @store_eq _ _ _ _ curtime _ h hkey hval hins
  rw [heq] at hrun
  have hins₁ := hins.headers hheaders
  have hchanges : (∀ e ∈ visited b curtime it.key db, ¬ Changes b curtime it db.files e) →
      ∀ e ∈ visited b curtime it.key db, Overwrites curtime items it e → (items e).val = it.val := by
    intro hno e he hov
    have hent := h.holding.entries e (visited_mem h.indexes e he)
    by_contra hne
    exact hno e he ((changes_iff hent).mpr ⟨hov, hne⟩)
  constructor
  · rintro rfl
    refine .inr (.inr ?_)
    have hspec := insertEntry_spec hinv hkey hval hins₁
    rw [hrun] at hspec
    rcases hspec with ⟨hok, -⟩ | ⟨-, hinv', -, ⟨hzero, k, page, hinserted, -⟩ | ⟨hnone, hfiles⟩⟩
    · cases hok
    · -- the item of a key without hash stays on pages that were free
      obtain rfl := hkeep fun e he => by
        rw [visited_zero hzero] at he
        cases he
      have hfree := hinserted.free page (Nat.le_refl _) (Nat.lt_add_of_pos_right hins.1.aligned_eq.2.2.2)
      have hused := hinserted.used k page
      rw [if_pos ⟨rfl, Nat.le_refl _, Nat.lt_add_of_pos_right hins.1.aligned_eq.2.2.2⟩, hfree] at hused
      cases hused
    · rcases insertItem_spec hins₁.1 hins₁.2.1 with
        ⟨k, page, writes, files', hins', -⟩ | ⟨files', hins', -, -, -, hcases⟩
      · rw [hins'] at hnone
        cases hnone
      rw [hins'] at hfiles
      dsimp only at hfiles
      refine ⟨fun k f hk hf => ?_, fun e he hch => ?_⟩
      · obtain ⟨f₁, hf₁, -, hr, -⟩ := hheaders.1 k f hf
        rcases hcases k f₁ hk hf₁ with ⟨hle, -⟩ | ⟨hroom, hzero⟩
        · rwa [hr] at hle
        · rw [← hfiles, hf] at hzero
          rw [hr, Option.some.inj hzero, remainLength_setRemainLength] at hroom
          exact absurd hroom (Nat.not_lt_zero _)
      · have heS := visited_mem h.indexes e he
        have hent := h.holding.entries e heS
        obtain ⟨hov, hne⟩ := (changes_iff hent).mp hch
        have hent' := hinv'.holding.entries e heS
        rw [overwritten, if_pos ⟨he, hov⟩] at hent'
        have hsame : (items e).val = ((items e).rewrite it).val := hent.val_eq hent'
        exact hne hsame
  · rintro (hempty | ⟨hh, k, page, hfit⟩ | ⟨hfull, hno⟩)
    · exact absurd hempty hargs
    · exact (not_refused_of_fits hinv hkey hval hins₁ hrun hh (hheaders.symm.firstFit hfit)).elim
    · obtain rfl := hkeep (hchanges hno)
      have hspec := insertEntry_spec hinv hkey hval hins₁
      rw [hrun] at hspec
      rcases hspec with ⟨hok, -⟩ | ⟨-, -, hinst', ⟨-, k, page, -, hfit⟩ | ⟨hnone, hfiles⟩⟩
      · cases hok
      · obtain ⟨-, -, f, -, hf, -⟩ := id hfit
        obtain ⟨hk, hroom, -⟩ := hfit.not_none hf
        exact absurd hroom (Nat.not_lt.mpr (hfull k f hk hf))
      · rcases insertItem_spec hins₁.1 hins₁.2.1 with ⟨k, page, writes, files', hins', -⟩ |
            ⟨files', hins', huntouched, -, hout, hcases⟩
        · rw [hins'] at hnone
          cases hnone
        rw [hins'] at hfiles
        dsimp only at hfiles
        have hsame : files' = db₁.files := by
          funext k
          by_cases hk : k < ipcDatafileMax b
          · cases hf : db₁.files k with
            | none =>
              have hmap := huntouched.mapped k
              rwa [hf, Option.isSome_none, Option.isSome_eq_false_iff, Option.isNone_iff_eq_none] at hmap
            | some f =>
              rcases hcases k f hk hf with ⟨-, hsame⟩ | ⟨hroom, -⟩
              · exact hsame
              · exact absurd hroom (Nat.not_lt.mpr (hfull k f hk hf))
          · exact hout k (Nat.le_of_not_lt hk)
        obtain ⟨inst', files''⟩ := db'
        obtain ⟨inst₁, files₁⟩ := db₁
        dsimp only at hinst' hfiles hsame
        rw [hinst', hfiles, hsame]

/-- In every database that regular calls reach, a regular store that fails leaves no trace exactly if it is
traceless. -/
theorem run_refused (b : Build) (db₀ : Database) (calls : List Call) (hfresh : db₀.Fresh)
    (hblocks : db₀.inst.BlocksOnly)
    (hreg : Regular b db₀ calls) {db : Database} (hrun : db₀.run b calls = .ok db) (curtime : BitVec 32) (it : Item)
    (hstore : (Call.store curtime it).Regular b db) {db' : Database}
    (hng : db.store b curtime it = .ok (.ng, db')) : db' = db ↔ Traceless b curtime it db := by
  have hspec := run_inv (hfresh.inv hblocks fun _ => ⟨[], [], 0, by decide, by decide⟩) hreg
  rw [hrun] at hspec
  obtain ⟨S, items, hinv⟩ := hspec
  exact store_refused hinv hstore hng

/-- An item whose key has the hash 0. -/
def hashless : Item := ⟨[105, 116, 102, 122, 98, 112, 118], [1], 0, by decide, Item.keylen_one_lt⟩

theorem hashless_short : hashless.Short := by
  show 7 + 1 + sizeofDataitm ≤ _
  decide

/-- It is written to the file, but it gets no node. -/
theorem store_hashless : ∃ f, single.store .test 0 hashless =
    .ok (.ng, ⟨oneBlock, Function.update single.files 0 (some f)⟩) ∧ taken f 1 = true := by
  have hs := hashless_short
  have hpages : hashless.pages = 1 := by
    rw [Item.pages, Item.aligned, hs.length_eq]
    show alignedSize (sizeofDataitm + 7 + 1) / ipcDatafileAligned = 1
    decide
  have hzero : safeHash hashless.key = 0 := by decide
  have hinv := single_fresh.inv (b := .test) single_blocks fun _ => hashless
  obtain ⟨f, hrun, hplaced, -⟩ := @store_single _ _ _ _ 0 _ hinv (by decide) (by decide) hs
    (fun _ hk => single_other hk)
    _ _ single_zero fillsTo_initDatafile (by rw [hpages]; decide) fun e he => by
      rw [visited_zero hzero] at he
      cases he
  refine ⟨f, ?_, ?_⟩
  · rw [hrun, hzero]
    rfl
  · rw [hplaced.taken, if_pos ⟨Nat.le_refl _, by rw [hpages]; decide⟩]

/-- The store of that item into a fresh database. -/
theorem run_refused_hashless : ∃ db', single.store .test 0 hashless = .ok (.ng, db') ∧
    (db' = single ↔ Traceless .test 0 hashless single) := by
  obtain ⟨f, hrun, -⟩ := store_hashless
  refine ⟨_, hrun, run_refused .test single [] single_fresh single_blocks (fun before call after _ heq _ => ?_) rfl 0
    hashless (.inr (.inr (single_insertable hashless_short))) hrun⟩
  exact absurd heq (by simp)

/-- A store into a fresh database that fails and takes a page. -/
theorem refused_zero : ∃ db db', Fresh db ∧ db.inst.BlocksOnly ∧ db.store .test 0 hashless = .ok (.ng, db') ∧
    pageUsed db.files 0 1 = false ∧ pageUsed db'.files 0 1 = true := by
  obtain ⟨f, hrun, htaken⟩ := store_hashless
  refine ⟨single, _, single_fresh, single_blocks, hrun, ?_, ?_⟩
  · simp only [pageUsed, single_zero, fillsTo_initDatafile.taken]
    decide
  · simp only [pageUsed, Function.update_self, htaken]

end Database

end NetworkBfd.Smmr
