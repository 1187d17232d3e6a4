import NetworkBfd.Smmr.Database.Traversals

/-!
# What the calls do

`Database.Inv` is the state of a database: the index holds a set of entries, and each refers to an item on pages of its
own. `search_spec` and `store_spec` say what a regular call (`Call.Regular`) does to the entries and their items, and
what it returns; `run_inv` follows a run of regular calls.
-/

namespace NetworkBfd.Smmr

open Lib Lib.Bytes CategoryTree

/-- A call with the time at which it is made. -/
inductive Call
  | store (curtime : BitVec 32) (it : Item)
  | search (curtime : BitVec 32) (key : List Byte) (held : Bool)

namespace Database

/-- The database after a call. -/
def step (b : Build) (db : Database) : Call → Except Fault Database
  | .store curtime it => do
    let (_, db) ← db.store b curtime it
    .ok db
  | .search curtime key held => do
    let (_, _, db) ← db.search b curtime key held
    .ok db

def run (b : Build) : Database → List Call → Except Fault Database
  | db, [] => .ok db
  | db, call :: calls => do
    let db ← db.step b call
    run b db calls

/-- A database that was just initialised: empty trees, and files that `init_datafiles_from_file` made. -/
structure Fresh (db : Database) : Prop where
  rooti : ∀ c, (db.inst c).rooti = default
  files : ∀ k, db.files k = none ∨ db.files k = some initDatafile

/-- No more entries that the search reaches are expired than can be reserved for removal. -/
def Reservable (b : Build) (curtime : BitVec 32) (key : List Byte) (db : Database) : Prop :=
  ((visited b curtime key db).filter fun e => found b curtime key db.files e = .expired).length ≤ removeReservedCount

/-- The item does not wrap, its insertion needs no room behind the last page, and a node can hold its offset. -/
def Insertable (b : Build) (it : Item) (files : Datafiles) : Prop :=
  it.Short ∧ ¬ Fragmented b files it ∧
    (safeHash it.key ≠ 0 → ∀ k page, FirstFit b files it k page → pageOffset page < 2 ^ 24)

end Database

/-- A call that meets none of the limits of the database. -/
def Call.Regular (b : Build) (db : Database) : Call → Prop
  | .store _ it => it.key = [] ∨ it.val = [] ∨ Database.Insertable b it db.files
  | .search curtime key held => held = true ∨ db.Reservable b curtime key

/-! ## Same headers -/

section Headers

variable {b : Build} {files files' : Datafiles} {it : Item}

theorem SameHeaders.back (h : SameHeaders files files') {j : Nat} {f' : Bytes} (hf' : files' j = some f') :
    ∃ f, files j = some f ∧ taken f' = taken f ∧ remainLength f' = remainLength f := by
  have hmap := h.2 j
  cases hf : files j with
  | none =>
    rw [hf, hf'] at hmap
    cases hmap
  | some f =>
    obtain ⟨g, hg, ht, hr, -⟩ := h.1 j f hf
    obtain rfl := Option.some.inj (hf'.symm.trans hg)
    exact ⟨f, rfl, ht, hr⟩

theorem SameHeaders.symm (h : SameHeaders files files') : SameHeaders files' files := by
  refine ⟨fun j f' hf' => ?_, fun j => (h.2 j).symm⟩
  obtain ⟨f, hf, -⟩ := h.back hf'
  obtain ⟨g, hg, ht, hr, hu⟩ := h.1 j f hf
  obtain rfl := Option.some.inj (hf'.symm.trans hg)
  exact ⟨f, hf, ht.symm, hr.symm, hu.symm⟩

theorem SameHeaders.fragmented (h : SameHeaders files files') (hfrag : Fragmented b files' it) :
    Fragmented b files it := by
  obtain ⟨hpages, ⟨k, f', hk, hf', hroom⟩, hall⟩ := hfrag
  obtain ⟨f, hf, -, hr⟩ := h.back hf'
  refine ⟨hpages, ⟨k, f, hk, hf, by rwa [hr] at hroom⟩, fun j g hj hg hroom' q hq hend hfree => ?_⟩
  obtain ⟨g', hg', ht, hr', -⟩ := h.1 j g hg
  exact hall j g' hj hg' (by rwa [hr']) q hq hend (by rwa [ht])

theorem SameHeaders.firstFit (h : SameHeaders files files') {k page : Nat} (hfit : FirstFit b files' it k page) :
    FirstFit b files it k page := by
  obtain ⟨before, after, f', hns, hf', hroom, hfirst, hbefore⟩ := hfit
  obtain ⟨f, hf, ht, hr⟩ := h.back hf'
  rw [ht] at hfirst
  rw [hr] at hroom
  refine ⟨before, after, f, hns, hf, hroom, hfirst, fun j hj g hg hroom' => ?_⟩
  obtain ⟨g', hg', ht', hr', -⟩ := h.1 j g hg
  have hnone := hbefore j hj g' hg' (by rwa [hr'])
  rwa [ht'] at hnone

theorem Database.Insertable.headers (h : Database.Insertable b it files) (hsame : SameHeaders files files') :
    Database.Insertable b it files' :=
  ⟨h.1, fun hfrag => h.2.1 (hsame.fragmented hfrag), fun hh k page hfit => h.2.2 hh k page (hsame.firstFit hfit)⟩

end Headers

namespace Database

/-! ## The invariant -/

/-- The index holds the entries `S`, which refer to their items, on pages of their own. -/
structure Inv (b : Build) (db : Database) (S : Finset NodeKey) (items : NodeKey → Item) : Prop where
  indexes : db.inst.Indexes S
  blocks : db.inst.BlocksOnly
  hashed : ∀ e ∈ S, e.keyhash ≠ 0
  holding : Holding b db.files S S items

variable {b : Build} {db : Database} {S : Finset NodeKey} {items : NodeKey → Item} {curtime : BitVec 32}
  {key : List Byte} {it : Item}

theorem Fresh.inv (h : Fresh db) (hblocks : db.inst.BlocksOnly) (items : NodeKey → Item) : Inv b db ∅ items :=
  ⟨TreeInstance.indexes_empty h.rooti, hblocks, fun _ he => absurd he (Finset.notMem_empty _), holding_empty b _ items⟩

/-! ## `search` -/

/-- The reserved entries go. -/
theorem removeAll_spec : ∀ {nodes : List NodeKey} {inst : TreeInstance} {S : Finset NodeKey}, inst.Indexes S →
    inst.BlocksOnly → (∀ e ∈ nodes, e.keyhash ≠ 0) →
    ∃ inst', removeAll inst nodes = .ok inst' ∧ inst'.Indexes (S \ nodes.toFinset) ∧ inst'.BlocksOnly
  | [], inst, S, h, hb, _ => ⟨inst, rfl, by simpa using h, hb⟩
  | e :: nodes, inst, S, h, hb, hhash => by
    have he := hhash e (List.mem_cons_self ..)
    obtain ⟨inst₁, hrun₁, h₁, hb₁⟩ := TreeInstance.removeTreeSafe_spec h hb he
    obtain ⟨inst₂, hrun₂, h₂, hb₂⟩ := removeAll_spec h₁ hb₁ fun x hx => hhash x (List.mem_cons_of_mem _ hx)
    refine ⟨inst₂, ?_, ?_, hb₂⟩
    · rw [removeAll, isEmpty_of_keyhash_ne he, if_neg Bool.false_ne_true, hrun₁]
      exact hrun₂
    · rwa [List.toFinset_cons, Finset.sdiff_insert, ← Finset.erase_sdiff_comm]

theorem Inv.expiredAt_eq (h : Inv b db S items) {L : List NodeKey} (hL : ∀ e ∈ L, e ∈ S) :
    L.filter (fun e => found b curtime key db.files e = .expired) = L.filter (expiredAt items curtime) := by
  refine List.filter_congr fun e he => ?_
  rw [(h.holding.entries e (hL e he)).found, expiredAt]
  cases (items e).expired curtime with
  | true => rfl
  | false =>
    by_cases hk : (items e).key = key
    · simp [hk]
    · simp [hk]

theorem visited_mem (h : db.inst.Indexes S) : ∀ e ∈ visited b curtime key db, e ∈ S := by
  intro e he
  by_cases hh : safeHash key = 0
  · rw [visited_zero hh] at he
    cases he
  · exact ((@visited_spec b curtime key db S h hh).2.2.1 e he).1

/-- A search returns the value of the last entry of its key that it reaches, and the expired entries that it reaches
go. -/
theorem search_spec (h : Inv b db S items) (hroom : db.Reservable b curtime key) :
    ∃ db', db.search b curtime key false = .ok
        ((lastValue items curtime key (visited b curtime key db)).2,
          (lastValue items curtime key (visited b curtime key db)).1, db') ∧
      Inv b db' (S \ expiredOf items curtime (visited b curtime key db)) items ∧
      (expiredOf items curtime (visited b curtime key db) = ∅ → db'.files = db.files) := by
  have hmem := @visited_mem b db S curtime key h.indexes
  rw [Reservable, h.expiredAt_eq hmem] at hroom
  obtain ⟨r, ⟨c, fs⟩, hrun, ⟨-, hres, hfound⟩, hhold, hsame⟩ :=
    searchTraversal_spec h.indexes h.holding h.hashed hroom
  dsimp only at hres hfound hhold hsame
  have hhash : ∀ e ∈ c.removeReserved, e.keyhash ≠ 0 := fun e he => by
    rw [hres] at he
    exact h.hashed e (hmem e (List.mem_of_mem_filter he))
  obtain ⟨inst', hremove, hindexes, hblocks⟩ := removeAll_spec h.indexes h.blocks hhash
  rw [hres] at hindexes
  refine ⟨⟨inst', fs⟩, ?_, ⟨hindexes, hblocks, fun e he => h.hashed e (Finset.mem_sdiff.mp he).1,
    hhold.mono Finset.sdiff_subset (Finset.Subset.refl _)⟩, hsame⟩
  -- a value that is found is not empty
  have hret : (if c.val ≠ [] ∧ c.flag = .ok then (Ret.ok, c.val) else (Ret.ng, [])) =
      ((lastValue items curtime key (visited b curtime key db)).2,
        (lastValue items curtime key (visited b curtime key db)).1) := by
    rw [← hfound]
    unfold lastValue at hfound
    split at hfound
    · rename_i e he
      obtain ⟨hval, hflag⟩ := Prod.mk.inj hfound
      have heS := hmem e (List.mem_of_mem_filter (List.mem_of_getLast? he))
      rw [if_pos ⟨by rw [hval]; exact (h.holding.entries e heS).val_ne, hflag⟩, hflag]
    · obtain ⟨hval, hflag⟩ := Prod.mk.inj hfound
      rw [if_neg fun hn => hn.1 hval, hval, hflag]
  simp only [search, Bool.false_eq_true, if_false, hrun, bind, Except.bind, hremove, hret]

/-! ## `store` -/

/-- The item comes with its entry, or nothing comes, or the item alone. -/
theorem insertEntry_spec (h : Inv b db S items) (hkey : it.key ≠ []) (hval : it.val ≠ [])
    (hins : Insertable b it db.files) :
    Yields Contract (db.insertEntry b it) fun r =>
      (r.1 = .ok ∧ safeHash it.key ≠ 0 ∧ ∃ e k page, e ∉ S ∧ e.keyhash = safeHash it.key ∧
        Inserted b db.files r.2.files it k page ∧ FirstFit b db.files it k page ∧ e.dataField.toNat = k ∧
        e.page = page ∧
        Inv b r.2 (insert e S) (Function.update items e it)) ∨
      (r.1 = .ng ∧ Inv b r.2 S items ∧ r.2.inst = db.inst ∧
        ((safeHash it.key = 0 ∧ ∃ k page, Inserted b db.files r.2.files it k page ∧ FirstFit b db.files it k page) ∨
          (insertItem b it db.files).1 = none ∧ r.2.files = (insertItem b it db.files).2)) := by
  obtain ⟨hs, hfrag, hnear⟩ := hins
  rw [insertEntry]
  rcases insertItem_spec hs hfrag with
    ⟨k, page, writes, files', hrun, hinserted, hfit, -⟩ | ⟨files', hrun, huntouched, -⟩
  · rw [hrun]
    by_cases hh : safeHash it.key = 0
    · have hng : db.inst.addTreeSafe (Placement.resultnode ⟨k, pageOffset page, writes⟩ (safeHash it.key)) =
          .ok (.ng, db.inst) := by
        rw [hh]
        rfl
      simp only [hng]
      exact .inr ⟨rfl, ⟨h.indexes, h.blocks, h.hashed, h.holding.inserted hs hinserted⟩, rfl,
        .inl ⟨hh, k, page, hinserted, hfit⟩⟩
    · have hoff := @toNat_dataOffset (safeHash it.key) ⟨k, pageOffset page, writes⟩ (hnear hh k page hfit)
      have hfield := @toNat_dataField b (safeHash it.key) ⟨k, pageOffset page, writes⟩ hinserted.field
      obtain ⟨hpage, -⟩ := hinserted.entryOf hs hkey hval rfl hfield hoff
      obtain ⟨hnew, hhold⟩ := h.holding.insert hinserted hs hkey hval rfl hfield hoff
      refine (TreeInstance.addTreeSafe_spec h.indexes h.blocks hh).bind ?_
      rintro ⟨ret, inst'⟩ ⟨rfl, hindexes, hblocks⟩
      refine .inl ⟨rfl, hh, _, k, page, hnew, rfl, hinserted, hfit, hfield, hpage, hindexes, hblocks,
        fun e he => ?_, hhold⟩
      rcases Finset.mem_insert.mp he with rfl | he
      · exact hh
      · exact h.hashed e he
  · rw [hrun]
    exact .inr ⟨rfl, ⟨h.indexes, h.blocks, h.hashed, h.holding.untouched huntouched⟩, rfl, .inr ⟨rfl, rfl⟩⟩

/-- A store overwrites the values that it can, and then it inserts, whatever it found. -/
theorem store_eq (h : Inv b db S items) (hkey : it.key ≠ []) (hval : it.val ≠ []) (hins : Insertable b it db.files) :
    ∃ db₁, db.store b curtime it = db₁.insertEntry b it ∧ db₁.inst = db.inst ∧ SameHeaders db.files db₁.files ∧
      Inv b db₁ S (overwritten curtime items it (visited b curtime it.key db)) ∧
      ((∀ e ∈ visited b curtime it.key db, Overwrites curtime items it e → (items e).val = it.val) → db₁ = db) := by
  obtain ⟨r, ⟨c, fs⟩, hrun, ⟨-, -, hflag⟩, hhold, hheaders, hsame⟩ :=
    @updateTraversal_spec _ curtime _ _ _ _ h.indexes h.holding hins.1 hval
  dsimp only at hflag hhold hheaders hsame
  refine ⟨⟨db.inst, fs⟩, ?_, rfl, hheaders, ⟨h.indexes, h.blocks, h.hashed, hhold⟩, fun hall => ?_⟩
  · rw [store, if_neg (not_or.mpr ⟨hkey, hval⟩)]
    simp only [hrun, bind, Except.bind, hflag]
  · rw [hsame hall]

theorem store_spec (h : Inv b db S items) (hkey : it.key ≠ []) (hval : it.val ≠ []) (hins : Insertable b it db.files) :
    Yields Contract (db.store b curtime it) fun r => ∃ items', items' =
        overwritten curtime items it (visited b curtime it.key db) ∧
      ((r.1 = .ok ∧ safeHash it.key ≠ 0 ∧ ∃ e k page, e ∉ S ∧ e.keyhash = safeHash it.key ∧
        FirstFit b db.files it k page ∧ e.dataField.toNat = k ∧ e.page = page ∧
        Inv b r.2 (insert e S) (Function.update items' e it)) ∨
      (r.1 = .ng ∧ Inv b r.2 S items')) := by
  obtain ⟨db₁, hrun, -, hheaders, hinv, -⟩ := @store_eq _ _ _ _ curtime _ h hkey hval hins
  rw [hrun]
  refine (insertEntry_spec hinv hkey hval (hins.headers hheaders)).mono fun r hr => ⟨_, rfl, ?_⟩
  rcases hr with ⟨hok, hh, e, k, page, hnew, hhash, -, hfit, hfield, hpage, hinv'⟩ | ⟨hng, hinv', -⟩
  · exact .inl ⟨hok, hh, e, k, page, hnew, hhash, hheaders.firstFit hfit, hfield, hpage, hinv'⟩
  · exact .inr ⟨hng, hinv'⟩

/-! ## Runs -/

/-- One regular call. -/
theorem step_inv (h : Inv b db S items) {call : Call} (hreg : call.Regular b db) :
    Yields Contract (db.step b call) fun db' => ∃ S' items', Inv b db' S' items' := by
  cases call with
  | store curtime it =>
    by_cases hargs : it.key = [] ∨ it.val = []
    · simp only [step, store, if_pos hargs]
      exact ⟨S, items, h⟩
    · obtain ⟨hkey, hval⟩ := not_or.mp hargs
      have hins : Insertable b it db.files := (hreg.resolve_left hkey).resolve_left hval
      refine (store_spec h hkey hval hins).bind ?_
      rintro ⟨ret, db'⟩ ⟨items', -, ⟨-, -, e, k, page, -, -, -, -, -, hinv⟩ | ⟨-, hinv⟩⟩
      · exact ⟨_, _, hinv⟩
      · exact ⟨_, _, hinv⟩
  | search curtime key held =>
    cases held with
    | true => exact ⟨S, items, h⟩
    | false =>
      obtain ⟨db', hrun, hinv, -⟩ := search_spec h (hreg.resolve_left Bool.false_ne_true)
      simp only [step, hrun]
      exact ⟨_, _, hinv⟩

/-- Every call of the run is regular in the state in which it is made. -/
def Regular (b : Build) (db : Database) (calls : List Call) : Prop :=
  ∀ before call after db', calls = before ++ call :: after → db.run b before = .ok db' → call.Regular b db'

theorem Regular.tail {call : Call} {calls : List Call} (h : Regular b db (call :: calls)) {db₁ : Database}
    (hrun : db.step b call = .ok db₁) : Regular b db₁ calls := by
  intro before call' after db' heq hrun'
  refine h (call :: before) call' after db' (by rw [heq]; rfl) ?_
  rw [run, hrun]
  exact hrun'

theorem regular_nil : Regular b db [] := by
  intro before call after db' heq
  exact absurd heq (by simp)

theorem Regular.cons {call : Call} {calls : List Call} (h : call.Regular b db)
    (hrest : ∀ db₁, db.step b call = .ok db₁ → Regular b db₁ calls) : Regular b db (call :: calls) := by
  intro before call' after db' heq hrun
  cases before with
  | nil =>
    obtain ⟨rfl, -⟩ := List.cons.inj heq
    cases hrun
    exact h
  | cons x before =>
    obtain ⟨rfl, hcalls⟩ := List.cons.inj heq
    rw [run] at hrun
    cases hstep : db.step b call with
    | error e =>
      rw [hstep] at hrun
      cases hrun
    | ok db₁ =>
      rw [hstep] at hrun
      exact hrest db₁ hstep before call' after db' hcalls hrun

theorem run_inv : ∀ {calls : List Call} {db : Database} {S : Finset NodeKey} {items : NodeKey → Item},
    Inv b db S items →
    Regular b db calls → Yields Contract (db.run b calls) fun db' => ∃ S' items', Inv b db' S' items'
  | [], _, S, items, h, _ => ⟨S, items, h⟩
  | call :: calls, db, S, items, h, hreg => by
    have hstep := step_inv h (hreg [] call calls db rfl rfl)
    rw [run]
    cases hrun : db.step b call with
    | error e =>
      rw [hrun] at hstep
      exact hstep
    | ok db₁ =>
      rw [hrun] at hstep
      obtain ⟨S', items', hinv⟩ := hstep
      exact run_inv hinv (hreg.tail hrun)

end Database

end NetworkBfd.Smmr
