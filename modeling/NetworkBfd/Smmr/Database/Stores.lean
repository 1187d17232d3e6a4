import NetworkBfd.Smmr.Database.Integrity

/-!
# Items that never expire

Runs of stores with `expire = 0`. Nothing is freed then, so every store inserts behind what is there (`Stored`). Each
adds a node, also for a key that has one: the index holds one entry for each key exactly if no key is stored twice
(`run_oneEach`).
-/

namespace NetworkBfd.Smmr

open Lib Lib.Bytes CategoryTree

/-- The key of the item that a node refers to. -/
def keyOf (files : Datafiles) (e : NodeKey) : List Byte :=
  match files e.dataField.toNat with
  | some f => read f (e.dataOffset.toNat + sizeofDataitm) (itemKeylen f e.dataOffset.toNat)
  | none => []

theorem EntryOf.keyOf_eq {b : Build} {files : Datafiles} {e : NodeKey} {it : Item} (h : EntryOf b files e it) :
    keyOf files e = it.key := by
  obtain ⟨f, hf, hit, -⟩ := h.reads
  simp only [keyOf, hf, hit.keylen, hit.key]

theorem Filling.headers {files files' : Datafiles} (h : Filling files) (hsame : SameHeaders files files') :
    Filling files' := by
  intro k f' hf'
  obtain ⟨f, hf, ht, hr⟩ := hsame.back hf'
  obtain ⟨u, hu⟩ := h k f hf
  exact ⟨u, hu.congr ht hr⟩

namespace Database

/-- The item does not wrap, and a node can hold its offset. -/
def Placeable (b : Build) (it : Item) (files : Datafiles) : Prop :=
  it.Short ∧ (safeHash it.key ≠ 0 → ∀ k page, FirstFit b files it k page → pageOffset page < 2 ^ 24)

/-- The index holds one entry for each of the keys and no others, and the pages that are marked are those of their
items, no two with the same page. -/
def OneEach (b : Build) (db : Database) (keys : List (List Byte)) : Prop :=
  ∃ S, db.inst.Indexes S ∧
    (∀ key ∈ keys, ∃ e ∈ S, keyOf db.files e = key ∧ ∀ e' ∈ S, keyOf db.files e' = key → e' = e) ∧
    (∀ e ∈ S, LiveEntry b db.files e ∧ keyOf db.files e ∈ keys) ∧
    (∀ e ∈ S, ∀ e' ∈ S, e ≠ e' → (pagesOf db.files e).Apart (pagesOf db.files e')) ∧
    ∀ k q, pageUsed db.files k q = true → ∃ e ∈ S, (pagesOf db.files e).field = k ∧ (pagesOf db.files e).page ≤ q ∧
      q < (pagesOf db.files e).page + (pagesOf db.files e).count

/-- The state of a database into which only items that do not expire were stored. -/
structure Stored (b : Build) (db : Database) (S : Finset NodeKey) (items : NodeKey → Item) : Prop where
  inv : Inv b db S items
  filling : Filling db.files
  lasting : ∀ e ∈ S, (items e).expire = 0

variable {b : Build} {db db' : Database} {S : Finset NodeKey} {items : NodeKey → Item} {curtime : BitVec 32} {it : Item}
  {ret : Ret}

theorem Fresh.stored (h : Fresh db) (hblocks : db.inst.BlocksOnly) (items : NodeKey → Item) : Stored b db ∅ items :=
  ⟨h.inv hblocks items, Filling.fresh h.files, fun _ he => absurd he (Finset.notMem_empty _)⟩

theorem Stored.insertable (h : Stored b db S items) (hp : Placeable b it db.files) : Insertable b it db.files :=
  ⟨hp.1, h.filling.not_fragmented hp.1, hp.2⟩

theorem insertEntry_files {r : Ret × Database} (h : db.insertEntry b it = .ok r) :
    r.2.files = (insertItem b it db.files).2 := by
  unfold insertEntry at h
  rcases hins : insertItem b it db.files with ⟨_ | p, files⟩
  · simp only [hins] at h
    cases h
    rfl
  · simp only [hins] at h
    cases hadd : db.inst.addTreeSafe (p.resultnode (safeHash it.key)) with
    | error e =>
      simp only [hadd, bind, Except.bind] at h
      cases h
    | ok a =>
      simp only [hadd, bind, Except.bind] at h
      cases h
      rfl

theorem insertEntry_filling (h : Filling db.files) (hs : it.Short) {r : Ret × Database}
    (hrun : db.insertEntry b it = .ok r) : Filling r.2.files := by
  rw [insertEntry_files hrun]
  exact h.insertItem hs

theorem overwritten_expire {L : List NodeKey} (e : NodeKey) :
    (overwritten curtime items it L e).expire = (items e).expire := by
  rw [overwritten]
  split <;> rfl

theorem overwritten_key {L : List NodeKey} (e : NodeKey) : (overwritten curtime items it L e).key = (items e).key := by
  rw [overwritten]
  split <;> rfl

/-- A store of an item that does not expire. -/
theorem Stored.store (h : Stored b db S items) (hkey : it.key ≠ []) (hval : it.val ≠ []) (hp : Placeable b it db.files)
    (hlast : it.expire = 0) :
    Yields Contract (db.store b curtime it) fun r =>
      (r.1 = .ok ∧ safeHash it.key ≠ 0 ∧ ∃ e, e ∉ S ∧ Stored b r.2 (insert e S)
        (Function.update (overwritten curtime items it (visited b curtime it.key db)) e it)) ∨
      (r.1 = .ng ∧ Stored b r.2 S (overwritten curtime items it (visited b curtime it.key db))) := by
  obtain ⟨db₁, hrun, -, hheaders, hinv, -⟩ := @store_eq _ _ _ _ curtime _ h.inv hkey hval (h.insertable hp)
  rw [hrun]
  have hspec := insertEntry_spec hinv hkey hval ((h.insertable hp).headers hheaders)
  cases hins : db₁.insertEntry b it with
  | error e =>
    rw [hins] at hspec
    exact hspec
  | ok r =>
    rw [hins] at hspec
    have hfill := insertEntry_filling (h.filling.headers hheaders) hp.1 hins
    have hlasting : ∀ e ∈ S, (overwritten curtime items it (visited b curtime it.key db) e).expire = 0 := fun e he => by
      rw [overwritten_expire]
      exact h.lasting e he
    rcases hspec with ⟨hok, hh, e, k, page, hnew, -, -, -, -, -, hinv'⟩ | ⟨hng, hinv', -⟩
    · refine .inl ⟨hok, hh, e, hnew, hinv', hfill, fun x hx => ?_⟩
      by_cases hxe : x = e
      · subst hxe
        rw [Function.update_self]
        exact hlast
      · rw [Function.update_of_ne hxe]
        exact hlasting x ((Finset.mem_insert.mp hx).resolve_left hxe)
    · exact .inr ⟨hng, hinv', hfill, hlasting⟩

/-! ## One entry for each key -/

/-- The entries of the keys `keys`; if no key is stored twice, no page is lost. -/
structure Counted (b : Build) (db : Database) (S : Finset NodeKey) (items : NodeKey → Item) (keys : List (List Byte)) :
    Prop where
  stored : Stored b db S items
  keys_eq : S.val.map (fun e => (items e).key) = (keys : Multiset (List Byte))
  covered : keys.Nodup → ∀ k q, pageUsed db.files k q = true →
    ∃ e ∈ S, (e.run (items e)).field = k ∧ (e.run (items e)).page ≤ q ∧
      q < (e.run (items e)).page + (e.run (items e)).count

theorem Fresh.counted (h : Fresh db) (hblocks : db.inst.BlocksOnly) (items : NodeKey → Item) :
    Counted b db ∅ items [] := by
  refine ⟨h.stored hblocks items, rfl, fun _ k q hq => ?_⟩
  rw [pageUsed] at hq
  rcases h.files k with hk | hk
  · simp only [hk, Bool.false_eq_true] at hq
  · simp only [hk, fillsTo_initDatafile.taken, decide_eq_true_eq] at hq
    omega

/-- A store that succeeds adds an entry for its key. -/
theorem Counted.store {keys : List (List Byte)} (h : Counted b db S items keys) (hkey : it.key ≠ [])
    (hval : it.val ≠ [])
    (hp : Placeable b it db.files) (hlast : it.expire = 0) (hok : db.store b curtime it = .ok (.ok, db')) :
    ∃ S' items', Counted b db' S' items' (keys ++ [it.key]) := by
  obtain ⟨db₁, hrun, -, hheaders, hinv, hkeep⟩ :=
    @store_eq _ _ _ _ curtime _ h.stored.inv hkey hval (h.stored.insertable hp)
  have hspec := insertEntry_spec hinv hkey hval ((h.stored.insertable hp).headers hheaders)
  rw [hrun] at hok
  rw [hok] at hspec
  rcases hspec with ⟨-, -, e, k, page, hnew, -, hinserted, -, hfield, hpage, hinv'⟩ | ⟨hng, -⟩
  · have hne : ∀ x ∈ S, x ≠ e := by
      rintro x hx rfl
      exact hnew hx
    have hfill := insertEntry_filling (h.stored.filling.headers hheaders) hp.1 hok
    refine ⟨insert e S, Function.update (overwritten curtime items it (visited b curtime it.key db)) e it,
      ⟨hinv', hfill, fun x hx => ?_⟩, ?_, fun hnd k' q hq => ?_⟩
    · by_cases hxe : x = e
      · subst hxe
        rw [Function.update_self]
        exact hlast
      · rw [Function.update_of_ne hxe, overwritten_expire]
        exact h.stored.lasting x ((Finset.mem_insert.mp hx).resolve_left hxe)
    · have hcongr :
        S.val.map (fun x => (Function.update (overwritten curtime items it (visited b curtime it.key db)) e it
          x).key) = S.val.map fun x => (items x).key := by
        refine Multiset.map_congr rfl fun x hx => ?_
        rw [Function.update_of_ne (hne x (Finset.mem_val.mp hx)), overwritten_key]
      rw [Finset.insert_val_of_notMem hnew, Multiset.map_cons, Function.update_self, hcongr, h.keys_eq,
        Multiset.cons_coe, Multiset.coe_eq_coe]
      exact (List.perm_append_singleton _ _).symm
    · -- no entry of the key was there before, so none was overwritten
      obtain ⟨hndkeys, -, hdisj⟩ := List.nodup_append.mp hnd
      have hnokey : ∀ x ∈ S, (items x).key ≠ it.key := by
        intro x hx hxk
        have hmem : (items x).key ∈ (keys : Multiset (List Byte)) := by
          rw [← h.keys_eq]
          exact Multiset.mem_map_of_mem _ (Finset.mem_val.mpr hx)
        exact hdisj _ (Multiset.mem_coe.mp hmem) it.key (List.mem_singleton_self _) hxk
      have hno : ∀ x ∈ visited b curtime it.key db, ¬ Overwrites curtime items it x := fun x hx hov =>
        hnokey x (visited_mem h.stored.inv.indexes x hx) hov.2.1
      obtain rfl := hkeep fun x hx hov => absurd hov (hno x hx)
      have hsame : ∀ x ∈ S, Function.update (overwritten curtime items it (visited b curtime it.key db₁)) e it x =
          items x := by
        intro x hx
        rw [Function.update_of_ne (hne x hx), overwritten, if_neg fun hn => hno x hn.1 hn.2]
      rw [hinserted.used] at hq
      split at hq
      · rename_i hin
        refine ⟨e, Finset.mem_insert_self e S, ?_⟩
        rw [Function.update_self]
        simp only [NodeKey.run, Item.run, hfield, hpage]
        exact ⟨hin.1.symm, hin.2⟩
      · obtain ⟨x, hx, hxrun⟩ := h.covered hndkeys k' q hq
        refine ⟨x, Finset.mem_insert_of_mem hx, ?_⟩
        rw [hsame x hx]
        exact hxrun
  · cases hng

/-- The index holds one entry for each key exactly if no key was stored twice. -/
theorem Counted.oneEach_iff {keys : List (List Byte)} (h : Counted b db S items keys) :
    OneEach b db keys ↔ keys.Nodup := by
  have hentry := h.stored.inv.holding.entries
  have hkeyOf : ∀ e ∈ S, keyOf db.files e = (items e).key := fun e he => (hentry e he).keyOf_eq
  have hpages : ∀ e ∈ S, pagesOf db.files e = e.run (items e) := fun e he => (hentry e he).pagesOf_eq
  have hmem : ∀ e ∈ S, (items e).key ∈ keys := fun e he => by
    have hkey : (items e).key ∈ (keys : Multiset (List Byte)) := by
      rw [← h.keys_eq]
      exact Multiset.mem_map_of_mem _ (Finset.mem_val.mpr he)
    exact Multiset.mem_coe.mp hkey
  have hnodup : keys.Nodup ↔ ∀ e ∈ S, ∀ e' ∈ S, (items e).key = (items e').key → e = e' := by
    rw [← Multiset.coe_nodup, ← h.keys_eq]
    exact Multiset.nodup_map_iff_inj_on S.nodup
  rw [hnodup]
  constructor
  · rintro ⟨S', hS', hone, -, -, -⟩ e he e' he' hkk
    obtain rfl := h.stored.inv.indexes.unique hS'
    obtain ⟨x, -, -, hx⟩ := hone _ (hmem e he)
    exact (hx e he (hkeyOf e he)).trans (hx e' he' ((hkeyOf e' he').trans hkk.symm)).symm
  · intro hinj
    obtain ⟨S', hS', hlive, hapart⟩ := h.stored.inv.intact
    obtain rfl := h.stored.inv.indexes.unique hS'
    refine ⟨S, h.stored.inv.indexes, fun key hk => ?_, fun e he => ⟨hlive e he, ?_⟩, hapart, fun k q hq => ?_⟩
    · have hk' : key ∈ S.val.map fun e => (items e).key := by
        rw [h.keys_eq]
        exact Multiset.mem_coe.mpr hk
      obtain ⟨e, he, rfl⟩ := Multiset.mem_map.mp hk'
      refine ⟨e, he, hkeyOf e he, fun e' he' hkk => ?_⟩
      exact hinj e' he' e he ((hkeyOf e' he').symm.trans hkk)
    · rw [hkeyOf e he]
      exact hmem e he
    · obtain ⟨e, he, hrun⟩ := h.covered (hnodup.mpr hinj) k q hq
      refine ⟨e, he, ?_⟩
      rwa [hpages e he]

/-! ## Runs -/

/-- A store with what it returned. -/
structure StoreCall where
  curtime : BitVec 32
  it : Item
  ret : Ret

/-- Stores lead from `db` to another database. -/
inductive Stores (b : Build) (db : Database) : List StoreCall → Database → Prop
  | nil : Stores b db [] db
  | snoc {db₁ db₂ : Database} {stores : List StoreCall} {s : StoreCall} :
    Stores b db stores db₁ → db₁.store b s.curtime s.it = .ok (s.ret, db₂) → Stores b db (stores ++ [s]) db₂

theorem Stores.nil_eq (h : Stores b db [] db') : db' = db := by
  generalize hs : ([] : List StoreCall) = stores at h
  cases h with
  | nil => rfl
  | snoc _ _ => exact absurd hs (by simp)

theorem store_args (h : db.store b curtime it = .ok (.ok, db')) : it.key ≠ [] ∧ it.val ≠ [] := by
  refine not_or.mp fun hargs => ?_
  rw [Database.store, if_pos hargs] at h
  cases h

/-- What holds in the state before each of the stores. -/
def BeforeEach (b : Build) (db : Database) (stores : List StoreCall) (P : StoreCall → Database → Prop) : Prop :=
  ∀ before s after db₁, stores = before ++ s :: after → Stores b db before db₁ → P s db₁

theorem BeforeEach.init {stores : List StoreCall} {s : StoreCall} {P : StoreCall → Database → Prop}
    (h : BeforeEach b db (stores ++ [s]) P) : BeforeEach b db stores P := by
  intro before s' after db₁ heq hrun
  exact h before s' (after ++ [s]) db₁ (by rw [heq, List.append_assoc, List.cons_append]) hrun

theorem BeforeEach.last {stores : List StoreCall} {s : StoreCall} {P : StoreCall → Database → Prop}
    (h : BeforeEach b db (stores ++ [s]) P) (hrun : Stores b db stores db') : P s db' := h stores s [] db' rfl hrun

theorem BeforeEach.nil {P : StoreCall → Database → Prop} : BeforeEach b db [] P :=
  fun _ _ _ _ heq => absurd heq (by simp)

theorem BeforeEach.snoc {stores : List StoreCall} {s : StoreCall} {P : StoreCall → Database → Prop}
    (h : BeforeEach b db stores P)
    (hs : ∀ db₁, Stores b db stores db₁ → P s db₁) : BeforeEach b db (stores ++ [s]) P := by
  intro before s' after db₁ heq hrun
  rcases List.eq_nil_or_concat after with rfl | ⟨after', s'', rfl⟩
  · obtain ⟨rfl, hss⟩ := List.append_inj' heq rfl
    obtain rfl := List.singleton_inj.mp hss
    exact hs db₁ hrun
  · rw [List.concat_eq_append, ← List.cons_append, ← List.append_assoc] at heq
    exact h before s' after' db₁ (List.append_inj' heq rfl).1 hrun

theorem Stores.snoc_inv {stores : List StoreCall} {s : StoreCall} (h : Stores b db (stores ++ [s]) db') :
    ∃ db₁, Stores b db stores db₁ ∧ db₁.store b s.curtime s.it = .ok (s.ret, db') := by
  generalize hl : stores ++ [s] = l at h
  cases h with
  | nil => exact absurd hl (by simp)
  | snoc hstores hrun =>
    obtain ⟨rfl, hs⟩ := List.append_inj' hl rfl
    obtain rfl := List.singleton_inj.mp hs
    exact ⟨_, hstores, hrun⟩

/-- The state before a store is the one that the stores before it lead to. -/
theorem Stores.unique {stores : List StoreCall} {db₁ db₂ : Database} (h : Stores b db stores db₁)
    (h' : Stores b db stores db₂) : db₂ = db₁ := by
  induction h generalizing db₂ with
  | nil => exact h'.nil_eq
  | snoc _ hrun ih =>
    obtain ⟨db₃, hstores, hrun'⟩ := h'.snoc_inv
    rw [ih hstores, hrun] at hrun'
    exact (Prod.mk.inj (Except.ok.inj hrun')).2.symm

theorem Stores.counted {stores : List StoreCall} (h : Stores b db stores db') (hfresh : db.Fresh)
    (hblocks : db.inst.BlocksOnly) : (∀ s ∈ stores, s.it.expire = 0 ∧ s.ret = .ok) →
    BeforeEach b db stores (fun s db₁ => Placeable b s.it db₁.files) →
    ∃ S items, Counted b db' S items (stores.map fun s => s.it.key) := by
  induction h with
  | nil => exact fun _ _ => ⟨∅, fun _ => ⟨[], [], 0, by decide, by decide⟩, hfresh.counted hblocks _⟩
  | @snoc db₁ db₂ stores s hstores hrun ih =>
    intro hall hplace
    obtain ⟨S, items, hcounted⟩ := ih (fun s hs => hall s (List.mem_append_left _ hs)) hplace.init
    obtain ⟨hlast, hok⟩ := hall s (List.mem_append_right _ (List.mem_singleton_self s))
    rw [hok] at hrun
    obtain ⟨hkey, hval⟩ := store_args hrun
    obtain ⟨S', items', hcounted'⟩ := hcounted.store hkey hval (hplace.last hstores) hlast hrun
    refine ⟨S', items', ?_⟩
    rw [List.map_append]
    exact hcounted'

/-- After stores that all succeed, of items that do not expire and that nodes can refer to, the index holds one entry
for each key, and the files one item, exactly if no key was stored twice. -/
theorem run_oneEach (b : Build) {db₀ db : Database} {stores : List StoreCall} (hfresh : db₀.Fresh)
    (hblocks : db₀.inst.BlocksOnly) (hrun : Stores b db₀ stores db)
    (hall : ∀ s ∈ stores, s.it.expire = 0 ∧ s.ret = .ok)
    (hplace : BeforeEach b db₀ stores fun s db₁ => Placeable b s.it db₁.files) :
    OneEach b db (stores.map fun s => s.it.key) ↔ (stores.map fun s => s.it.key).Nodup := by
  obtain ⟨S, items, hcounted⟩ := hrun.counted hfresh hblocks hall hplace
  exact hcounted.oneEach_iff

/-! ## A key that is stored twice -/

theorem mem_two {s₁ s₂ s : StoreCall} (h : s ∈ [] ++ [s₁] ++ [s₂]) : s = s₁ ∨ s = s₂ := by
  simpa only [List.nil_append, List.cons_append, List.mem_cons, List.not_mem_nil, or_false] using h

/-- An item of two pages. -/
def long : Item where
  key := [1]
  val := List.replicate 200 7
  expire := 0
  keylen_lt := Item.keylen_one_lt
  vallen_lt := by
    rw [List.length_replicate]
    decide

theorem length_long : long.key.length = 1 ∧ long.val.length = 200 := ⟨rfl, @List.length_replicate _ 200 7⟩

theorem long_short : long.Short := by
  rw [Item.Short, length_long.1, length_long.2]
  decide

theorem long_pages : long.pages = 2 := by
  rw [Item.pages, Item.aligned, long_short.length_eq, length_long.1, length_long.2]
  decide

/-- Both entries of the key fit into the block of a tree, and a search that each of them stops reaches the first. -/
theorem adds_same : ∃ inst inst', oneBlock.addTreeSafe (nodeAt [1] 0) = .ok (.ok, inst) ∧
    inst.addTreeSafe (nodeAt [1] 1) = .ok (.ok, inst') :=
  adds_two (by decide) (by decide) (by decide +kernel)

/-- A short value and a longer one are stored under one key. -/
theorem stores_twice : ∃ inst inst' f f' e e' db₁ db₂, oneBlock.addTreeSafe (nodeAt [1] 0) = .ok (.ok, inst) ∧
    inst.addTreeSafe (nodeAt [1] 1) = .ok (.ok, inst') ∧ db₁ = ⟨inst, Function.update single.files 0 (some f)⟩ ∧
    db₂ = ⟨inst', Function.update single.files 0 (some f')⟩ ∧
    single.store .test 0 (tiny 1 2) = .ok (.ok, db₁) ∧ db₁.store .test 0 long = .ok (.ok, db₂) ∧
    Placeable .test long db₁.files ∧ e.page = 1 ∧ e'.page = 2 ∧ e.dataField = 0 ∧ e'.dataField = 0 ∧
    Inv .test db₂ {e', e} (Function.update (fun _ => tiny 1 2) e' long) := by
  obtain ⟨inst, inst', hadd, hadd'⟩ := adds_same
  obtain ⟨f, e, hrun, hplaced, hfills, hhash, hfield, hpage, hinv⟩ := @single_store .test 0 (tiny 1 2) (by decide)
    (by decide) (tiny_short 1 2) (by rw [tiny_pages]; decide) inst hadd
  rw [tiny_pages] at hfills
  have honly : ∀ k, k ≠ 0 → Function.update single.files 0 (some f) k = none := fun k hk =>
    (Function.update_of_ne hk _ _).trans (single_other hk)
  have hzero : Function.update single.files 0 (some f) 0 = some f := Function.update_self ..
  have hno : ∀ x : NodeKey, ¬ Overwrites 0 (fun _ => tiny 1 2) long x := by
    rintro x ⟨-, -, hle⟩
    rw [long_short.aligned_eq.1, (tiny_short 1 2).aligned_eq.1, long_pages, tiny_pages] at hle
    exact absurd hle (by decide)
  have hval : long.val ≠ [] := fun h => by
    have hlen := length_long.2
    rw [h] at hlen
    cases hlen
  have hins : Insertable .test long (Function.update single.files 0 (some f)) :=
    insertable_filled long_short hfills (by decide)
  obtain ⟨f', hrun', hplaced', -⟩ := @store_single .test _ {e} (fun _ => tiny 1 2) 0 long hinv (by decide) hval
    long_short
    honly f 1 hzero hfills (by rw [long_pages]; decide) fun x _ => hno x
  have hadd₂ : inst.addTreeSafe ⟨safeHash long.key, 0, BitVec.ofNat 24 (pageOffset (1 + 1))⟩ = .ok (.ok, inst') := hadd'
  simp only [hadd₂, bind, Except.bind, Function.update_idem] at hrun'
  have hspec := @store_spec _ _ _ _ 0 _ hinv (by decide) hval hins
  rw [hrun'] at hspec
  obtain ⟨items', hitems, ⟨-, -, e', k, page, hnew, hhash', hfit, hfield', hpage', hinv'⟩ | ⟨hng, -⟩⟩ := hspec
  · obtain ⟨rfl, rfl⟩ := Filling.firstFit_only honly hzero hfills long_short hfit
    have hsame : items' = fun _ => tiny 1 2 := by
      rw [hitems]
      funext x
      rw [overwritten, if_neg fun hn => hno x hn.2]
    rw [hsame] at hinv'
    exact ⟨inst, inst', f, f', e, e', _, _, hadd, hadd', rfl, rfl, hrun, hrun', ⟨hins.1, hins.2.2⟩, hpage, hpage',
      BitVec.eq_of_toNat_eq hfield, BitVec.eq_of_toNat_eq hfield', hinv'⟩
  · cases hng

/-- A second item behind the first one of key 1. -/
theorem single_then {it : Item} (hok : (do
    let (ret, db) ← single.store .test 0 (tiny 1 2)
    let (ret', _) ← db.store .test 0 it
    .ok (ret, ret') : Except Fault (Ret × Ret)).toOption = some (.ok, .ok)) :
    ∃ db₁ db₂ e, single.store .test 0 (tiny 1 2) = .ok (.ok, db₁) ∧ db₁.store .test 0 it = .ok (.ok, db₂) ∧
      e.keyhash = safeHash [1] ∧ Inv .test db₁ {e} (fun _ => tiny 1 2) ∧ ∀ it' : Item, it'.Short →
        Insertable .test it' db₁.files := by
  obtain ⟨inst, inst', hadd, -⟩ := adds_same
  obtain ⟨f, e, hrun, -, hfills, hhash, -, -, hinv⟩ := @single_store .test 0 (tiny 1 2) (by decide) (by decide)
    (tiny_short 1 2) (by rw [tiny_pages]; decide) inst hadd
  rw [tiny_pages] at hfills
  simp only [hrun, bind, Except.bind] at hok
  generalize hdb : (⟨inst, Function.update single.files 0 (some f)⟩ : Database) = db₁ at hrun hok hinv
  cases hrun' : db₁.store .test 0 it with
  | error err =>
    rw [hrun'] at hok
    cases hok
  | ok r =>
    rw [hrun'] at hok
    obtain ⟨ret, db₂⟩ := r
    obtain ⟨-, rfl⟩ := Prod.mk.inj (Option.some.inj hok)
    refine ⟨db₁, db₂, e, hrun, hrun', hhash, hinv, fun it' hs => ?_⟩
    subst hdb
    exact insertable_filled hs hfills (by decide)

theorem Insertable.placeable {files : Datafiles} (h : Insertable b it files) : Placeable b it files := ⟨h.1, h.2.2⟩

/-- Two keys, each of which is stored once. -/
theorem run_oneEach_two : ∃ db, Stores .test single ([] ++ [⟨0, tiny 1 2, .ok⟩] ++ [⟨0, tiny 5 2, .ok⟩]) db ∧
    OneEach .test db [[1], [5]] := by
  obtain ⟨db₁, db₂, e, hrun, hrun', -, -, hins⟩ := @single_then (tiny 5 2) (by decide +kernel)
  have hstores : Stores .test single ([] ++ [⟨0, tiny 1 2, .ok⟩]) db₁ := Stores.nil.snoc hrun
  have hstores' : Stores .test single ([] ++ [⟨0, tiny 1 2, .ok⟩] ++ [⟨0, tiny 5 2, .ok⟩]) db₂ := hstores.snoc hrun'
  refine ⟨db₂, hstores', (run_oneEach .test single_fresh single_blocks hstores' (fun s hs => ?_)
    ((BeforeEach.nil.snoc fun db h => ?_).snoc fun db h => ?_)).mpr (by decide)⟩
  · rcases mem_two hs with rfl | rfl <;> exact ⟨rfl, rfl⟩
  · obtain rfl := h.nil_eq
    exact (single_insertable (tiny_short 1 2)).placeable
  · obtain rfl := hstores.unique h
    exact (hins _ (tiny_short 5 2)).placeable

/-- A value is stored under a key, and then a longer one: the index holds two entries for it. -/
theorem oneEach_twice : ∃ db₀ stores db, Fresh db₀ ∧ db₀.inst.BlocksOnly ∧ Stores .test db₀ stores db ∧
    (∀ s ∈ stores, s.it.expire = 0 ∧ s.ret = .ok) ∧ ¬ OneEach .test db (stores.map fun s => s.it.key) := by
  obtain ⟨inst, inst', f, f', e, e', db₁, db₂, -, -, -, -, hrun, hrun', hplace, -⟩ := stores_twice
  refine ⟨single, [] ++ [⟨0, tiny 1 2, .ok⟩] ++ [⟨0, long, .ok⟩], db₂, single_fresh, single_blocks,
    (Stores.nil.snoc hrun).snoc hrun', fun s hs => ?_, fun hone => ?_⟩
  · rcases mem_two hs with rfl | rfl
    · exact ⟨rfl, rfl⟩
    · exact ⟨rfl, rfl⟩
  · have hplace₁ : Placeable .test (tiny 1 2) single.files :=
      ⟨tiny_short 1 2, (single_insertable (tiny_short 1 2)).2.2⟩
    obtain ⟨hkey, hval⟩ := store_args hrun
    obtain ⟨hkey', hval'⟩ := store_args hrun'
    obtain ⟨S₁, items₁, h₁⟩ := (single_fresh.counted (b := .test) single_blocks fun _ => long).store hkey hval
      hplace₁ rfl
      hrun
    obtain ⟨S₂, items₂, h₂⟩ := h₁.store hkey' hval' hplace rfl hrun'
    exact absurd (h₂.oneEach_iff.mp hone) (by decide)

end Database

end NetworkBfd.Smmr
