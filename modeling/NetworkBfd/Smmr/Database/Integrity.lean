import NetworkBfd.Smmr.Database.Calls
import NetworkBfd.Smmr.Filling

/-!
# The index and the data files

`Database.Intact`: every node of the index refers to a live item, and no two refer to a page in common. It holds after
every run of regular calls (`run_intact`), and not after a store whose offset does not fit a node
(`intact_truncated`).
-/

namespace NetworkBfd.Smmr

open Lib Lib.Bytes CategoryTree

/-- The pages that the node and the length of its item say. -/
def pagesOf (files : Datafiles) (e : NodeKey) : PageRun where
  field := e.dataField.toNat
  page := pageno (e.dataOffset.toNat - sizeofDbTableHeader)
  count :=
    match files e.dataField.toNat with
    | some f => alignedSize (itemLengthField f e.dataOffset.toNat) / ipcDatafileAligned
    | none => 0

/-- The node refers to an item with signature and length, whose key has its hash and whose pages are marked. -/
def LiveEntry (b : Build) (files : Datafiles) (e : NodeKey) : Prop :=
  e.dataField.toNat < ipcDatafileMax b ∧ ∃ f, files e.dataField.toNat = some f ∧
    itemValid f e.dataOffset.toNat = true ∧
    safeHash (read f (e.dataOffset.toNat + sizeofDataitm) (itemKeylen f e.dataOffset.toNat)) = e.keyhash ∧
    ∀ q, (pagesOf files e).page ≤ q → q < (pagesOf files e).page + (pagesOf files e).count → pageBit f q = true

theorem EntryOf.pagesOf_eq {b : Build} {it : Item} {files : Datafiles} {e : NodeKey} (h : EntryOf b files e it) :
    pagesOf files e = e.run it := by
  obtain ⟨f, hf, hit, -⟩ := h.reads
  simp only [pagesOf, hf, hit.length, NodeKey.run, Item.run, PageRun.mk.injEq, true_and]
  exact ⟨by rw [h.offset, pageno_sub], rfl⟩

namespace Database

/-- Every node of the index refers to a live item, and no two of them to a page in common. -/
def Intact (b : Build) (db : Database) : Prop :=
  ∃ S, db.inst.Indexes S ∧ (∀ e ∈ S, LiveEntry b db.files e) ∧
    ∀ e ∈ S, ∀ e' ∈ S, e ≠ e' → (pagesOf db.files e).Apart (pagesOf db.files e')

variable {b : Build} {db : Database} {S : Finset NodeKey} {items : NodeKey → Item} {curtime : BitVec 32} {it : Item}

theorem Inv.intact (h : Inv b db S items) : Intact b db := by
  have hpages : ∀ e ∈ S, pagesOf db.files e = e.run (items e) := fun e he => EntryOf.pagesOf_eq (h.holding.entries e he)
  refine ⟨S, h.indexes, fun e he => ?_, fun e he e' he' hne => ?_⟩
  · have hent := h.holding.entries e he
    obtain ⟨f, hf, hit, -⟩ := hent.reads
    refine ⟨hent.field, f, hf, hit.valid hent.short, ?_, fun q h1 h2 => ?_⟩
    · rw [hit.keylen, hit.key, hent.hash]
    · rw [hpages e he] at h1 h2
      have hused := h.holding.owned.taken e he q h1 h2
      simp only [NodeKey.run, Item.run, pageUsed, hf, taken, Bool.and_eq_true] at hused
      exact hused.2
  · rw [hpages e he, hpages e' he']
    exact h.holding.owned.apart e e' he he' hne

/-- After every run of regular calls on a database that was just initialised, whatever the clock says, every node of
the index refers to a live item on pages of its own. -/
theorem run_intact (b : Build) (db : Database) (calls : List Call) (hfresh : db.Fresh) (hblocks : db.inst.BlocksOnly)
    (halloc : db.run b calls ≠ .error .contract) (hreg : Regular b db calls) :
    ∃ db', db.run b calls = .ok db' ∧ Intact b db' := by
  rcases (run_inv (hfresh.inv hblocks fun _ => ⟨[], [], 0, by decide, by decide⟩) hreg).cases with
    ⟨db', hrun, S', items', hinv⟩ | ⟨e, hrun, rfl⟩
  · exact ⟨db', hrun, hinv.intact⟩
  · exact absurd hrun halloc

/-! ## A single file -/

/-- A store into a database with one file from which nothing was freed. -/
theorem store_single (h : Inv b db S items) (hkey : it.key ≠ []) (hval : it.val ≠ []) (hs : it.Short)
    (honly : ∀ k, k ≠ 0 → db.files k = none) {f : Bytes} {u : Nat} (hf : db.files 0 = some f) (hu : FillsTo f u)
    (hroom : u + it.pages < ipcDatafilePagecnt)
    (hov : ∀ e ∈ visited b curtime it.key db, ¬ Overwrites curtime items it e) :
    ∃ f', db.store b curtime it = (do
        let (ret, inst) ← db.inst.addTreeSafe ⟨safeHash it.key, 0, BitVec.ofNat 24 (pageOffset (u + 1))⟩
        .ok (ret, ⟨inst, Function.update db.files 0 (some f')⟩)) ∧
      Placed f f' (u + 1) it ∧ FillsTo f' (u + it.pages) := by
  have hfill := Filling.only honly hf hu
  obtain ⟨r, ⟨c, fs⟩, hrun, ⟨-, -, hflag⟩, -, -, hsame⟩ :=
    @updateTraversal_spec _ curtime _ _ _ _ h.indexes h.holding hs hval
  dsimp only at hflag hsame
  obtain rfl := hsame fun e he hn => absurd hn (hov e he)
  rcases @Filling.insertItem_filling b db.files it hfill hs with
    ⟨k, g, v, f', writes, -, hg, hv, hins, hplaced, hfills⟩ | ⟨-, hle⟩
  · have hk : k = 0 := by
      by_contra hk
      rw [honly k hk] at hg
      cases hg
    subst hk
    obtain rfl := Option.some.inj (hf.symm.trans hg)
    obtain rfl := hu.unique hv
    refine ⟨f', ?_, hplaced, hfills⟩
    rw [store, if_neg (not_or.mpr ⟨hkey, hval⟩)]
    simp only [hrun, bind, Except.bind, hflag, insertEntry, hins]
    rfl
  · have hmax : 0 < ipcDatafileMax b := by cases b <;> decide
    exact absurd ((hu.room hs).mpr hroom) (Nat.not_lt.mpr (hle 0 f hmax hf))

/-- Trees without a node, and one block for each. -/
def oneBlock : TreeInstance := fun _ =>
  ⟨fun _ => default, ∅, [.block ⟨0, 1, 168⟩ default], default, default, default, false, false, false⟩

/-- A fresh database with a single file. -/
def single : Database := ⟨oneBlock, fun k => if k = 0 then some initDatafile else none⟩

theorem single_zero : single.files 0 = some initDatafile := rfl

theorem single_other {k : Nat} (hk : k ≠ 0) : single.files k = none := if_neg hk

theorem single_fresh : single.Fresh := by
  refine ⟨fun _ => rfl, fun k => ?_⟩
  by_cases hk : k = 0
  · exact .inr (if_pos hk)
  · exact .inl (if_neg hk)

theorem single_blocks : single.inst.BlocksOnly := by
  intro c q hq
  obtain rfl := List.mem_singleton.mp hq
  rfl

theorem single_insertable (hs : it.Short) : Insertable b it single.files := by
  refine ⟨hs, (Filling.fresh single_fresh.files).not_fragmented hs, fun _ k page hfit => ?_⟩
  obtain ⟨-, rfl⟩ := Filling.firstFit_only (fun k hk => single_other hk) single_zero fillsTo_initDatafile hs hfit
  decide

/-- A node that a single file gives an item on page `u + 1`. -/
abbrev nodeAt (key : List Byte) (u : Nat) : NodeKey := ⟨safeHash key, 0, BitVec.ofNat 24 (pageOffset (u + 1))⟩

/-- Two entries fit into the block of a tree. -/
theorem adds_two {e e' : NodeKey} (he : e.keyhash ≠ 0) (he' : e'.keyhash ≠ 0)
    (hok : (oneBlock.addTreeSafe e >>= fun r => r.2.addTreeSafe e').isOk = true) :
    ∃ inst inst', oneBlock.addTreeSafe e = .ok (.ok, inst) ∧ inst.addTreeSafe e' = .ok (.ok, inst') := by
  have hspec := TreeInstance.addTreeSafe_spec (TreeInstance.indexes_empty single_fresh.rooti) single_blocks he
  cases hrun : oneBlock.addTreeSafe e with
  | error err =>
    rw [hrun] at hok
    cases hok
  | ok r =>
    rw [show single.inst = oneBlock from rfl, hrun] at hspec
    obtain ⟨ret, inst⟩ := r
    obtain ⟨rfl, hindexes, hblocks⟩ := hspec
    rw [hrun] at hok
    have hspec' := TreeInstance.addTreeSafe_spec hindexes hblocks he'
    cases hrun' : inst.addTreeSafe e' with
    | error err =>
      simp only [bind, Except.bind, hrun'] at hok
      cases hok
    | ok r' =>
      rw [hrun'] at hspec'
      obtain ⟨ret', inst'⟩ := r'
      obtain ⟨rfl, -⟩ := hspec'
      exact ⟨inst, inst', rfl, hrun'⟩

/-- The first store goes to page 1. -/
theorem single_store (hkey : it.key ≠ []) (hval : it.val ≠ []) (hs : it.Short) (hroom : it.pages < ipcDatafilePagecnt)
    {inst : TreeInstance} (hadd : oneBlock.addTreeSafe (nodeAt it.key 0) = .ok (.ok, inst)) :
    ∃ f e, single.store b curtime it = .ok (.ok, ⟨inst, Function.update single.files 0 (some f)⟩) ∧
      Placed initDatafile f 1 it ∧ FillsTo f it.pages ∧ e.keyhash = safeHash it.key ∧ e.dataField.toNat = 0 ∧
      e.page = 1 ∧
      Inv b ⟨inst, Function.update single.files 0 (some f)⟩ {e} fun _ => it := by
  have hinv := single_fresh.inv (b := b) single_blocks fun _ => it
  obtain ⟨f, hrun, hplaced, hfills⟩ := @store_single _ _ _ _ curtime _ hinv hkey hval hs
    (fun k hk => single_other hk) _ _ single_zero fillsTo_initDatafile (by rwa [Nat.zero_add])
    fun e he => absurd (visited_mem hinv.indexes e he) (Finset.notMem_empty e)
  rw [show single.inst = oneBlock from rfl, hadd] at hrun
  have hspec := @store_spec _ _ _ _ curtime _ hinv hkey hval (single_insertable hs)
  rw [hrun] at hspec
  obtain ⟨items', hitems, ⟨-, -, e, k, page, -, hhash, hfit, hfield, hpage, hinv'⟩ | ⟨hng, -⟩⟩ := hspec
  · obtain ⟨rfl, rfl⟩ := Filling.firstFit_only (fun k hk => single_other hk) single_zero fillsTo_initDatafile hs hfit
    have hone : Function.update items' e it = fun _ => it := by
      rw [hitems]
      funext x
      by_cases hx : x = e
      · subst hx
        rw [Function.update_self]
      · rw [Function.update_of_ne hx, overwritten]
        split
        · rfl
        · rfl
    rw [hone] at hinv'
    refine ⟨f, e, hrun, hplaced, by rwa [Nat.zero_add] at hfills, hhash, hfield, hpage, hinv'⟩
  · cases hng

/-- Two entries of different keys in one tree, the second with the offset of the first. -/
theorem adds_truncated : ∃ inst inst', oneBlock.addTreeSafe (nodeAt [1] 0) = .ok (.ok, inst) ∧
    inst.addTreeSafe (nodeAt [5] 131072) = .ok (.ok, inst') :=
  adds_two (by decide) (by decide) (by decide +kernel)

/-- An item with one byte of key and value. -/
def tiny (k v : Byte) : Item := ⟨[k], [v], 0, Nat.one_lt_two_pow (by decide), Nat.one_lt_two_pow (by decide)⟩

theorem tiny_short (k v : Byte) : (tiny k v).Short := by
  show 1 + 1 + sizeofDataitm ≤ _
  decide

theorem tiny_pages (k v : Byte) : (tiny k v).pages = 1 := by
  rw [Item.pages, Item.aligned, (tiny_short k v).length_eq]
  show alignedSize (sizeofDataitm + 1 + 1) / ipcDatafileAligned = 1
  decide

/-- A file that holds `u` pages takes an item behind them. -/
theorem insertable_filled {f : Bytes} {u : Nat} (hs : it.Short) (hu : FillsTo f u)
    (hoff : pageOffset (u + 1) < 2 ^ 24) :
    Insertable b it (Function.update single.files 0 (some f)) := by
  have honly : ∀ k, k ≠ 0 → Function.update single.files 0 (some f) k = none := fun k hk =>
    (Function.update_of_ne hk _ _).trans (single_other hk)
  have hzero : Function.update single.files 0 (some f) 0 = some f := Function.update_self ..
  refine ⟨hs, (Filling.only honly hzero hu).not_fragmented hs, fun _ k page hfit => ?_⟩
  obtain ⟨-, rfl⟩ := Filling.firstFit_only honly hzero hu hs hfit
  exact hoff

/-- An item of key 1 that expires after clock value 5. -/
def brief : Item := { tiny 1 2 with expire := 5 }

/-- The item expires, a second one is stored, and a search for the first gives its page back. -/
def expiring : List Call := [.store 0 brief, .store 0 (tiny 5 2), .search 9 [1] false]

theorem expiring_regular : Regular .test single expiring := by
  have hs : brief.Short := tiny_short 1 2
  obtain ⟨inst, -, hadd, -⟩ := adds_truncated
  obtain ⟨f, -, hrun, -, hfills, -⟩ := @single_store .test 0 brief (by decide) (by decide) hs (by decide) inst hadd
  have hfound : ((single.run .test [.store 0 brief, .store 0 (tiny 5 2)]).toOption.map fun db =>
      ((visited .test 9 [1] db).filter fun e => found .test 9 [1] db.files e = .expired).length) = some 1 := by
    decide +kernel
  refine Regular.cons (.inr (.inr (single_insertable hs))) fun db₁ h₁ => ?_
  refine Regular.cons (.inr (.inr ?_)) fun db₂ h₂ => Regular.cons (.inr ?_) fun _ _ => regular_nil
  · simp only [step, hrun, bind, Except.bind] at h₁
    cases h₁
    exact insertable_filled (tiny_short 5 2) hfills (by decide)
  · simp only [run, bind, Except.bind, h₁, h₂] at hfound
    exact Nat.le_trans (Nat.le_of_eq (Option.some.inj hfound)) (by decide)

/-- The page of the second item is in use, and that of the first is not. -/
theorem run_intact_expired : ∃ db', single.run .test expiring = .ok db' ∧ Intact .test db' ∧
    pageUsed db'.files 0 1 = false ∧ pageUsed db'.files 0 2 = true := by
  have hpages : ((single.run .test expiring).toOption.map fun db => (pageUsed db.files 0 1, pageUsed db.files 0 2)) =
      some (false, true) := by decide +kernel
  obtain ⟨db', hrun, hintact⟩ := run_intact .test single expiring single_fresh single_blocks (fun he => by
    rw [he] at hpages
    cases hpages) expiring_regular
  rw [hrun] at hpages
  obtain ⟨hone, htwo⟩ := Prod.mk.inj (Option.some.inj hpages)
  exact ⟨db', hrun, hintact, hone, htwo⟩

/-- A database in which the node of the second item refers to the first. -/
theorem truncated_of_length {it : Item} (hkey : it.key = [1]) (hlen : it.val.length = 16777191) :
    ∃ db, single.run .test [.store 0 it, .store 0 (tiny 5 2)] = .ok db ∧
      ¬ Intact .test db := by
  obtain ⟨inst, inst', hadd, hadd'⟩ := adds_truncated
  have hs : it.Short := by
    rw [Item.Short, hkey, hlen]
    decide
  have hpages : it.pages = 131072 := by
    rw [Item.pages, Item.aligned, hs.length_eq, hkey, hlen]
    decide
  have hval : it.val ≠ [] := by
    rintro hval
    rw [hval] at hlen
    cases hlen
  obtain ⟨f, e, hrun, hplaced, hfills, hhash, hfield, hpage, hinv⟩ := @single_store .test 0 it
    (by rw [hkey]; decide) hval hs (by rw [hpages]; decide) inst (by rw [hkey]; exact hadd)
  rw [hpages] at hfills
  rw [hkey] at hhash
  -- the second item goes to page 131073, whose offset is that of page 1 again
  obtain ⟨f', hrun', hplaced', -⟩ := @store_single .test _ {e} (fun _ => it) 0 (tiny 5 2) hinv
    (by decide) (by decide) (tiny_short 5 2)
    (fun k hk => (Function.update_of_ne hk _ _).trans (single_other hk)) f 131072
    (by simp only [Function.update_self]) hfills (by rw [tiny_pages]; decide) (fun x hx _ => by
      obtain ⟨hxe, hxh⟩ := (@visited_spec .test 0 [5] _ {e} hinv.indexes (by decide)).2.2.1 x hx
      rw [Finset.mem_singleton.mp hxe, hhash] at hxh
      exact absurd hxh (by decide))
  have hadd₂ : inst.addTreeSafe ⟨safeHash (tiny 5 2).key, 0, BitVec.ofNat 24 (pageOffset (131072 + 1))⟩ =
    .ok (.ok, inst') := hadd'
  simp only [hadd₂, bind, Except.bind, Function.update_idem] at hrun'
  refine ⟨⟨inst', Function.update single.files 0 (some f')⟩, ?_, ?_⟩
  · simp only [run, step, hrun, bind, Except.bind, hrun']
  rintro ⟨S, hS, -, hapart⟩
  have hindexes := @TreeInstance.addTreeSafe_spec _ _ hinv.indexes hinv.blocks (nodeAt [5] 131072) (by decide)
  rw [hadd'] at hindexes
  obtain rfl := hS.unique hindexes.2.1
  have he : e ∈ ({nodeAt [5] 131072, e} : Finset NodeKey) := Finset.mem_insert_of_mem (Finset.mem_singleton_self e)
  have he' : nodeAt [5] 131072 ∈ ({nodeAt [5] 131072, e} : Finset NodeKey) := Finset.mem_insert_self _ _
  have hne : e ≠ nodeAt [5] 131072 := by
    rintro rfl
    exact absurd hhash (by decide)
  -- both refer to the first item
  have hholds : HoldsItem f' (pageOffset 1) it := by
    refine hplaced.holds.congr fun i h1 h2 => hplaced'.others i ?_ (.inl ?_)
    · exact Nat.le_trans (Nat.le_add_right _ _) h1
    · have hend := @Item.Short.bytes_le it 1 hs
      rw [hpages] at hend
      exact Nat.lt_of_lt_of_le h2 hend
  have hcount : alignedSize (itemLengthField f' (pageOffset 1)) / ipcDatafileAligned = 131072 := by
    rw [hholds.length]
    exact hpages
  have hoff : e.dataOffset.toNat = pageOffset 1 := by
    rw [(hinv.holding.entries e (Finset.mem_singleton_self e)).offset, hpage]
  have hoff' : (nodeAt [5] 131072).dataOffset.toNat = pageOffset 1 := by decide
  have hor := hapart e he _ he' hne (by rw [pagesOf, pagesOf]; exact hfield)
  simp only [pagesOf, hfield, hoff, hoff', show (nodeAt [5] 131072).dataField.toNat = 0 from rfl, Function.update_self,
    hcount] at hor
  omega

/-- An item of `2 ^ 24` bytes with its header. -/
def wide : Item where
  key := [1]
  val := List.replicate 16777191 0
  expire := 0
  keylen_lt := Item.keylen_one_lt
  vallen_lt := by
    rw [List.length_replicate]
    decide

/-- Two stores into a fresh database, both of which succeed, leave two nodes that refer to the same pages. -/
theorem intact_truncated : ∃ db₀ calls db, Fresh db₀ ∧ db₀.inst.BlocksOnly ∧ db₀.run .test calls = .ok db ∧
    ¬ Intact .test db := by
  obtain ⟨db, hrun, hnot⟩ := @truncated_of_length wide rfl (@List.length_replicate _ 16777191 0)
  exact ⟨single, _, db, single_fresh, single_blocks, hrun, hnot⟩

end Database

end NetworkBfd.Smmr
