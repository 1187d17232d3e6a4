import NetworkBfd.Smmr.Database.Calls
import Mathlib.Logic.Relation

/-!
# The critical sections of `store` and `search`

A call of a process goes through critical sections, each under one mutex: the traversal of the index, one data file
after the other, and the change of the index. `Call.advance` is one of them, and a schedule says whose turn it is
(`Processes.run`); a process that makes several calls is several of these, one behind the other. Calls that find nobody
else in between are `store` and `search` (`alone_store`, `alone_search`).
-/

namespace NetworkBfd.Smmr

open Lib Lib.Bytes CategoryTree Database

/-- Where a process is in its call: what its next critical section does. -/
inductive Pc
  | traverse
  | removeOld (node : NodeKey)
  | freeOld (node : NodeKey)
  | freepage (distid : List Nat)
  | append (distid : List Nat)
  | addTree (p : Placement)
  | removeReserved (ret : Ret) (val : List Byte) (nodes : List NodeKey)
  | returned (ret : Ret) (val : List Byte)

/-- The next section of `store`. A file is tried at a time. -/
def storeSection (b : Build) (curtime : BitVec 32) (it : Item) (db : Database) : Pc → Except Fault (Pc × Database)
  | .traverse =>
    if it.key = [] ∨ it.val = [] then .ok (.returned .ng [], db)
    else do
      let hashedid := safeHash it.key
      let container : FindContainer := ⟨hashedid, it.key, it.val, .moredata, default, []⟩
      let (_, container, files) ← db.inst.findTreeOnlyKeyhashSafe hashedid (findindexCallbackForUpdateInsert b curtime)
        (container, db.files)
      let pc := match container.flag with
        | .warn => Pc.removeOld container.resultnode
        | .moredata => .freepage (distid b it)
        | .ok => .returned .ok []
        | .ng => .returned .ng []
      .ok (pc, { db with files := files })
  | .removeOld node => do
    let (ret, inst) ← db.inst.removeTreeSafe node
    .ok (if ret ≠ .ok then .returned .ng [] else .freeOld node, { db with inst := inst })
  | .freeOld node =>
    let (ret, files) := changeFreeToDatafile b node db.files
    .ok (if ret ≠ .ok then .returned .ng [] else .freepage (distid b it), { db with files := files })
  | .freepage [] => .ok (.append (distid b it), db)
  | .freepage (n :: ns) =>
    match tryFiles freepageRound it [n] db.files with
    | (some p, files) => .ok (.addTree p, { db with files := files })
    | (none, files) => .ok (.freepage ns, { db with files := files })
  | .append [] => .ok (.returned .ng [], db)
  | .append (n :: ns) =>
    match tryFiles appendRound it [n] db.files with
    | (some p, files) => .ok (.addTree p, { db with files := files })
    | (none, files) => .ok (.append ns, { db with files := files })
  | .addTree p => do
    let (ret, inst) ← db.inst.addTreeSafe (p.resultnode (safeHash it.key))
    .ok (.returned ret [], { db with inst := inst })
  | pc => .ok (pc, db)

/-- The next section of `search`. -/
def searchSection (b : Build) (curtime : BitVec 32) (key : List Byte) (held : Bool) (db : Database) :
    Pc → Except Fault (Pc × Database)
  | .traverse =>
    if held then .ok (.returned .ng [], db)
    else do
      let hashedid := safeHash key
      let container : FindContainer := ⟨hashedid, key, [], .ng, default, []⟩
      let (_, container, files) ← db.inst.findTreeOnlyKeyhashSafe hashedid (findindexCallbackForSearch b curtime)
        (container, db.files)
      let (ret, val) := if container.val ≠ [] ∧ container.flag = .ok then (Ret.ok, container.val) else (.ng, [])
      .ok (.removeReserved ret val container.removeReserved, { db with files := files })
  | .removeReserved ret val [] => .ok (.returned ret val, db)
  | .removeReserved ret val (node :: nodes) =>
    if node.isEmpty then .ok (.returned ret val, db)
    else do
      let (_, inst) ← db.inst.removeTreeSafe node
      .ok (.removeReserved ret val nodes, { db with inst := inst })
  | pc => .ok (pc, db)

/-- The next critical section of a call. -/
def Call.advance (b : Build) (db : Database) (pc : Pc) : Call → Except Fault (Pc × Database)
  | .store curtime it => storeSection b curtime it db pc
  | .search curtime key held => searchSection b curtime key held db pc

/-- Processes, each in a call, on one database. -/
structure Processes (ι : Type) where
  db : Database
  pc : ι → Pc

namespace Processes

variable {ι : Type} [DecidableEq ι]

def start (db : Database) : Processes ι := ⟨db, fun _ => .traverse⟩

/-- It is the turn of process `i`. -/
def step (b : Build) (calls : ι → Call) (s : Processes ι) (i : ι) : Except Fault (Processes ι) := do
  let (pc, db) ← (calls i).advance b s.db (s.pc i)
  .ok ⟨db, Function.update s.pc i pc⟩

def run (b : Build) (calls : ι → Call) : Processes ι → List ι → Except Fault (Processes ι)
  | s, [] => .ok s
  | s, i :: sched => do
    let s ← s.step b calls i
    run b calls s sched

/-- No item that was just placed ends behind the first `2 ^ 24` bytes of its file. -/
def Within (s : Processes ι) : Prop := ∀ i p, s.pc i = .addTree p → ∀ w ∈ p.writes, w.1 + w.2 ≤ 2 ^ 24

end Processes

/-! ## Calls that are alone -/

section Alone

variable {b : Build} {db db' : Database} {curtime : BitVec 32} {it : Item} {key : List Byte} {held : Bool} {ret : Ret}
  {val : List Byte}

/-- The call goes through sections with nobody in between. -/
def Call.Alone (b : Build) (call : Call) : Pc × Database → Pc × Database → Prop :=
  Relation.ReflTransGen fun x y => call.advance b x.2 x.1 = .ok y

theorem Call.Alone.step {call : Call} {x y z : Pc × Database} (h : call.advance b x.2 x.1 = .ok y)
    (hy : call.Alone b y z) : call.Alone b x z := Relation.ReflTransGen.head h hy

/-- The loop over the files. -/
theorem alone_freepage : ∀ (ns : List Nat) (db : Database) {p : Option Placement} {files : Datafiles},
    tryFiles freepageRound it ns db.files = (p, files) → (Call.store curtime it).Alone b (.freepage ns, db)
      ((match p with | some p => .addTree p | none => .append (distid b it)), { db with files := files })
  | [], db, p, files, h => by
    obtain ⟨rfl, rfl⟩ := Prod.mk.inj h
    exact .single rfl
  | n :: ns, db, p, files, h => by
    cases hf : db.files n with
    | none =>
      rw [tryFiles, hf] at h
      refine .step (y := (.freepage ns, db)) ?_ (alone_freepage ns db h)
      simp only [Call.advance, storeSection, tryFiles, hf]
    | some f =>
      rcases hround : freepageRound n f it with ⟨_ | q, f'⟩
      · simp only [tryFiles, hf, hround] at h
        refine .step (y := (.freepage ns, { db with files := Function.update db.files n (some f') })) ?_
          (alone_freepage ns _ h)
        simp only [Call.advance, storeSection, tryFiles, hf, hround]
      · simp only [tryFiles, hf, hround] at h
        obtain ⟨rfl, rfl⟩ := Prod.mk.inj h
        refine .single ?_
        simp only [Call.advance, storeSection, tryFiles, hf, hround]

theorem alone_append : ∀ (ns : List Nat) (db : Database) {p : Option Placement} {files : Datafiles},
    tryFiles appendRound it ns db.files = (p, files) → (Call.store curtime it).Alone b (.append ns, db)
      ((match p with | some p => .addTree p | none => .returned .ng []), { db with files := files })
  | [], db, p, files, h => by
    obtain ⟨rfl, rfl⟩ := Prod.mk.inj h
    exact .single rfl
  | n :: ns, db, p, files, h => by
    cases hf : db.files n with
    | none =>
      rw [tryFiles, hf] at h
      refine .step (y := (.append ns, db)) ?_ (alone_append ns db h)
      simp only [Call.advance, storeSection, tryFiles, hf]
    | some f =>
      rcases hround : appendRound n f it with ⟨_ | q, f'⟩
      · simp only [tryFiles, hf, hround] at h
        refine .step (y := (.append ns, { db with files := Function.update db.files n (some f') })) ?_
          (alone_append ns _ h)
        simp only [Call.advance, storeSection, tryFiles, hf, hround]
      · simp only [tryFiles, hf, hround] at h
        obtain ⟨rfl, rfl⟩ := Prod.mk.inj h
        refine .single ?_
        simp only [Call.advance, storeSection, tryFiles, hf, hround]

/-- The end of both branches of `store`. -/
theorem alone_insertEntry (h : db.insertEntry b it = .ok (ret, db')) :
    (Call.store curtime it).Alone b (.freepage (distid b it), db) (.returned ret [], db') := by
  have hadd : ∀ p files, (do
      let (ret, inst) ← db.inst.addTreeSafe (p.resultnode (safeHash it.key))
      Except.ok (ret, Database.mk inst files)) = .ok (ret, db') →
      (Call.store curtime it).Alone b (.addTree p, { db with files := files }) (.returned ret [], db') := by
    intro p files h
    refine .single ?_
    rcases hrun : db.inst.addTreeSafe (p.resultnode (safeHash it.key)) with e | ⟨ret', inst⟩
    · rw [hrun] at h
      cases h
    · rw [hrun] at h
      obtain ⟨rfl, rfl⟩ := Prod.mk.inj (Except.ok.inj h)
      simp only [Call.advance, storeSection, hrun, bind, Except.bind]
  rw [insertEntry, insertItem] at h
  rcases hfree : insertToDatafileAtFreepage b it db.files with ⟨_ | p, files⟩
  · rw [hfree] at h
    rcases happend : insertToDatafile b it files with ⟨_ | p, files'⟩
    · simp only [happend] at h
      obtain ⟨rfl, rfl⟩ := Prod.mk.inj (Except.ok.inj h)
      exact (alone_freepage _ db hfree).trans (alone_append (distid b it) { db with files := files } happend)
    · simp only [happend] at h
      exact ((alone_freepage _ db hfree).trans
        (alone_append (distid b it) { db with files := files } happend)).trans (hadd p files' h)
  · rw [hfree] at h
    exact (alone_freepage _ db hfree).trans (hadd p files h)

/-- A store with nobody in between is `store`. -/
theorem alone_store (h : db.store b curtime it = .ok (ret, db')) :
    (Call.store curtime it).Alone b (.traverse, db) (.returned ret [], db') := by
  rw [store] at h
  by_cases hargs : it.key = [] ∨ it.val = []
  · rw [if_pos hargs] at h
    obtain ⟨rfl, rfl⟩ := Prod.mk.inj (Except.ok.inj h)
    exact .single (by rw [Call.advance, storeSection, if_pos hargs])
  rw [if_neg hargs] at h
  rcases hfind : db.inst.findTreeOnlyKeyhashSafe (safeHash it.key) (findindexCallbackForUpdateInsert b curtime)
    (⟨safeHash it.key, it.key, it.val, .moredata, default, []⟩, db.files) with e | ⟨r, c, files⟩
  · simp only [hfind, bind, Except.bind] at h
    cases h
  have hfirst : ∀ pc, pc = (match c.flag with
      | .warn => Pc.removeOld c.resultnode
      | .moredata => .freepage (distid b it)
      | .ok => .returned .ok []
      | .ng => .returned .ng []) →
      (Call.store curtime it).advance b db .traverse = .ok (pc, { db with files := files }) := by
    rintro pc rfl
    simp only [Call.advance, storeSection, if_neg hargs, hfind, bind, Except.bind]
  simp only [hfind, bind, Except.bind] at h
  cases hflag : c.flag with
  | ok =>
    simp only [hflag] at h
    obtain ⟨rfl, rfl⟩ := Prod.mk.inj (Except.ok.inj h)
    exact .single (hfirst _ (by rw [hflag]))
  | ng =>
    simp only [hflag] at h
    obtain ⟨rfl, rfl⟩ := Prod.mk.inj (Except.ok.inj h)
    exact .single (hfirst _ (by rw [hflag]))
  | moredata =>
    simp only [hflag] at h
    exact .step (hfirst _ (by rw [hflag])) (alone_insertEntry h)
  | warn =>
    simp only [hflag, replaceEntry] at h
    refine .step (hfirst _ (by rw [hflag])) ?_
    rcases hremove : db.inst.removeTreeSafe c.resultnode with e | ⟨r', inst⟩
    · simp only [hremove, bind, Except.bind] at h
      cases h
    simp only [hremove, bind, Except.bind] at h
    by_cases hr : r' ≠ .ok
    · rw [if_pos hr] at h
      obtain ⟨rfl, rfl⟩ := Prod.mk.inj (Except.ok.inj h)
      refine .single ?_
      simp only [Call.advance, storeSection, hremove, bind, Except.bind, if_pos hr]
    rw [if_neg hr] at h
    refine .step (y := (.freeOld c.resultnode, ⟨inst, files⟩)) ?_ ?_
    · simp only [Call.advance, storeSection, hremove, bind, Except.bind, if_neg hr]
    rcases hfree : changeFreeToDatafile b c.resultnode files with ⟨r'', files'⟩
    simp only [hfree] at h
    by_cases hr' : r'' ≠ .ok
    · rw [if_pos hr'] at h
      obtain ⟨rfl, rfl⟩ := Prod.mk.inj (Except.ok.inj h)
      refine .single ?_
      simp only [Call.advance, storeSection, hfree, if_pos hr']
    rw [if_neg hr'] at h
    refine .step (y := (.freepage (distid b it), ⟨inst, files'⟩)) ?_ (alone_insertEntry h)
    simp only [Call.advance, storeSection, hfree, if_neg hr']

/-- The loop over `remove_reserved`. -/
theorem alone_removeAll {files : Datafiles} : ∀ (nodes : List NodeKey) {inst inst' : TreeInstance},
    removeAll inst nodes = .ok inst' → (Call.search curtime key held).Alone b
      (.removeReserved ret val nodes, ⟨inst, files⟩) (.returned ret val, ⟨inst', files⟩)
  | [], inst, inst', h => by
    obtain rfl := Except.ok.inj h
    exact .single rfl
  | node :: nodes, inst, inst', h => by
    rw [removeAll] at h
    by_cases hempty : node.isEmpty = true
    · rw [if_pos hempty] at h
      obtain rfl := Except.ok.inj h
      exact .single (by rw [Call.advance, searchSection, if_pos hempty])
    rw [if_neg hempty] at h
    rcases hremove : inst.removeTreeSafe node with e | ⟨r, inst₁⟩
    · rw [hremove] at h
      cases h
    rw [hremove] at h
    refine .step (y := (.removeReserved ret val nodes, ⟨inst₁, files⟩)) ?_ (alone_removeAll nodes h)
    simp only [Call.advance, searchSection, if_neg hempty, hremove, bind, Except.bind]

/-- A search with nobody in between is `search`. -/
theorem alone_search (h : db.search b curtime key held = .ok (ret, val, db')) :
    (Call.search curtime key held).Alone b (.traverse, db) (.returned ret val, db') := by
  rw [search] at h
  cases held with
  | true =>
    rw [if_pos rfl] at h
    obtain ⟨rfl, hrest⟩ := Prod.mk.inj (Except.ok.inj h)
    obtain ⟨rfl, rfl⟩ := Prod.mk.inj hrest
    exact .single rfl
  | false =>
    rw [if_neg Bool.false_ne_true] at h
    rcases hfind : db.inst.findTreeOnlyKeyhashSafe (safeHash key) (findindexCallbackForSearch b curtime)
      (⟨safeHash key, key, [], .ng, default, []⟩, db.files) with e | ⟨r, c, files⟩
    · simp only [hfind, bind, Except.bind] at h
      cases h
    simp only [hfind, bind, Except.bind] at h
    rcases hremove : removeAll db.inst c.removeReserved with e | inst
    · rw [hremove] at h
      cases h
    rw [hremove] at h
    obtain ⟨hret, hrest⟩ := Prod.mk.inj (Except.ok.inj h)
    obtain ⟨hval, rfl⟩ := Prod.mk.inj hrest
    refine .step ?_ (alone_removeAll c.removeReserved hremove)
    simp only [Call.advance, searchSection, Bool.false_eq_true, if_false, hfind, bind, Except.bind, hret, hval]

end Alone

end NetworkBfd.Smmr
