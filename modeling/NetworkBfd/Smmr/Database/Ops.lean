import NetworkBfd.Smmr.Space
import NetworkBfd.Smmr.Tree.Index

/-!
# The database: `store` and `search`

The operations of `smmr_database.c` on the index trees and the data files. Both traverse the index with a callback that
works on a container (`FindContainer`) and on the files. `time(0)` is a parameter, and so is the value that the caller
of `search` already holds. A file that is not mapped has no descriptor.
-/

namespace NetworkBfd.Smmr

open Lib Lib.Bytes

abbrev removeReservedCount : Nat := 32

/-- `find_container_t`: what a traversal looks for and what it leaves. `val` is empty as long as the pointer is null,
and of `remove_reserved` the entries that are set are listed. -/
structure FindContainer where
  hashedid : BitVec 32
  key : List Byte
  val : List Byte
  flag : Ret
  resultnode : NodeKey
  removeReserved : List NodeKey
deriving DecidableEq

structure Database where
  inst : TreeInstance
  files : Datafiles

/-! ## The callbacks -/

/-- What both callbacks check before they look at the item of a node: the file is mapped and the item is sound. -/
def itemOfNode (b : Build) (files : Datafiles) (node : NodeKey) : Option Bytes :=
  if ipcDatafileMax b < node.dataField.toNat then none
  else
    match files node.dataField.toNat with
    | none => none
    | some f =>
      let off := node.dataOffset.toNat
      if !itemValid f off then none
      else if itemKeylen f off = 0 ∨ itemVallen f off = 0 then none
      else some f

/-- `dataitm->expire && dataitm->expire < curtime`. -/
def expired (f : Bytes) (off : Nat) (curtime : BitVec 32) : Bool := itemExpire f off != 0 && itemExpire f off < curtime

/-- The comparison of lengths and of bytes. -/
def sameKey (f : Bytes) (off : Nat) (key : List Byte) : Bool :=
  key.length == itemKeylen f off && read f (off + sizeofDataitm) key.length == key

/-- A node is put into the first empty place of `remove_reserved`. -/
def FindContainer.reserve (c : FindContainer) (node : NodeKey) : FindContainer :=
  if c.removeReserved.length < removeReservedCount ∧ node.isEmpty = false then
    { c with removeReserved := c.removeReserved ++ [node] }
  else c

/-- `_findindex_callback_for_search`. -/
def findindexCallbackForSearch (b : Build) (curtime : BitVec 32) (node : NodeKey) (u : FindContainer × Datafiles) :
    Ret × FindContainer × Datafiles :=
  let (container, files) := u
  match itemOfNode b files node with
  | none => (.ng, { container with flag := .ng }, files)
  | some f =>
    let off := node.dataOffset.toNat
    if expired f off curtime then
      (.warn, container.reserve node, (changeFreeToDatafile b node files).2)
    else if sameKey f off container.key then
      let val := read f (off + sizeofDataitm + itemKeylen f off) (itemVallen f off)
      (.ng, { container with val := val, flag := .ok }, files)
    else (.ok, container, files)

/-- The value is overwritten in place; a new length goes to `vallen` and `length`. -/
def overwriteVal (f : Bytes) (off : Nat) (val : List Byte) : Bytes :=
  let f := write f (off + sizeofDataitm + itemKeylen f off) val
  if itemVallen f off ≠ val.length then
    let f := putWord f (off + 20) 4 val.length
    putWord f (off + 4) 4 (itemLength (itemKeylen f off) (itemVallen f off))
  else f

/-- `_findindex_callback_for_update_insert`. The flag is set to `RET_MOREDATA` behind the lock, whatever was set
before. -/
def findindexCallbackForUpdateInsert (b : Build) (curtime : BitVec 32) (node : NodeKey)
    (u : FindContainer × Datafiles) : Ret × FindContainer × Datafiles :=
  let (container, files) := u
  match (if ipcDatafileMax b < node.dataField.toNat then none else files node.dataField.toNat) with
  | none => (.ng, { container with flag := .ng }, files)
  | some f =>
    let off := node.dataOffset.toNat
    let (retcd, container, f) :=
      if itemOfNode b files node = none then (Ret.ng, { container with flag := .ng }, f)
      else if expired f off curtime then (.ok, container, f)
      else if sameKey f off container.key then
        let alignedSizeOld := alignedSize (itemLengthField f off)
        let alignedSize := alignedSize (itemLength container.key.length container.val.length)
        if alignedSize ≤ alignedSizeOld then (.ng, { container with flag := .ok }, overwriteVal f off container.val)
        else (.ng, { container with flag := .warn, resultnode := node }, f)
      else (.ok, container, f)
    (retcd, { container with flag := .moredata }, Function.update files node.dataField.toNat (some f))

namespace Database

/-! ## `search` -/

/-- The loop over `remove_reserved`, up to its first empty place. -/
def removeAll (inst : TreeInstance) : List NodeKey → Except Fault TreeInstance
  | [] => .ok inst
  | node :: nodes =>
    if node.isEmpty then .ok inst
    else do
      let (_, inst) ← inst.removeTreeSafe node
      removeAll inst nodes

/-- `search`: the return value, the value, and the database. `held` says whether the caller's `*val` is set. -/
def search (b : Build) (curtime : BitVec 32) (key : List Byte) (held : Bool) (db : Database) :
    Except Fault (Ret × List Byte × Database) :=
  if held then .ok (.ng, [], db)
  else do
    let hashedid := safeHash key
    let container : FindContainer := ⟨hashedid, key, [], .ng, default, []⟩
    let (_, container, files) ← db.inst.findTreeOnlyKeyhashSafe hashedid (findindexCallbackForSearch b curtime)
      (container, db.files)
    let (ret, val) := if container.val ≠ [] ∧ container.flag = .ok then (Ret.ok, container.val) else (.ng, [])
    let inst ← removeAll db.inst container.removeReserved
    .ok (ret, val, ⟨inst, files⟩)

/-! ## `store` -/

/-- The insertion of the item and of its index entry: the steps that both branches of `store` end with. -/
def insertEntry (b : Build) (it : Item) (db : Database) : Except Fault (Ret × Database) :=
  match insertItem b it db.files with
  | (none, files) => .ok (.ng, { db with files := files })
  | (some p, files) => do
    let (ret, inst) ← db.inst.addTreeSafe (p.resultnode (safeHash it.key))
    .ok (ret, ⟨inst, files⟩)

/-- The branch for `RET_WARN`: the old entry and its item go before the new ones come. -/
def replaceEntry (b : Build) (it : Item) (node : NodeKey) (db : Database) : Except Fault (Ret × Database) := do
  let (ret, inst) ← db.inst.removeTreeSafe node
  if ret ≠ .ok then .ok (.ng, { db with inst := inst })
  else
    let (ret, files) := changeFreeToDatafile b node db.files
    if ret ≠ .ok then .ok (.ng, ⟨inst, files⟩)
    else insertEntry b it ⟨inst, files⟩

/-- `store`. -/
def store (b : Build) (curtime : BitVec 32) (it : Item) (db : Database) : Except Fault (Ret × Database) :=
  if it.key = [] ∨ it.val = [] then .ok (.ng, db)
  else do
    let hashedid := safeHash it.key
    let container : FindContainer := ⟨hashedid, it.key, it.val, .moredata, default, []⟩
    let (_, container, files) ← db.inst.findTreeOnlyKeyhashSafe hashedid (findindexCallbackForUpdateInsert b curtime)
      (container, db.files)
    let db := { db with files := files }
    match container.flag with
    | .warn => replaceEntry b it container.resultnode db
    | .moredata => insertEntry b it db
    | .ok => .ok (.ok, db)
    | .ng => .ok (.ng, db)

end Database

end NetworkBfd.Smmr
