import Mathlib.Algebra.GroupWithZero.Nat
import Mathlib.Order.Lattice
import Mathlib.Order.Fin.Basic
import Mathlib.Tactic.Common

/-!
# The types that the whole of smmr shares

Return codes, the hash of a key (`safeHash`), index entries (`NodeKey`, with the order of `compareNodeKeyUnsafe`) and
references to node blocks (`NodeInstanceOffset`). The bit-fields of `node_key_t` and `node_instance_offset_t` are
`BitVec`s, so an assignment to one truncates as it does in the source.
-/

namespace NetworkBfd.Smmr

abbrev Byte := BitVec 8

/-- `RET_OK`, `RET_NG`, `RET_WARN` and `RET_MOREDATA`. -/
inductive Ret
  | ok
  | ng
  | warn
  | moredata
deriving DecidableEq, Repr

/-- Ways in which a run leaves the C program's defined behaviour, or the model's bounds. -/
inductive Fault
  /-- a recursion deeper than the number of blocks, or a loop longer than its bound -/
  | fuel
  /-- a null pointer is dereferenced, or a pointer beyond its block -/
  | segv
  /-- an answer of `shmalloc` that is not a fresh block -/
  | contract
deriving DecidableEq, Repr

@[simp] def categoryCnt : Nat := 4
@[simp] def pageSize : Nat := 131072
@[simp] def pageCnt : Nat := 1024
@[simp] def treeNodecount : Nat := 4
@[simp] def treeNodemin : Nat := treeNodecount / 2

instance : NeZero categoryCnt := ⟨by decide⟩

/-- The hash of a key: from its last byte to its first. -/
def safeHash (key : List Byte) : BitVec 32 :=
  key.foldr (fun b hash => ((hash <<< 5) + hash) ^^^ b.zeroExtend 32) 5381

/-! ## Index entries -/

/-- `node_key_t`: the hash of a key and the place of its item. -/
@[ext] structure NodeKey where
  keyhash : BitVec 32
  dataField : BitVec 8
  dataOffset : BitVec 24
deriving DecidableEq, Repr

instance : Inhabited NodeKey := ⟨0, 0, 0⟩

/-- `_compare_node_key_unsafe`. -/
def compareNodeKeyUnsafe (a b : NodeKey) : Int :=
  if a.keyhash = b.keyhash ∧ a.dataField = b.dataField ∧ a.dataOffset = b.dataOffset then 0
  else if a.keyhash < b.keyhash then -1
  else if b.keyhash < a.keyhash then 1
  else if a.dataField < b.dataField then -1
  else if b.dataField < a.dataField then 1
  else if a.dataOffset < b.dataOffset then -1
  else if b.dataOffset < a.dataOffset then 1
  else 0

/-- `ISEMPTY_KEY`. -/
def NodeKey.isEmpty (k : NodeKey) : Bool := k.keyhash == 0 && k.dataField == 0 && k.dataOffset == 0

/-- The 64 bits of an entry, hash first. -/
def NodeKey.code (k : NodeKey) : Nat :=
  k.keyhash.toNat * 2 ^ 32 + k.dataField.toNat * 2 ^ 24 + k.dataOffset.toNat

theorem NodeKey.code_injective : Function.Injective NodeKey.code := by
  intro a b h
  have := a.dataField.isLt
  have := b.dataField.isLt
  have := a.dataOffset.isLt
  have := b.dataOffset.isLt
  simp only [code] at h
  ext1 <;> apply BitVec.eq_of_toNat_eq <;> omega

/-- Entries in the order of `compareNodeKeyUnsafe`. -/
instance : LinearOrder NodeKey := LinearOrder.lift' NodeKey.code NodeKey.code_injective

theorem NodeKey.lt_def {a b : NodeKey} : a < b ↔ a.code < b.code := Iff.rfl

theorem compareNodeKeyUnsafe_eq_zero {a b : NodeKey} : compareNodeKeyUnsafe a b = 0 ↔ a = b := by
  constructor
  · intro h
    apply NodeKey.code_injective
    simp only [compareNodeKeyUnsafe, BitVec.lt_def, ← BitVec.toNat_inj] at h
    simp only [NodeKey.code]
    split_ifs at h <;> omega
  · rintro rfl
    simp [compareNodeKeyUnsafe]

theorem compareNodeKeyUnsafe_neg {a b : NodeKey} : compareNodeKeyUnsafe a b < 0 ↔ a < b := by
  have := a.dataField.isLt
  have := b.dataField.isLt
  have := a.dataOffset.isLt
  have := b.dataOffset.isLt
  rw [NodeKey.lt_def]
  simp only [compareNodeKeyUnsafe, NodeKey.code, BitVec.lt_def, ← BitVec.toNat_inj]
  split_ifs <;> omega

/-- Entries are ordered by hash first. -/
theorem NodeKey.keyhash_le {a b : NodeKey} (h : a ≤ b) : a.keyhash ≤ b.keyhash := by
  have h' : a.code ≤ b.code := h
  have := a.dataField.isLt
  have := b.dataField.isLt
  have := a.dataOffset.isLt
  have := b.dataOffset.isLt
  simp only [code, BitVec.le_def] at *
  omega

/-! ## References to node blocks -/

/-- `node_instance_offset_t`. -/
@[ext] structure NodeInstanceOffset where
  categoryId : BitVec 8
  pageId : BitVec 16
  offset : BitVec 24
deriving DecidableEq, Repr

instance : Inhabited NodeInstanceOffset := ⟨0, 0, 0⟩

/-- `ISEMPTY_NODE`. -/
def NodeInstanceOffset.isEmpty (n : NodeInstanceOffset) : Bool :=
  n.categoryId == 0 && n.pageId == 0 && n.offset == 0

/-- The place of the block in the category file, as `REFNODE` computes it. -/
@[irreducible] def NodeInstanceOffset.addr (n : NodeInstanceOffset) : Nat := n.pageId.toNat * pageSize + n.offset.toNat

@[simp] theorem NodeInstanceOffset.isEmpty_default : (default : NodeInstanceOffset).isEmpty = true := rfl

end NetworkBfd.Smmr
