import Mathlib.Logic.Function.Basic
import NetworkBfd.Lib.ByteMemory

/-!
# A heap of blocks

A heap has the live blocks by their addresses, each with its size. Blocks are not laid out, so what happens in one does
not reach another, and an access has to be inside of its block (`covers`). A `Reallocation` is what `realloc` decides:
it may refuse, stay or move. Whatever it decides, the old bytes are kept (`realloc_spec`), and the heap without the
block is as before (`free_realloc`, `free_write`).
-/

namespace NetworkBfd.Lib

/-- A live block: its size and its bytes. -/
structure HeapBlock where
  size : Nat
  bytes : Bytes

/-- The live blocks by their addresses. -/
abbrev Heap := Nat → Option HeapBlock

/-- What `realloc` decides, given the heap, an address and a size: nothing (it returns NULL), or an address and what
lies there behind the bytes that are kept. -/
structure Reallocation where
  answer : Heap → Nat → Nat → Option (Nat × Bytes)
  /-- The block stays where it is, or goes where none is live. -/
  fresh : ∀ {h p n q rest}, answer h p n = some (q, rest) → q = p ∨ h q = none

/-- It refuses always. -/
instance : Inhabited Reallocation := ⟨⟨fun _ _ _ => none, nofun⟩⟩

namespace Heap

variable {h h' : Heap} {p q off n : Nat} {b : HeapBlock} {bs : List (BitVec 8)}

/-- An address without a live block. -/
abbrev Fresh (h : Heap) := {q : Nat // h q = none}

/-- The `n` bytes from `off` on are inside of the block at `p`. -/
def covers (h : Heap) (p off n : Nat) : Bool := (h p).any fun b => off + n ≤ b.size

def alloc (h : Heap) (q : Nat) (b : HeapBlock) : Heap := Function.update h q (some b)

def free (h : Heap) (p : Nat) : Heap := Function.update h p none

/-- The `n` bytes from `off` on of the block at `p`. -/
def read (h : Heap) (p off n : Nat) : List (BitVec 8) := ((h p).map fun b => b.bytes.read off n).getD []

/-- `bs` at `off` of the block at `p`. -/
def write (h : Heap) (p off : Nat) (bs : List (BitVec 8)) : Heap :=
  Function.update h p ((h p).map fun b => { b with bytes := b.bytes.write off bs })

/-- `realloc` of the block at `p` to `n` bytes: where it is now, and the heap. -/
def realloc (r : Reallocation) (h : Heap) (p n : Nat) : Option (Nat × Heap) :=
  match h p, r.answer h p n with
  | some b, some (q, rest) => some (q, (h.free p).alloc q ⟨n, fun i => if i < b.size then b.bytes i else rest i⟩)
  | _, _ => none

/-! ## Accesses -/

@[simp] theorem alloc_self (h : Heap) (q : Nat) (b : HeapBlock) : h.alloc q b q = some b :=
  Function.update_self _ _ _

theorem covers_iff (hb : h p = some b) : h.covers p off n = true ↔ off + n ≤ b.size := by
  rw [covers, hb, Option.any_some, decide_eq_true_iff]

theorem read_of_block (hb : h p = some b) : h.read p off n = b.bytes.read off n := by
  rw [read, hb, Option.map_some, Option.getD_some]

theorem write_self (hb : h p = some b) : h.write p off bs p = some { b with bytes := b.bytes.write off bs } := by
  rw [write, Function.update_self, hb, Option.map_some]

/-- A string written behind the first `off` bytes. -/
theorem read_write_append (hb : h p = some b) :
    (h.write p off bs).read p 0 (off + bs.length) = h.read p 0 off ++ bs := by
  rw [read_of_block (write_self hb), read_of_block hb, Bytes.read_append, Nat.zero_add, Bytes.read_write_self,
    Bytes.read_write_of_disjoint (.inl (Nat.le_of_eq (Nat.zero_add off)))]

/-! ## The rest of the heap -/

theorem free_alloc (hq : h q = none) : (h.alloc q b).free q = h := by
  rw [alloc, free, Function.update_idem, ← hq, Function.update_eq_self]

@[simp] theorem free_write : (h.write p off bs).free p = h.free p := Function.update_idem _ _ _

/-! ## Reallocation -/

variable {r : Reallocation}

/-- What an answer of `realloc` says. -/
theorem realloc_eq_some (hb : h p = some b) (hr : realloc r h p n = some (q, h')) : ∃ rest,
    r.answer h p n = some (q, rest) ∧
      h' = (h.free p).alloc q ⟨n, fun i => if i < b.size then b.bytes i else rest i⟩ := by
  unfold realloc at hr
  rw [hb] at hr
  cases hans : r.answer h p n with
  | none =>
    rw [hans] at hr
    cases hr
  | some a =>
    rw [hans] at hr
    obtain ⟨rfl, rfl⟩ := Prod.mk.inj (Option.some.inj hr)
    exact ⟨_, rfl, rfl⟩

/-- The block has the new size, and the bytes that it had. -/
theorem realloc_spec (hb : h p = some b) (hr : realloc r h p n = some (q, h')) :
    ∃ b', h' q = some b' ∧ b'.size = n ∧ ∀ k, k ≤ b.size → h'.read q 0 k = h.read p 0 k := by
  obtain ⟨rest, -, rfl⟩ := realloc_eq_some hb hr
  refine ⟨_, alloc_self _ _ _, rfl, fun k hk => ?_⟩
  rw [read_of_block (alloc_self _ _ _), read_of_block hb]
  exact Bytes.read_congr fun i _ hi => if_pos (by omega)

/-- The block leaves its old place, and takes one where none was. -/
theorem free_realloc (hb : h p = some b) (hr : realloc r h p n = some (q, h')) : h'.free q = h.free p := by
  obtain ⟨rest, hans, rfl⟩ := realloc_eq_some hb hr
  apply free_alloc
  by_cases hqp : q = p
  · rw [hqp, free, Function.update_self]
  · rw [free, Function.update_of_ne hqp]
    exact (r.fresh hans).resolve_left hqp

end Heap

end NetworkBfd.Lib
