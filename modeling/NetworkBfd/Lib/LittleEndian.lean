import Mathlib.Data.List.Basic
import Mathlib.Tactic.Common
import Mathlib.Tactic.Ring

/-!
# Little-endian words and records of fixed width

`toBytes n v` are the `n` low bytes of `v`, least first, and `ofBytes` reads them back (`ofBytes_toBytes`). A `Codec α`
lays out the values of `α` in a fixed number of bytes; words, pairs and arrays of codecs are codecs
(`Codec.word`, `Codec.pair`, `Codec.array`), and `Codec.encode_injective` is what a memory comparison of two values
decides.
-/

namespace NetworkBfd.Lib

/-- The `n` low bytes of `v`, least first. -/
def toBytes : Nat → Nat → List (BitVec 8)
  | 0, _ => []
  | n + 1, v => BitVec.ofNat 8 v :: toBytes n (v / 256)

/-- The number that bytes spell, least first. -/
def ofBytes : List (BitVec 8) → Nat
  | [] => 0
  | b :: bs => b.toNat + 256 * ofBytes bs

@[simp] theorem length_toBytes : ∀ n v : Nat, (toBytes n v).length = n
  | 0, _ => rfl
  | n + 1, v => by simp [toBytes, length_toBytes n]

theorem ofBytes_toBytes : ∀ n v : Nat, ofBytes (toBytes n v) = v % 256 ^ n
  | 0, v => by simp [toBytes, ofBytes, Nat.mod_one]
  | n + 1, v => by
    have h : 256 ^ (n + 1) = 256 * 256 ^ n := Nat.pow_succ'
    rw [toBytes, ofBytes, ofBytes_toBytes n, BitVec.toNat_ofNat, h]
    exact Nat.mod_mul.symm

theorem ofBytes_lt : ∀ l : List (BitVec 8), ofBytes l < 256 ^ l.length
  | [] => by simp [ofBytes]
  | b :: bs => by
    have h1 := ofBytes_lt bs
    have h2 := b.isLt
    rw [ofBytes, List.length_cons, Nat.pow_succ']
    omega

theorem toBytes_ofBytes : ∀ l : List (BitVec 8), toBytes l.length (ofBytes l) = l
  | [] => rfl
  | b :: bs => by
    have h := b.isLt
    rw [List.length_cons, toBytes, ofBytes]
    have h1 : (b.toNat + 256 * ofBytes bs) / 256 = ofBytes bs := by omega
    rw [h1, toBytes_ofBytes bs]
    congr 1
    apply BitVec.eq_of_toNat_eq
    rw [BitVec.toNat_ofNat]
    omega

/-- A layout of the values of `α` in `width` bytes. -/
structure Codec (α : Type) where
  width : Nat
  encode : α → List (BitVec 8)
  decode : List (BitVec 8) → α
  length_encode : ∀ a, (encode a).length = width
  decode_encode : ∀ a, decode (encode a) = a

namespace Codec

variable {α β : Type}

theorem encode_injective (c : Codec α) : Function.Injective c.encode :=
  Function.LeftInverse.injective c.decode_encode

/-- A word of `w` bits in `n` bytes. -/
def word (w n : Nat) (h : w ≤ 8 * n) : Codec (BitVec w) where
  width := n
  encode b := toBytes n b.toNat
  decode l := BitVec.ofNat w (ofBytes l)
  length_encode b := length_toBytes n b.toNat
  decode_encode b := by
    have h1 : b.toNat < 256 ^ n := calc
      b.toNat < 2 ^ w := b.isLt
      _ ≤ 2 ^ (8 * n) := Nat.pow_le_pow_right (by decide) h
      _ = 256 ^ n := by rw [Nat.pow_mul]
    rw [ofBytes_toBytes, Nat.mod_eq_of_lt h1, BitVec.ofNat_toNat, BitVec.setWidth_eq]

/-- One value after the other. -/
def pair (c : Codec α) (d : Codec β) : Codec (α × β) where
  width := c.width + d.width
  encode p := c.encode p.1 ++ d.encode p.2
  decode l := (c.decode (l.take c.width), d.decode (l.drop c.width))
  length_encode p := by rw [List.length_append, c.length_encode, d.length_encode]
  decode_encode p := by
    rw [List.take_left' (c.length_encode _), List.drop_left' (c.length_encode _), c.decode_encode, d.decode_encode]

/-- Another view of the same values. -/
def iso (c : Codec α) (f : β → α) (g : α → β) (h : ∀ b, g (f b) = b) : Codec β where
  width := c.width
  encode b := c.encode (f b)
  decode l := g (c.decode l)
  length_encode b := c.length_encode _
  decode_encode b := by rw [c.decode_encode, h]

theorem length_flatMap_encode (c : Codec α) (l : List α) : (l.flatMap c.encode).length = l.length * c.width := by
  induction l with
  | nil => simp
  | cons a l ih =>
    rw [List.flatMap_cons, List.length_append, c.length_encode, ih, List.length_cons]
    ring

theorem drop_flatMap_encode (c : Codec α) : ∀ (l : List α) (i : Nat),
    (l.flatMap c.encode).drop (i * c.width) = (l.drop i).flatMap c.encode
  | l, 0 => by simp
  | [], i + 1 => by simp
  | a :: l, i + 1 => by
    have h : (i + 1) * c.width = (c.encode a).length + i * c.width := by
      rw [c.length_encode]
      ring
    rw [List.flatMap_cons, h, List.drop_append, List.drop_of_length_le (Nat.le_add_right _ _), List.nil_append,
      Nat.add_sub_cancel_left, drop_flatMap_encode c l i, List.drop_succ_cons]

/-- An array of `n` values. -/
def array (c : Codec α) (n : Nat) : Codec (Fin n → α) where
  width := n * c.width
  encode f := (List.ofFn f).flatMap c.encode
  decode l i := c.decode ((l.drop (i * c.width)).take c.width)
  length_encode f := by rw [length_flatMap_encode, List.length_ofFn]
  decode_encode f := by
    funext i
    have hlt : (i : Nat) < (List.ofFn f).length := by simp
    rw [drop_flatMap_encode, List.drop_eq_getElem_cons hlt, List.flatMap_cons, List.take_left' (c.length_encode _),
      c.decode_encode, List.getElem_ofFn]

end Codec
end NetworkBfd.Lib
