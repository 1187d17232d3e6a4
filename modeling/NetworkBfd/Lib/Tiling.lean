import Mathlib.Algebra.GroupWithZero.Nat
import Mathlib.Data.List.Basic
import Mathlib.Tactic.Common

/-!
# Tilings of a range

`Tiles size a l b` says that pieces at the places of `l`, each of its size, cover the range from `a` to `b` one behind
the other. So no two pieces overlap (`Tiles.apart`), each lies in the range (`Tiles.bounds`), the sizes add up to the
length of the range (`Tiles.sum`), and a piece can be added at its end (`Tiles.snoc`).
-/

namespace NetworkBfd.Lib

variable {size size' : Nat → Nat} {a b x y : Nat} {l : List Nat}

/-- Pieces at the places of `l` cover `a` to `b`, one behind the other. -/
def Tiles (size : Nat → Nat) : Nat → List Nat → Nat → Prop
  | a, [], b => a = b
  | a, x :: l, b => x = a ∧ Tiles size (a + size x) l b

namespace Tiles

theorem congr (h : Tiles size a l b) (hs : ∀ x ∈ l, size' x = size x) : Tiles size' a l b := by
  induction l generalizing a with
  | nil => exact h
  | cons x l ih =>
    refine ⟨h.1, ?_⟩
    rw [hs x List.mem_cons_self]
    exact ih h.2 fun y hy => hs y (List.mem_cons_of_mem x hy)

theorem le (h : Tiles size a l b) : a ≤ b := by
  induction l generalizing a with
  | nil => exact Nat.le_of_eq h
  | cons x l ih => exact Nat.le_trans (Nat.le_add_right a (size x)) (ih h.2)

/-- Each piece lies in the range. -/
theorem bounds (h : Tiles size a l b) (hx : x ∈ l) : a ≤ x ∧ x + size x ≤ b := by
  induction l generalizing a with
  | nil => cases hx
  | cons y l ih =>
    obtain ⟨rfl, h2⟩ := h
    rcases List.mem_cons.mp hx with rfl | hx
    · exact ⟨Nat.le_refl x, h2.le⟩
    · exact ⟨Nat.le_trans (Nat.le_add_right y (size y)) (ih h2 hx).1, (ih h2 hx).2⟩

/-- Two pieces do not overlap. -/
theorem apart (h : Tiles size a l b) (hx : x ∈ l) (hy : y ∈ l) (hne : x ≠ y) :
    x + size x ≤ y ∨ y + size y ≤ x := by
  induction l generalizing a with
  | nil => cases hx
  | cons z l ih =>
    obtain ⟨rfl, h2⟩ := h
    rcases List.mem_cons.mp hx with rfl | hx' <;> rcases List.mem_cons.mp hy with rfl | hy'
    · exact absurd rfl hne
    · exact .inl (h2.bounds hy').1
    · exact .inr (h2.bounds hx').1
    · exact ih h2 hx' hy'

theorem nodup (h : Tiles size a l b) (hs : ∀ x ∈ l, 0 < size x) : l.Nodup := by
  induction l generalizing a with
  | nil => exact List.nodup_nil
  | cons x l ih =>
    obtain ⟨rfl, h2⟩ := h
    have hpos := hs x List.mem_cons_self
    refine List.nodup_cons.mpr ⟨fun hm => ?_, ih h2 fun y hy => hs y (List.mem_cons_of_mem x hy)⟩
    have := (h2.bounds hm).1
    omega

/-- One more piece behind the others. -/
theorem snoc (h : Tiles size a l b) : Tiles size a (l ++ [b]) (b + size b) := by
  induction l generalizing a with
  | nil =>
    cases h
    exact ⟨rfl, rfl⟩
  | cons x l ih => exact ⟨h.1, ih h.2⟩

/-- The sizes add up to the length of the range. -/
theorem sum (h : Tiles size a l b) : a + (l.map size).sum = b := by
  induction l generalizing a with
  | nil => exact h
  | cons x l ih => rw [List.map_cons, List.sum_cons, ← Nat.add_assoc, ih h.2]

/-- As many pieces as fit. -/
theorem length_le {n : Nat} (h : Tiles size a l b) (hs : ∀ x ∈ l, n ≤ size x) : a + n * l.length ≤ b := by
  induction l generalizing a with
  | nil => exact h.le
  | cons x l ih =>
    have h1 := ih h.2 fun y hy => hs y (List.mem_cons_of_mem x hy)
    have h2 := hs x List.mem_cons_self
    rw [List.length_cons, Nat.mul_succ]
    omega

end Tiles

end NetworkBfd.Lib
