import Mathlib.Algebra.BigOperators.Group.List.Basic
import Mathlib.Algebra.GroupWithZero.Nat
import Mathlib.Tactic.Common

/-!
# Ones' complement sums

Numbers from `0` to `m`, added with the carry brought back to the end (`m` is `2 ^ w - 1` for words of `w` bits). The
sum of a list is the plain sum modulo `m`, and `m` itself where that is zero and not all words are
(`onesSum_eq_max_iff`).
-/

namespace NetworkBfd.Lib

/-- The end-around carry. -/
def onesAdd (m a b : Nat) : Nat := if a + b ≤ m then a + b else a + b - m

def onesSum (m : Nat) (ws : List Nat) : Nat := ws.foldl (onesAdd m) 0

variable {m : Nat}

theorem onesAdd_le {a b : Nat} (ha : a ≤ m) (hb : b ≤ m) : onesAdd m a b ≤ m := by
  unfold onesAdd
  split <;> omega

theorem onesAdd_mod (a b : Nat) : onesAdd m a b % m = (a + b) % m := by
  unfold onesAdd
  split
  · rfl
  · rename_i hgt
    exact (Nat.mod_eq_sub_mod (by omega)).symm

theorem onesAdd_eq_zero {a b : Nat} : onesAdd m a b = 0 ↔ a + b = 0 := by
  unfold onesAdd
  split
  · rfl
  · omega

/-- What the sum so far has in common with the plain one. -/
theorem foldl_onesAdd : ∀ (ws : List Nat) (s : Nat), s ≤ m → (∀ w ∈ ws, w ≤ m) →
    ws.foldl (onesAdd m) s ≤ m ∧ ws.foldl (onesAdd m) s % m = (s + ws.sum) % m ∧
      (ws.foldl (onesAdd m) s = 0 ↔ s + ws.sum = 0)
  | [], s, hs, _ => ⟨hs, rfl, Iff.rfl⟩
  | w :: ws, s, hs, hws => by
    obtain ⟨hw, hrest⟩ := List.forall_mem_cons.mp hws
    obtain ⟨hle, hmod, hzero⟩ := foldl_onesAdd ws (onesAdd m s w) (onesAdd_le hs hw) hrest
    rw [List.foldl_cons, List.sum_cons, ← Nat.add_assoc]
    refine ⟨hle, ?_, ?_⟩
    · rw [hmod, Nat.add_mod, onesAdd_mod, ← Nat.add_mod]
    · rw [hzero, Nat.add_eq_zero_iff, onesAdd_eq_zero, ← Nat.add_eq_zero_iff]

/-- The sum is all ones exactly if the plain sum is a multiple of `m`, but not zero. -/
theorem onesSum_eq_max_iff {ws : List Nat} (hm : 0 < m) (hws : ∀ w ∈ ws, w ≤ m) :
    onesSum m ws = m ↔ ws.sum % m = 0 ∧ ws.sum ≠ 0 := by
  obtain ⟨hle, hmod, hzero⟩ := foldl_onesAdd ws 0 (Nat.zero_le m) hws
  rw [Nat.zero_add] at hmod hzero
  rw [onesSum, ← hmod, Ne, ← hzero]
  generalize ws.foldl (onesAdd m) 0 = s at hle ⊢
  constructor
  · rintro rfl
    exact ⟨Nat.mod_self s, Nat.ne_of_gt hm⟩
  · rintro ⟨hs, hne⟩
    by_contra hlt
    rw [Nat.mod_eq_of_lt (by omega)] at hs
    exact hne hs

end NetworkBfd.Lib
