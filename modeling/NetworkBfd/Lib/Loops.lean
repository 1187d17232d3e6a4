import Mathlib.Algebra.BigOperators.Group.Finset.Piecewise
import Mathlib.Algebra.GroupWithZero.Nat
import Mathlib.Data.Fintype.Basic
import Mathlib.Order.Lattice.Nat
import Mathlib.Data.Fin.Basic

/-!
# Loops

A loop takes steps until there is none (`runLoop`). What every step preserves holds where it ends (`runLoop_inv`), and
it ends if every step lowers a measure (`runLoop_ends`). A counter of a loop over the places up to `last` may be too
narrow to go beyond it, and then starts again at zero: `stepsLeft` counts what is left before it ends, or before it
comes to a place that it does not leave. A size of `w` bits overflows when it is doubled exactly if it becomes smaller
(`shiftLeft_one_lt_iff`), and can be doubled `roomToDouble` times at most.
-/

namespace NetworkBfd.Lib

/-! ## Steps -/

section Steps

variable {σ : Type*}

/-- The state in which the loop ends, if `fuel` steps are enough. -/
def runLoop (step : σ → Option σ) : Nat → σ → Option σ
  | 0, _ => none
  | fuel + 1, s =>
    match step s with
    | none => some s
    | some s' => runLoop step fuel s'

variable {step : σ → Option σ} {I : σ → Prop}

theorem runLoop_inv (hstep : ∀ s s', I s → step s = some s' → I s') : ∀ (fuel : Nat) {s t : σ}, I s →
    runLoop step fuel s = some t → I t ∧ step t = none
  | 0, _, _, _, h => by cases h
  | fuel + 1, s, t, hs, h => by
    rw [runLoop] at h
    cases hnext : step s with
    | none =>
      rw [hnext] at h
      obtain rfl := Option.some.inj h
      exact ⟨hs, hnext⟩
    | some s' =>
      rw [hnext] at h
      exact runLoop_inv hstep fuel (hstep s s' hs hnext) h

theorem runLoop_ends {μ : σ → Nat} (hstep : ∀ s s', I s → step s = some s' → I s' ∧ μ s' < μ s) : ∀ (n : Nat) (s : σ),
    I s → μ s < n → ∃ t, runLoop step n s = some t
  | 0, _, _, h => absurd h (Nat.not_lt_zero _)
  | n + 1, s, hs, h => by
    rw [runLoop]
    cases hnext : step s with
    | none => exact ⟨s, rfl⟩
    | some s' =>
      obtain ⟨hs', hlt⟩ := hstep s s' hs hnext
      exact runLoop_ends hstep n s' hs' (by omega)

end Steps

section Each

variable {α : Type*} {P : List α → α → Prop} {x : α} {xs : List α}

/-- What holds of each step and those before it holds of the first one and, behind it, of each of the rest. -/
theorem forall_split_cons (hx : P [] x) (h : ∀ before y after, xs = before ++ y :: after → P (x :: before) y) :
    ∀ before y after, x :: xs = before ++ y :: after → P before y := by
  intro before y after heq
  cases before with
  | nil =>
    obtain ⟨rfl, -⟩ := List.cons.inj heq
    exact hx
  | cons z before =>
    obtain ⟨rfl, hxs⟩ := List.cons.inj heq
    exact h before y after hxs

theorem forall_split_nil : ∀ before y after, [] = before ++ y :: after → P before y :=
  fun _ _ _ heq => absurd heq (by simp)

end Each

/-! ## Counters -/

section Counters

variable {n : Nat} [NeZero n] {P : Fin n → Prop} {last i : Fin n}

/-- What is left for a counter that goes up to `last` and stays where `P` holds. If there is no number behind `last`,
the way to the next place where `P` holds. -/
noncomputable def stepsLeft (P : Fin n → Prop) (last i : Fin n) : Nat :=
  if last.val + 1 = n then sInf {k | P (Fin.ofNat n (i.val + k))} else last.val + 1 - i.val

/-- Every place is ahead, at most one round away. -/
theorem exists_ahead (i j : Fin n) : ∃ k, k ≤ n ∧ Fin.ofNat n (i.val + k) = j := by
  have hi := i.isLt
  have hj := j.isLt
  rcases Nat.le_total i.val j.val with hle | hle
  · refine ⟨j.val - i.val, by omega, Fin.ext ?_⟩
    rw [Fin.val_ofNat, Nat.add_sub_cancel' hle, Nat.mod_eq_of_lt hj]
  · refine ⟨n - i.val + j.val, by omega, Fin.ext ?_⟩
    rw [Fin.val_ofNat, show i.val + (n - i.val + j.val) = n + j.val by omega, Nat.add_mod_left, Nat.mod_eq_of_lt hj]

theorem stepsLeft_le (P : Fin n → Prop) (last i : Fin n) : stepsLeft P last i ≤ n := by
  unfold stepsLeft
  split
  · by_cases hex : ∃ j, P j
    · obtain ⟨j, hj⟩ := hex
      obtain ⟨k, hk, hkj⟩ := exists_ahead i j
      exact Nat.le_trans (Nat.sInf_le (show P (Fin.ofNat n (i.val + k)) from hkj ▸ hj)) hk
    · have hnone : {k | P (Fin.ofNat n (i.val + k))} = ∅ := Set.eq_empty_of_forall_notMem fun k hk => hex ⟨_, hk⟩
      rw [hnone, Nat.sInf_empty]
      exact Nat.zero_le n
  · exact Nat.le_trans (Nat.sub_le _ _) last.isLt

theorem ofNat_succ_add (i : Fin n) (k : Nat) : Fin.ofNat n ((i + 1).val + k) = Fin.ofNat n (i.val + (k + 1)) := by
  apply Fin.ext
  rw [Fin.val_ofNat, Fin.val_ofNat, Fin.val_add, Fin.val_one', Nat.mod_add_mod, Nat.add_comm k, ← Nat.add_assoc,
    ← Nat.mod_add_mod (i.val + 1 % n), Nat.add_mod_mod, Nat.mod_add_mod]

/-- A place where `P` does not hold is left. -/
theorem stepsLeft_succ_lt (hi : i ≤ last) (hP : ¬ P i) (hex : last.val + 1 = n → ∃ j, P j) :
    stepsLeft P last (i + 1) < stepsLeft P last i := by
  unfold stepsLeft
  split
  · rename_i hlast
    obtain ⟨j, hj⟩ := hex hlast
    obtain ⟨k₀, -, hkj⟩ := exists_ahead i j
    have hne : {k | P (Fin.ofNat n (i.val + k))}.Nonempty := ⟨k₀, show P _ from hkj ▸ hj⟩
    have hmem : P (Fin.ofNat n (i.val + sInf {k | P (Fin.ofNat n (i.val + k))})) := Nat.sInf_mem hne
    generalize sInf {k | P (Fin.ofNat n (i.val + k))} = k at hmem
    cases k with
    | zero =>
      have hself : Fin.ofNat n (i.val + 0) = i := Fin.ext (Nat.mod_eq_of_lt i.isLt)
      rw [hself] at hmem
      exact absurd hmem hP
    | succ k =>
      refine Nat.lt_succ_of_le (Nat.sInf_le (show P _ from ?_))
      rw [ofNat_succ_add]
      exact hmem
  · rename_i hlast
    have hlt := last.isLt
    have hle := Fin.le_def.mp hi
    have hval : (i + 1).val = i.val + 1 := Fin.val_add_one_of_lt' (by omega)
    omega

end Counters

/-! ## Doubling -/

section Doubling

variable {w : Nat} {x : BitVec w}

theorem toNat_shiftLeft_one (x : BitVec w) : (x <<< 1).toNat = 2 * x.toNat % 2 ^ w := by
  rw [BitVec.toNat_shiftLeft, Nat.shiftLeft_eq, pow_one, Nat.mul_comm]

/-- The test for an overflow of a doubling: the result is the smaller one. -/
theorem shiftLeft_one_lt_iff : x <<< 1 < x ↔ 2 ^ w ≤ 2 * x.toNat := by
  have hx := x.isLt
  rw [BitVec.lt_def, toNat_shiftLeft_one]
  constructor
  · intro h
    by_contra hlt
    rw [Nat.mod_eq_of_lt (by omega)] at h
    omega
  · intro h
    rw [Nat.mod_eq_sub_mod h, Nat.mod_eq_of_lt (by omega)]
    omega

theorem toNat_shiftLeft_one_of_le (h : ¬ x <<< 1 < x) : (x <<< 1).toNat = 2 * x.toNat := by
  rw [toNat_shiftLeft_one, Nat.mod_eq_of_lt (by rw [shiftLeft_one_lt_iff] at h; omega)]

/-- How often a size can be doubled, at most. -/
def roomToDouble (x : BitVec w) : Nat := w - x.toNat.log2

theorem roomToDouble_pos (hx : x ≠ 0) : 0 < roomToDouble x := by
  have hx' : x.toNat ≠ 0 := by simpa [BitVec.toNat_eq] using hx
  have hlog : x.toNat.log2 < w := (Nat.log2_lt hx').mpr x.isLt
  rw [roomToDouble]
  omega

theorem roomToDouble_shiftLeft (hx : x ≠ 0) (h : ¬ x <<< 1 < x) : roomToDouble (x <<< 1) < roomToDouble x := by
  have hx' : x.toNat ≠ 0 := by simpa [BitVec.toNat_eq] using hx
  have hpos := roomToDouble_pos hx
  rw [roomToDouble] at hpos
  rw [roomToDouble, roomToDouble, toNat_shiftLeft_one_of_le h, Nat.log2_two_mul hx']
  omega

/-- There is one power of two between a number and its double. -/
theorem eq_of_pow_between {i j n : Nat} (hi : n ≤ 2 ^ i) (hi' : 2 ^ i < 2 * n) (hj : n ≤ 2 ^ j) (hj' : 2 ^ j < 2 * n) :
    i = j := by
  have hle : ∀ {a b : Nat}, n ≤ 2 ^ a → 2 ^ b < 2 * n → b ≤ a := by
    intro a b ha hb
    have hlt : 2 ^ b < 2 ^ (a + 1) := by
      rw [Nat.pow_succ']
      omega
    exact Nat.lt_succ_iff.mp ((Nat.pow_lt_pow_iff_right (by decide)).mp hlt)
  exact Nat.le_antisymm (hle hj hi') (hle hi hj')

end Doubling

/-! ## Sums with one member changed -/

section Sums

variable {ι M : Type*} [DecidableEq ι] [AddCommMonoid M] {s : Finset ι} {i : ι}

theorem sum_update_add {α : Type*} (hi : i ∈ s) (f : α → M) (g : ι → α) (b : α) :
    ∑ j ∈ s, f (Function.update g i b j) + f (g i) = ∑ j ∈ s, f (g j) + f b := by
  have hsplit : ∑ j ∈ s \ {i}, f (g j) + f (g i) = ∑ j ∈ s, f (g j) := by
    have hsdiff := Finset.sum_sdiff (f := fun j => f (g j)) (Finset.singleton_subset_iff.mpr hi)
    rwa [Finset.sum_singleton] at hsdiff
  have hupdate : ∀ j, f (Function.update g i b j) = Function.update (fun j => f (g j)) i (f b) j :=
    fun j => Function.apply_update (fun _ => f) g i b j
  simp only [hupdate]
  rw [Finset.sum_update_of_mem hi, add_assoc, hsplit, add_comm]

end Sums

end NetworkBfd.Lib
