import Mathlib.Algebra.BigOperators.Group.Finset.Basic
import Mathlib.Algebra.BigOperators.Ring.Finset
import Mathlib.Algebra.Order.BigOperators.Group.Finset

/-!
# First fit into bins from which nothing is taken

Each request names a size and an order of the bins, and goes to the first bin in its order in which less than `cap` is
taken then (`place`, `put`). Each request adds to what is taken in all bins its size, or nothing (`total_put`), and it
is refused only where each bin of its order has too little left (`place_eq_none`).
-/

namespace NetworkBfd.Lib

/-- How much is taken in each bin; `none` is no bin. -/
abbrev Bins (ι : Type) := ι → Option ℕ

namespace Bins

variable {ι : Type} {cap n : ℕ} {bins : Bins ι} {order : List ι} {k : ι}

/-- Bin `k` is there and takes `n` more. -/
def Fits (cap n : ℕ) (bins : Bins ι) (k : ι) : Prop := ∃ u, bins k = some u ∧ u + n < cap

instance (cap n : ℕ) (bins : Bins ι) (k : ι) : Decidable (Fits cap n bins k) :=
  match h : bins k with
  | none => isFalse fun ⟨_, hu, _⟩ => by rw [h] at hu; cases hu
  | some u => decidable_of_iff (u + n < cap) ⟨fun hlt => ⟨u, h, hlt⟩, fun ⟨v, hv, hlt⟩ => by
      rw [h] at hv
      cases hv
      exact hlt⟩

/-- The first bin in the order that takes `n` more. -/
def place (cap : ℕ) (order : List ι) (n : ℕ) (bins : Bins ι) : Option ι :=
  order.find? fun k => decide (Fits cap n bins k)

theorem place_eq_some (h : place cap order n bins = some k) : k ∈ order ∧ Fits cap n bins k :=
  ⟨List.mem_of_find?_eq_some h, by simpa using List.find?_some h⟩

theorem place_eq_none : place cap order n bins = none ↔ ∀ k ∈ order, ¬ Fits cap n bins k := by
  simp [place]

/-- The first bin that fits is found. -/
theorem place_of_split {before after : List ι} (hfits : Fits cap n bins k)
    (hbefore : ∀ j ∈ before, ¬ Fits cap n bins j) :
    place cap (before ++ k :: after) n bins = some k := by
  have hnone : before.find? (fun j => decide (Fits cap n bins j)) = none :=
    List.find?_eq_none.mpr fun j hj hn => hbefore j hj (of_decide_eq_true hn)
  rw [place, List.find?_append, hnone, Option.none_or]
  exact List.find?_cons_of_pos (decide_eq_true hfits)

/-- What a request takes. -/
def taken (cap : ℕ) (order : List ι) (n : ℕ) (bins : Bins ι) : ℕ :=
  match place cap order n bins with
  | some _ => n
  | none => 0

theorem taken_of_place (h : place cap order n bins = some k) : taken cap order n bins = n := by
  rw [taken, h]

theorem taken_of_none (h : place cap order n bins = none) : taken cap order n bins = 0 := by
  rw [taken, h]

/-- What is taken in the bins of `s`. -/
def total (s : Finset ι) (bins : Bins ι) : ℕ := ∑ k ∈ s, (bins k).getD 0

section Put

variable [DecidableEq ι]

/-- What a request does. -/
def put (cap : ℕ) (order : List ι) (n : ℕ) (bins : Bins ι) : Bins ι :=
  match place cap order n bins with
  | some k => Function.update bins k ((bins k).map (· + n))
  | none => bins

theorem put_of_place {u : ℕ} (h : place cap order n bins = some k) (hu : bins k = some u) :
    put cap order n bins = Function.update bins k (some (u + n)) := by
  rw [put, h]
  dsimp only
  rw [hu, Option.map_some]

theorem put_of_none (h : place cap order n bins = none) : put cap order n bins = bins := by
  rw [put, h]

/-- A request takes its size, or nothing. -/
theorem total_put {s : Finset ι} (hs : ∀ k ∈ order, k ∈ s) :
    total s (put cap order n bins) = total s bins + taken cap order n bins := by
  cases hplace : place cap order n bins with
  | none => rw [put_of_none hplace, taken_of_none hplace, Nat.add_zero]
  | some k =>
    obtain ⟨hk, u, hu, -⟩ := place_eq_some hplace
    rw [put_of_place hplace hu, taken_of_place hplace, total, total, ← Finset.add_sum_erase s _ (hs k hk),
      ← Finset.add_sum_erase s _ (hs k hk), Function.update_self, hu, Option.getD_some, Option.getD_some]
    have hothers : ∀ j ∈ s.erase k, (Function.update bins k (some (u + n)) j).getD 0 = (bins j).getD 0 := fun j hj => by
      rw [Function.update_of_ne (Finset.ne_of_mem_erase hj)]
    rw [Finset.sum_congr rfl hothers]
    omega

/-- Requests make no bins. -/
theorem put_isSome (j : ι) : (put cap order n bins j).isSome = (bins j).isSome := by
  cases hplace : place cap order n bins with
  | none => rw [put_of_none hplace]
  | some k =>
    obtain ⟨-, u, hu, -⟩ := place_eq_some hplace
    rw [put_of_place hplace hu]
    by_cases hj : j = k
    · subst hj
      rw [Function.update_self, hu, Option.isSome_some, Option.isSome_some]
    · rw [Function.update_of_ne hj]

/-- Requests, one after the other. -/
def putAll (cap : ℕ) (bins : Bins ι) (requests : List (List ι × ℕ)) : Bins ι :=
  requests.foldl (fun bins r => put cap r.1 r.2 bins) bins

theorem putAll_snoc (requests : List (List ι × ℕ)) (r : List ι × ℕ) :
    putAll cap bins (requests ++ [r]) = put cap r.1 r.2 (putAll cap bins requests) := by
  rw [putAll, List.foldl_append]
  rfl

theorem putAll_isSome (requests : List (List ι × ℕ)) (j : ι) :
    (putAll cap bins requests j).isSome = (bins j).isSome := by
  induction requests generalizing bins with
  | nil => rfl
  | cons r requests ih => exact ih.trans (put_isSome j)

end Put

/-- Bins that are never full bound what is taken. -/
theorem total_le {s : Finset ι} (h : ∀ k ∈ s, ∀ u, bins k = some u → u < cap) :
    total s bins ≤ (s.filter fun k => (bins k).isSome).card * (cap - 1) := by
  rw [total, ← Finset.sum_const_nat (fun k _ => rfl), Finset.sum_filter]
  refine Finset.sum_le_sum fun k hk => ?_
  cases hu : bins k with
  | none => exact Nat.zero_le _
  | some u => exact Nat.le_sub_one_of_lt (h k hk u hu)

end Bins

end NetworkBfd.Lib
