import Mathlib.Combinatorics.Pigeonhole
import Mathlib.Data.List.Basic
import Mathlib.Logic.Function.Iterate
import Mathlib.Logic.Relation
import Mathlib.Tactic.Common

/-!
# Doubly linked lists

`Linked next prev close a l` says that the links lead from the head `a` through the items of `l` to `close`, and back.
A list keeps its links where the functions keep their values (`Linked.congr`), takes a new last item (`Linked.push`)
and loses an item from any place (`Linked.unlink`). `follow` is the loop that walks along such a list and checks every
item; on a well linked list it visits just the items (`follow_linked`).

`Leads good f a b` says that steps `f`, each from a state that is `good`, lead from `a` to `b`. If the good states are
finitely many, so are the steps that are needed (`leads_iff_le`), whatever cycles there are.
-/

namespace NetworkBfd.Lib

variable {α : Type} {next prev next' prev' : α → α} {close a x : α} {l l₁ l₂ : List α}

/-- The links lead from `a` through `l` to `close`, and back. -/
def Linked (next prev : α → α) (close : α) : α → List α → Prop
  | a, [] => next a = close
  | a, b :: l => next a = b ∧ prev b = a ∧ Linked next prev close b l

namespace Linked

theorem congr (h : Linked next prev close a l) (hn : ∀ y ∈ a :: l, next' y = next y)
    (hp : ∀ y ∈ l, prev' y = prev y) : Linked next' prev' close a l := by
  induction l generalizing a with
  | nil => exact (hn a List.mem_cons_self).trans h
  | cons b l ih =>
    obtain ⟨h1, h2, h3⟩ := h
    refine ⟨(hn a List.mem_cons_self).trans h1, (hp b List.mem_cons_self).trans h2, ?_⟩
    exact ih h3 (fun y hy => hn y (List.mem_cons_of_mem a hy)) fun y hy => hp y (List.mem_cons_of_mem b hy)

/-- The list up to an item and from it on. -/
theorem split (h : Linked next prev close a (l₁ ++ x :: l₂)) :
    prev x = l₁.getLastD a ∧ Linked next prev close x l₂ := by
  induction l₁ generalizing a with
  | nil => exact ⟨h.2.1, h.2.2⟩
  | cons b l₁ ih =>
    rw [List.getLastD_cons]
    exact ih h.2.2

theorem next_eq (h : Linked next prev close a l) : next a = l.headD close := by
  cases l with
  | nil => exact h
  | cons b l => exact h.1

/-- Only the last item leads to `close`. -/
theorem next_ne_close (h : Linked next prev close a (x :: l)) (hx : x ≠ close) : next a ≠ close := by
  rw [h.1]
  exact hx

end Linked

theorem getLastD_mem (l : List α) (a : α) : l.getLastD a ∈ a :: l := by
  induction l generalizing a with
  | nil => exact List.mem_cons_self
  | cons b l ih =>
    rw [List.getLastD_cons]
    exact List.mem_cons_of_mem a (ih b)

theorem getLastD_append_cons (l₁ l₂ : List α) (a x : α) : (l₁ ++ x :: l₂).getLastD a = l₂.getLastD x := by
  induction l₁ generalizing a with
  | nil => rw [List.nil_append, List.getLastD_cons]
  | cons b l₁ ih => rw [List.cons_append, List.getLastD_cons, ih]

namespace Linked

/-- A new last item. -/
theorem push (h : Linked next prev close a l) (hnd : (a :: l).Nodup)
    (hlast : next' (l.getLastD a) = x) (hnext : ∀ y ∈ a :: l, y ≠ l.getLastD a → next' y = next y)
    (hprev : ∀ y ∈ l, prev' y = prev y) (hx : next' x = close) (hpx : prev' x = l.getLastD a) :
    Linked next' prev' close a (l ++ [x]) := by
  induction l generalizing a with
  | nil => exact ⟨hlast, hpx, hx⟩
  | cons b l ih =>
    obtain ⟨h1, h2, h3⟩ := h
    rw [List.getLastD_cons] at hlast hnext hpx
    have hne : a ≠ l.getLastD b := by
      rintro rfl
      exact (List.nodup_cons.mp hnd).1 (getLastD_mem l b)
    refine ⟨(hnext a List.mem_cons_self hne).trans h1, (hprev b List.mem_cons_self).trans h2, ?_⟩
    exact ih h3 (List.nodup_cons.mp hnd).2 hlast (fun y hy => hnext y (List.mem_cons_of_mem a hy))
      (fun y hy => hprev y (List.mem_cons_of_mem b hy)) hpx

/-- An item is taken out: its neighbours are linked to each other. -/
theorem unlink (h : Linked next prev close a (l₁ ++ x :: l₂)) (hnd : (a :: (l₁ ++ x :: l₂)).Nodup)
    (hlast : next' (l₁.getLastD a) = next x)
    (hnext : ∀ y ∈ a :: (l₁ ++ l₂), y ≠ l₁.getLastD a → next' y = next y)
    (hhead : ∀ y, l₂.head? = some y → prev' y = prev x)
    (hprev : ∀ y ∈ l₁ ++ l₂, l₂.head? ≠ some y → prev' y = prev y) :
    Linked next' prev' close a (l₁ ++ l₂) := by
  induction l₁ generalizing a with
  | nil =>
    obtain ⟨-, h2, h3⟩ := h
    cases l₂ with
    | nil => exact hlast.trans h3
    | cons b l₂ =>
      obtain ⟨h4, -, h6⟩ := h3
      have hnd' := (List.nodup_cons.mp (List.nodup_cons.mp hnd).2).2
      refine ⟨hlast.trans h4, (hhead b rfl).trans h2, h6.congr (fun y hy => ?_) fun y hy => ?_⟩
      · refine hnext y (List.mem_cons_of_mem a hy) ?_
        rintro rfl
        exact (List.nodup_cons.mp hnd).1 (List.mem_cons_of_mem x hy)
      · refine hprev y (List.mem_cons_of_mem b hy) fun heq => ?_
        cases heq
        exact (List.nodup_cons.mp hnd').1 hy
  | cons b l₁ ih =>
    obtain ⟨h1, h2, h3⟩ := h
    rw [List.getLastD_cons] at hlast hnext
    have hnd' := (List.nodup_cons.mp hnd).2
    have hne : a ≠ l₁.getLastD b := by
      rintro rfl
      refine (List.nodup_cons.mp hnd).1 ?_
      rw [List.cons_append]
      rcases List.mem_cons.mp (getLastD_mem l₁ b) with heq | hm
      · rw [heq]
        exact List.mem_cons_self
      · exact List.mem_cons_of_mem b (List.mem_append_left _ hm)
    have hb : l₂.head? ≠ some b := by
      intro heq
      refine (List.nodup_cons.mp hnd').1 ?_
      exact List.mem_append_right _ (List.mem_cons_of_mem x (List.mem_of_mem_head? heq))
    refine ⟨(hnext a List.mem_cons_self hne).trans h1, (hprev b List.mem_cons_self hb).trans h2, ?_⟩
    exact ih h3 hnd' hlast (fun y hy => hnext y (List.mem_cons_of_mem a hy))
      fun y hy => hprev y (List.mem_cons_of_mem b hy)

end Linked

/-! ## Walking along a list -/

variable [DecidableEq α] {ok : α → Bool} {n : Nat}

/-- The items visited from `a` on, and whether `close` was reached. The walk stops at an item that is not `ok`, and
after `n` items. -/
def follow (next : α → α) (close : α) (ok : α → Bool) : Nat → Bool → α → List α × Bool
  | 0, _, _ => ([], false)
  | n + 1, valid, a =>
    if valid then
      if next a = close then ([a], true)
      else
        let rest := follow next close ok n (ok (next a)) (next a)
        (a :: rest.1, rest.2)
    else ([], false)

theorem follow_linked (h : Linked next prev close a l) (hc : ∀ y ∈ l, y ≠ close) (hok : ∀ y ∈ l, ok y = true)
    (hn : l.length < n) : follow next close ok n true a = (a :: l, true) := by
  induction n generalizing a l with
  | zero => omega
  | succ n ih =>
    rw [follow, if_pos rfl]
    cases l with
    | nil =>
      have hnext : next a = close := h
      rw [if_pos hnext]
    | cons b l =>
      rw [if_neg (h.next_ne_close (hc b List.mem_cons_self)), h.1, hok b List.mem_cons_self]
      have hrest := ih h.2.2 (fun y hy => hc y (List.mem_cons_of_mem b hy))
        (fun y hy => hok y (List.mem_cons_of_mem b hy)) (by simpa using hn)
      simp only [hrest]

/-! ## Where the links lead -/

section Leads

variable {σ : Type} {f : σ → σ} {good : σ → Prop} {a b : σ} {S : Finset σ} {k : Nat}

/-- Steps from good states lead from `a` to `b`. -/
def Leads (good : σ → Prop) (f : σ → σ) : σ → σ → Prop := Relation.ReflTransGen fun s s' => good s ∧ s' = f s

theorem leads_iff : Leads good f a b ↔ ∃ k, b = f^[k] a ∧ ∀ i < k, good (f^[i] a) := by
  constructor
  · intro h
    induction h with
    | refl => exact ⟨0, rfl, fun i hi => absurd hi (Nat.not_lt_zero i)⟩
    | tail _ hstep ih =>
      obtain ⟨k, rfl, hk⟩ := ih
      refine ⟨k + 1, by rw [Function.iterate_succ_apply', ← hstep.2], fun i hi => ?_⟩
      rcases Nat.lt_succ_iff_lt_or_eq.mp hi with hi | rfl
      · exact hk i hi
      · exact hstep.1
  · rintro ⟨k, rfl, hk⟩
    induction k with
    | zero => exact .refl
    | succ k ih =>
      refine (ih fun i hi => hk i (Nat.lt_succ_of_lt hi)).tail ⟨hk k (Nat.lt_succ_self k), ?_⟩
      rw [Function.iterate_succ_apply']

/-- Among many steps through few states there is a cycle that can be left out. -/
theorem exists_iterate_le (h : ∀ i < k, f^[i] a ∈ S) : ∃ j ≤ S.card, j ≤ k ∧ f^[j] a = f^[k] a := by
  induction k using Nat.strong_induction_on with
  | _ k ih =>
    rcases Nat.lt_or_ge S.card k with hlt | hle
    · obtain ⟨x, hx, y, hy, hne, heq⟩ := Finset.exists_ne_map_eq_of_card_lt_of_maps_to
        (s := Finset.range k) (f := fun i => f^[i] a) (by rwa [Finset.card_range])
        fun i hi => h i (Finset.mem_range.mp hi)
      obtain ⟨i, j, hij, hjk, heq⟩ : ∃ i j, i < j ∧ j < k ∧ f^[i] a = f^[j] a := by
        rcases Nat.lt_or_gt_of_ne hne with hxy | hxy
        · exact ⟨x, y, hxy, Finset.mem_range.mp hy, heq⟩
        · exact ⟨y, x, hxy, Finset.mem_range.mp hx, heq.symm⟩
      have hcut : f^[k - j + i] a = f^[k] a := by
        rw [Function.iterate_add_apply, heq, ← Function.iterate_add_apply, Nat.sub_add_cancel (le_of_lt hjk)]
      obtain ⟨l, hl, hlk, hfl⟩ := ih (k - j + i) (by omega) fun i' hi' => h i' (by omega)
      exact ⟨l, hl, by omega, hfl.trans hcut⟩
    · exact ⟨k, hle, le_refl k, rfl⟩

/-- Where the good states are finitely many, at most so many steps are needed. -/
theorem leads_iff_le (hS : ∀ s, Leads good f a s → good s → s ∈ S) :
    Leads good f a b ↔ ∃ k ≤ S.card, b = f^[k] a ∧ ∀ i < k, good (f^[i] a) := by
  refine ⟨fun h => ?_, fun ⟨k, _, hk⟩ => leads_iff.mpr ⟨k, hk⟩⟩
  obtain ⟨k, rfl, hk⟩ := leads_iff.mp h
  obtain ⟨j, hj, hjk, heq⟩ := exists_iterate_le (S := S) fun i hi =>
    hS _ (leads_iff.mpr ⟨i, rfl, fun j hj => hk j (hj.trans hi)⟩) (hk i hi)
  exact ⟨j, hj, heq.symm, fun i hi => hk i (lt_of_lt_of_le hi hjk)⟩

/-- What holds of the states that fewer than `n + 1` steps lead to, seen from the first step. -/
theorem forall_iterate_succ {P : σ → Prop} {n : Nat} :
    (∀ k < n + 1, (∀ i < k, good (f^[i] a)) → P (f^[k] a)) ↔
      P a ∧ (good a → ∀ k < n, (∀ i < k, good (f^[i] (f a))) → P (f^[k] (f a))) := by
  constructor
  · intro h
    refine ⟨h 0 (Nat.succ_pos n) fun i hi => absurd hi (Nat.not_lt_zero i), fun ha k hk hi => ?_⟩
    refine h (k + 1) (Nat.succ_lt_succ hk) fun i hik => ?_
    cases i with
    | zero => exact ha
    | succ i => exact hi i (Nat.lt_of_succ_lt_succ hik)
  · rintro ⟨h, hrest⟩ k hk hi
    cases k with
    | zero => exact h
    | succ k =>
      exact hrest (hi 0 (Nat.succ_pos k)) k (Nat.lt_of_succ_lt_succ hk) fun i hik => hi (i + 1) (Nat.succ_lt_succ hik)

end Leads

end NetworkBfd.Lib
