import Mathlib.Data.List.Basic
import Mathlib.Data.Nat.ModEq
import Mathlib.Logic.Function.Basic
import Mathlib.Logic.Relation

/-!
# A machine between two queues

A relay takes what waits in one queue, one after the other, and leaves its outputs in another one, from which they are
sent. Whatever the order of its steps, what was sent and what is still to come are the outputs of the machine for what
was received (`Relay.Exact.steps`).

Queues lie in rings of `n` places (`window`), between two cursors at some `distance`. A machine that writes each output
into the next place of a ring, and repeats what lies there where it has no answer, says again what it said `n` outputs
ago (`outputs_repeat`).
-/

namespace NetworkBfd.Lib

/-! ## Machines -/

section Machine

variable {σ α β : Type*} {f : σ → α → σ × β} {s : σ}

/-- The outputs of a machine. -/
def outputs (f : σ → α → σ × β) : σ → List α → List β
  | _, [] => []
  | s, x :: xs => (f s x).2 :: outputs f (f s x).1 xs

/-- The state of a machine after its inputs. -/
def stateAfter (f : σ → α → σ × β) (s : σ) (xs : List α) : σ := xs.foldl (fun s x => (f s x).1) s

theorem stateAfter_append (xs ys : List α) : stateAfter f s (xs ++ ys) = stateAfter f (stateAfter f s xs) ys :=
  List.foldl_append

theorem outputs_append (xs ys : List α) :
    outputs f s (xs ++ ys) = outputs f s xs ++ outputs f (stateAfter f s xs) ys := by
  induction xs generalizing s with
  | nil => rfl
  | cons x xs ih => exact congrArg ((f s x).2 :: ·) ih

theorem length_outputs (xs : List α) : (outputs f s xs).length = xs.length := by
  induction xs generalizing s with
  | nil => rfl
  | cons x xs ih => exact congrArg (· + 1) ih

/-- Each input is answered in the state after those before it. -/
theorem getElem?_outputs {xs : List α} {j : ℕ} {x : α} (h : xs[j]? = some x) :
    (outputs f s xs)[j]? = some (f (stateAfter f s (xs.take j)) x).2 := by
  induction xs generalizing s j with
  | nil => cases h
  | cons y ys ih =>
    cases j with
    | zero =>
      obtain rfl := Option.some.inj h
      rfl
    | succ j => exact ih h

theorem stateAfter_take_succ {xs : List α} {j : ℕ} {x : α} (h : xs[j]? = some x) :
    stateAfter f s (xs.take (j + 1)) = (f (stateAfter f s (xs.take j)) x).1 := by
  rw [List.take_add_one, h, stateAfter_append]
  rfl

end Machine

/-! ## Relays -/

/-- A machine between two queues, with all that it ever received and sent. -/
structure Relay (σ α β : Type*) where
  waiting : List α
  state : σ
  pending : List β
  received : List α
  sent : List β

namespace Relay

variable {σ α β : Type*} {f : σ → α → σ × β} {s₀ : σ} {r r' : Relay σ α β}

/-- The steps of a relay. -/
inductive Step (f : σ → α → σ × β) : Relay σ α β → Relay σ α β → Prop
  | receive (r : Relay σ α β) (x : α) :
    Step f r { r with waiting := r.waiting ++ [x], received := r.received ++ [x] }
  | work {r : Relay σ α β} {x : α} {xs : List α} (h : r.waiting = x :: xs) :
    Step f r { r with waiting := xs, state := (f r.state x).1, pending := r.pending ++ [(f r.state x).2] }
  | transmit {r : Relay σ α β} {y : β} {ys : List β} (h : r.pending = y :: ys) :
    Step f r { r with pending := ys, sent := r.sent ++ [y] }

/-- What was sent and what is to come are the outputs for what was received, in this order. -/
structure Exact (f : σ → α → σ × β) (s₀ : σ) (r : Relay σ α β) : Prop where
  outputs : outputs f s₀ r.received = r.sent ++ r.pending ++ outputs f r.state r.waiting
  state : stateAfter f s₀ r.received = stateAfter f r.state r.waiting

theorem Exact.start (f : σ → α → σ × β) (s₀ : σ) : Exact f s₀ ⟨[], s₀, [], [], []⟩ := ⟨rfl, rfl⟩

theorem Exact.step (h : Exact f s₀ r) (hstep : Step f r r') : Exact f s₀ r' := by
  obtain ⟨hout, hstate⟩ := h
  cases hstep with
  | receive x =>
    refine ⟨?_, ?_⟩
    · simp only [outputs_append, hout, hstate, List.append_assoc]
    · simp only [stateAfter_append, hstate]
  | work hw =>
    rw [hw] at hout hstate
    refine ⟨?_, hstate⟩
    rw [hout]
    simp only [Lib.outputs, List.append_assoc, List.singleton_append]
  | transmit hp =>
    rw [hp] at hout
    refine ⟨?_, hstate⟩
    rw [hout]
    simp only [List.append_assoc, List.cons_append, List.nil_append]

theorem Exact.steps (h : Exact f s₀ r) (hsteps : Relation.ReflTransGen (Step f) r r') : Exact f s₀ r' := by
  induction hsteps with
  | refl => exact h
  | tail _ hstep ih => exact ih.step hstep

/-- Nothing is lost, and nothing comes twice. -/
theorem Exact.length_eq (h : Exact f s₀ r) :
    r.received.length = r.sent.length + r.pending.length + r.waiting.length := by
  have hlen := congrArg List.length h.outputs
  rwa [length_outputs, List.length_append, List.length_append, length_outputs] at hlen

end Relay

/-! ## Rings -/

section Ring

variable {α : Type*} {f g : ℕ → α} {n a b k i j : ℕ}

theorem add_mod_ne_of_lt (hij : i < j) (hj : j < i + n) : (a + i) % n ≠ (a + j) % n := by
  intro h
  have hmod : i ≡ j [MOD n] := Nat.ModEq.add_left_cancel' a h
  have hdvd := (Nat.modEq_iff_dvd' hij.le).mp hmod
  have hle := Nat.le_of_dvd (by omega) hdvd
  omega

/-- The `k` places of a ring from `a` on. -/
def window (f : ℕ → α) (n a k : ℕ) : List α := (List.range k).map fun i => f ((a + i) % n)

@[simp] theorem length_window : (window f n a k).length = k := by
  rw [window, List.length_map, List.length_range]

theorem window_snoc : window f n a (k + 1) = window f n a k ++ [f ((a + k) % n)] := by
  rw [window, List.range_succ, List.map_append]
  rfl

theorem window_cons (ha : a < n) : window f n a (k + 1) = f a :: window f n ((a + 1) % n) k := by
  rw [window, List.range_succ_eq_map, List.map_cons, List.map_map, Nat.add_zero, Nat.mod_eq_of_lt ha]
  refine congrArg (f a :: ·) (List.map_congr_left fun i _ => ?_)
  rw [Function.comp_apply, Nat.mod_add_mod, Nat.succ_eq_add_one, Nat.add_assoc, Nat.add_comm 1]

theorem window_congr (h : ∀ i < k, f ((a + i) % n) = g ((a + i) % n)) : window f n a k = window g n a k :=
  List.map_congr_left fun i hi => h i (List.mem_range.mp hi)

/-- How far it is from `a` to `b`. -/
def distance (n a b : ℕ) : ℕ := (b + n - a) % n

theorem distance_lt (ha : a < n) : distance n a b < n := Nat.mod_lt _ (Nat.zero_lt_of_lt ha)

theorem distance_self : distance n a a = 0 := by
  rw [distance, Nat.add_sub_cancel_left, Nat.mod_self]

theorem add_distance (ha : a < n) (hb : b < n) : (a + distance n a b) % n = b := by
  rw [distance, Nat.add_mod_mod, show a + (b + n - a) = b + n by omega, Nat.add_mod_right, Nat.mod_eq_of_lt hb]

theorem distance_eq (ha : a < n) (hk : k < n) : distance n a ((a + k) % n) = k := by
  have hb : (a + k) % n < n := Nat.mod_lt _ (Nat.zero_lt_of_lt ha)
  have hadd := @add_distance n a ((a + k) % n) ha hb
  have hlt := @distance_lt n a ((a + k) % n) ha
  rcases Nat.lt_trichotomy (distance n a ((a + k) % n)) k with h | h | h
  · exact absurd hadd (add_mod_ne_of_lt h (by omega))
  · exact h
  · exact absurd hadd.symm (add_mod_ne_of_lt h (by omega))

/-- The front cursor moves on. -/
theorem distance_snoc (ha : a < n) (hb : b < n) (h : distance n a b + k < n) :
    distance n a ((b + k) % n) = distance n a b + k := by
  have hadd := add_distance ha hb
  rw [← distance_eq ha h, ← Nat.add_assoc]
  conv_lhs => rw [← hadd, Nat.mod_add_mod]

/-- The cursor behind moves on. -/
theorem distance_cons (ha : a < n) (hb : b < n) (h : k < distance n a b + 1) :
    distance n ((a + k) % n) b = distance n a b - k := by
  have hlt := @distance_lt n a b ha
  have ha' : (a + k) % n < n := Nat.mod_lt _ (by omega)
  rw [← @distance_eq n ((a + k) % n) (distance n a b - k) ha' (by omega), Nat.mod_add_mod, Nat.add_assoc,
    show k + (distance n a b - k) = distance n a b by omega, add_distance ha hb]

/-- The front cursor is not next to the one behind as long as there is room. -/
theorem distance_room (ha : a < n) (hb : b < n) (h : (b + 1) % n ≠ a) : distance n a b + 1 < n := by
  have hlt := @distance_lt n a b ha
  by_contra hn
  refine h ?_
  rw [← add_distance ha hb, Nat.mod_add_mod, Nat.add_assoc, show distance n a b + 1 = n by omega, Nat.add_mod_right,
    Nat.mod_eq_of_lt ha]

theorem distance_add {c : ℕ} (ha : a < n) (hb : b < n) (hc : c < n) (h : distance n a b + distance n b c < n) :
    distance n a c = distance n a b + distance n b c := by
  rw [← distance_eq ha h, ← Nat.add_assoc, ← Nat.mod_add_mod, add_distance ha hb, add_distance hb hc]

theorem distance_ne_zero (ha : a < n) (hb : b < n) (h : a ≠ b) : distance n a b ≠ 0 := by
  intro hn
  have hadd := add_distance ha hb
  rw [hn, Nat.add_zero, Nat.mod_eq_of_lt ha] at hadd
  exact h hadd

end Ring

/-! ## A machine that repeats itself -/

section Repeat

variable {α : Type*} {n : ℕ} {answer : α → Option α} {slots : ℕ → α} {t : ℕ} {xs : List α}

/-- An output goes to the next place of a ring: the answer, or what lies there. -/
def repeatStep (n : ℕ) (answer : α → Option α) (s : (ℕ → α) × ℕ) (x : α) : ((ℕ → α) × ℕ) × α :=
  let y := (answer x).getD (s.1 s.2)
  ((Function.update s.1 s.2 y, (s.2 + 1) % n), y)

/-- The place of the next output, the outputs of the last round, and the places that no output has reached. -/
theorem stateAfter_repeat (ht : t < n) {j : ℕ} (hj : j ≤ xs.length) :
    (stateAfter (repeatStep n answer) (slots, t) (xs.take j)).2 = (t + j) % n ∧
      (∀ d, 1 ≤ d → d ≤ n → d ≤ j → (outputs (repeatStep n answer) (slots, t) xs)[j - d]? =
        some ((stateAfter (repeatStep n answer) (slots, t) (xs.take j)).1 ((t + (j - d)) % n))) ∧
      ∀ i, j ≤ i → i < n → (stateAfter (repeatStep n answer) (slots, t) (xs.take j)).1 ((t + i) % n) =
        slots ((t + i) % n) := by
  induction j with
  | zero => exact ⟨(Nat.mod_eq_of_lt ht).symm, fun d h1 _ h2 => absurd h2 (by omega), fun _ _ _ => rfl⟩
  | succ j ih =>
    obtain ⟨hpos, hlast, hfirst⟩ := ih (by omega)
    obtain ⟨x, hx⟩ : ∃ x, xs[j]? = some x := ⟨_, List.getElem?_eq_getElem hj⟩
    have hout := @getElem?_outputs _ _ _ (repeatStep n answer) (slots, t) _ _ _ hx
    rw [stateAfter_take_succ hx]
    generalize stateAfter (repeatStep n answer) (slots, t) (xs.take j) = s at hpos hlast hfirst hout ⊢
    simp only [repeatStep, hpos] at hout ⊢
    refine ⟨by rw [Nat.mod_add_mod, Nat.add_assoc], fun d h1 hd hdj => ?_, fun i hi hin => ?_⟩
    · rcases Nat.eq_or_lt_of_le h1 with rfl | h2
      · rw [Nat.add_sub_cancel, Function.update_self]
        exact hout
      · have hne : (t + (j + 1 - d)) % n ≠ (t + j) % n := add_mod_ne_of_lt (by omega) (by omega)
        rw [Function.update_of_ne hne, show j + 1 - d = j - (d - 1) by omega]
        exact hlast (d - 1) (by omega) (by omega) (by omega)
    · have hne : (t + i) % n ≠ (t + j) % n := (add_mod_ne_of_lt (by omega) (by omega)).symm
      rw [Function.update_of_ne hne]
      exact hfirst i (by omega) hin

/-- An input that has no answer is answered with what lay in its place, or with the output `n` inputs ago. -/
theorem outputs_repeat (ht : t < n) {j : ℕ} {x : α} (hx : xs[j]? = some x) :
    (∀ y, answer x = some y → (outputs (repeatStep n answer) (slots, t) xs)[j]? = some y) ∧
      (answer x = none → j < n → (outputs (repeatStep n answer) (slots, t) xs)[j]? = some (slots ((t + j) % n))) ∧
      (answer x = none → n ≤ j → (outputs (repeatStep n answer) (slots, t) xs)[j]? =
        (outputs (repeatStep n answer) (slots, t) xs)[j - n]?) := by
  obtain ⟨hlt, -⟩ := List.getElem?_eq_some_iff.mp hx
  obtain ⟨hpos, hlast, hfirst⟩ := @stateAfter_repeat _ n answer slots t xs ht j hlt.le
  have hout := @getElem?_outputs _ _ _ (repeatStep n answer) (slots, t) _ _ _ hx
  simp only [repeatStep, hpos] at hout
  refine ⟨fun y hy => ?_, fun hnone hj => ?_, fun hnone hj => ?_⟩
  · rw [hout, hy, Option.getD_some]
  · rw [hout, hnone, Option.getD_none, hfirst j le_rfl hj]
  · rw [hout, hnone, Option.getD_none, hlast n (by omega) le_rfl hj, ← Nat.add_mod_right (t + (j - n)),
      show t + (j - n) + n = t + j by omega]

end Repeat

end NetworkBfd.Lib
