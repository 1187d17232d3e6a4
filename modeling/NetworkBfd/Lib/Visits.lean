import Mathlib.Data.List.Perm.Subperm
import Mathlib.Tactic.Common

/-!
# Traversals with a callback

A traversal calls `f` on some elements in some order and threads the state `σ` of the caller through. `Visits stop f L`
relates the states before and after a traversal that makes no call twice and none outside `L`, and that makes them all
unless one of them answers `stop`. What a traversal does to the caller's state is then an induction over the calls
(`Visits.invariant`).

`Course stop f L` says in addition in which order the calls are made and which of them end the traversal when they
answer `stop`: those on elements of `L` that are marked. On the others the traversal goes on (`Course.obeys_iff`).
`reached` says which calls are made where it depends on the element alone whether the traversal stops at it.
-/

namespace NetworkBfd.Lib

variable {α β σ : Type} {stop : β → Prop} {f : α → σ → β × σ} {L : List α} {u u' : σ}

/-- The state after calling `f` on each of `vs` in turn. -/
def callAll (f : α → σ → β × σ) : List α → σ → σ
  | [], u => u
  | v :: vs, u => callAll f vs (f v u).2

/-- None of the calls answers `stop`. -/
def Quiet (stop : β → Prop) (f : α → σ → β × σ) : List α → σ → Prop
  | [], _ => True
  | v :: vs, u => ¬ stop (f v u).1 ∧ Quiet stop f vs (f v u).2

theorem callAll_append (vs ws : List α) : ∀ u : σ, callAll f (vs ++ ws) u = callAll f ws (callAll f vs u) := by
  induction vs with
  | nil => intro u; rfl
  | cons v vs ih => intro u; exact ih _

theorem quiet_append (vs ws : List α) : ∀ u : σ,
    Quiet stop f (vs ++ ws) u ↔ Quiet stop f vs u ∧ Quiet stop f ws (callAll f vs u) := by
  induction vs with
  | nil => intro u; simp [Quiet, callAll]
  | cons v vs ih => intro u; simp only [List.cons_append, Quiet, callAll, ih, and_assoc]

theorem quiet_of_forall (h : ∀ v u, ¬ stop (f v u).1) : ∀ (vs : List α) (u : σ), Quiet stop f vs u
  | [], _ => trivial
  | v :: vs, u => ⟨h v u, quiet_of_forall h vs _⟩

/-- Some of `L` was visited, each at most once, and all of it if no call answered `stop`. -/
def Visits (stop : β → Prop) (f : α → σ → β × σ) (L : List α) (u u' : σ) : Prop :=
  ∃ vs, u' = callAll f vs u ∧ vs.Subperm L ∧ (Quiet stop f vs u → vs.Perm L)

/-- What every call keeps holds after the traversal. -/
theorem callAll_invariant {I : σ → Prop} : ∀ {vs : List α} {u : σ}, (∀ v ∈ vs, ∀ u, I u → I (f v u).2) → I u →
    I (callAll f vs u)
  | [], _, _, h => h
  | v :: vs, u, step, h =>
    @callAll_invariant I vs _ (fun w hw => step w (List.mem_cons_of_mem _ hw)) (step v (by simp) u h)

/-- Calls that only collect what they are made for. -/
theorem callAll_collect {b : β} : ∀ (vs us : List α), callAll (fun v us => (b, v :: us)) vs us = vs.reverse ++ us
  | [], _ => rfl
  | v :: vs, us => by
    rw [callAll, callAll_collect vs, List.reverse_cons, List.append_assoc, List.singleton_append]

theorem Visits.invariant {I : σ → Prop} (h : Visits stop f L u u') (step : ∀ v ∈ L, ∀ u, I u → I (f v u).2)
    (hu : I u) : I u' := by
  obtain ⟨vs, rfl, h2, -⟩ := h
  exact callAll_invariant (fun v hv => step v (h2.subset hv)) hu

/-! ## Writing the calls down -/

/-- The callback, with each call and its answer written down. -/
def recorded (f : α → σ → β × σ) (k : α) (u : σ × List (α × β)) : β × (σ × List (α × β)) :=
  ((f k u.1).1, (f k u.1).2, u.2 ++ [(k, (f k u.1).1)])

/-- The calls on `vs` in turn with their answers. -/
def answers (f : α → σ → β × σ) : List α → σ → List (α × β)
  | [], _ => []
  | k :: vs, u => (k, (f k u).1) :: answers f vs (f k u).2

theorem callAll_recorded : ∀ (vs : List α) (u : σ) (log : List (α × β)),
    callAll (recorded f) vs (u, log) = (callAll f vs u, log ++ answers f vs u)
  | [], u, log => by simp [callAll, answers]
  | k :: vs, u, log => by
    rw [callAll, callAll, answers, recorded, callAll_recorded vs]
    simp

theorem quiet_recorded : ∀ (vs : List α) (u : σ) (log : List (α × β)),
    Quiet stop (recorded f) vs (u, log) ↔ Quiet stop f vs u
  | [], _, _ => Iff.rfl
  | k :: vs, u, log => by rw [Quiet, Quiet, recorded, quiet_recorded vs]

@[simp] theorem map_fst_answers : ∀ (vs : List α) (u : σ), (answers f vs u).map Prod.fst = vs
  | [], _ => rfl
  | k :: vs, _ => congrArg (k :: ·) (map_fst_answers vs _)

theorem answers_append (pre post : List α) : ∀ u : σ,
    answers f (pre ++ post) u = answers f pre u ++ answers f post (callAll f pre u) := by
  induction pre with
  | nil => intro u; rfl
  | cons k pre ih => intro u; exact congrArg (_ :: ·) (ih _)

theorem quiet_iff_answers : ∀ (vs : List α) (u : σ), Quiet stop f vs u ↔ ∀ p ∈ answers f vs u, ¬ stop p.2
  | [], _ => by simp [Quiet, answers]
  | k :: vs, u => by simp only [Quiet, answers, List.forall_mem_cons, quiet_iff_answers vs]

/-- A call that is written down was made. -/
theorem answers_split {p : α × β} {post : List (α × β)} : ∀ {pre : List (α × β)} {vs : List α} {u : σ},
    answers f vs u = pre ++ p :: post → ∃ ws ws', vs = ws ++ p.1 :: ws' ∧ p.2 = (f p.1 (callAll f ws u)).1 ∧
      post.map Prod.fst = ws'
  | [], k :: vs, u, h => by
    obtain ⟨rfl, rfl⟩ := List.cons.inj h
    exact ⟨[], vs, rfl, rfl, map_fst_answers ..⟩
  | q :: pre, k :: vs, u, h => by
    obtain ⟨ws, ws', rfl, h1, h2⟩ := answers_split (List.cons.inj h).2
    exact ⟨k :: ws, ws', rfl, h1, h2⟩
  | [], [], _, h => by cases h
  | _ :: _, [], _, h => by cases h

/-! ## The order of the calls -/

/-- The calls `vs` are made in the order of `L` until one answers `stop`. On a marked element that ends the traversal
(`ended`), on another one it does not, and some of the other calls may follow. -/
inductive Course (stop : β → Prop) (f : α → σ → β × σ) : List (α × Bool) → σ → List α → Bool → Prop
  | nil (u : σ) : Course stop f [] u [] false
  | call {k : α} {b : Bool} {L : List (α × Bool)} {u : σ} {vs : List α} {ended : Bool} (hk : ¬ stop (f k u).1)
      (h : Course stop f L (f k u).2 vs ended) : Course stop f ((k, b) :: L) u (k :: vs) ended
  | halt {k : α} {L : List (α × Bool)} {u : σ} (hk : stop (f k u).1) : Course stop f ((k, true) :: L) u [k] true
  | pass {k : α} {L : List (α × Bool)} {u : σ} {vs : List α} {ended : Bool} (hk : stop (f k u).1)
      (hvs : vs.Subperm (L.map Prod.fst)) (hnil : vs = [] → ended = false) :
      Course stop f ((k, false) :: L) u (k :: vs) ended

namespace Course

variable {C C' : List (α × Bool)} {vs ws : List α} {ended : Bool}

theorem single {k : α} {u : σ} : ∃ ended, Course stop f [(k, true)] u [k] ended ∧ (ended = true ↔ stop (f k u).1) := by
  by_cases hk : stop (f k u).1
  · exact ⟨true, halt hk, by simp [hk]⟩
  · exact ⟨false, call hk (nil _), by simp [hk]⟩

/-- A traversal without calls was not ended. -/
theorem ended_of_nil (h : Course stop f C u [] ended) : ended = false := by
  cases h
  rfl

theorem subperm (h : Course stop f C u vs ended) : vs.Subperm (C.map Prod.fst) := by
  induction h with
  | nil u => exact List.Subperm.refl _
  | call hk _ ih => exact (List.subperm_cons _).mpr ih
  | halt hk => exact (List.sublist_append_left [_] _).subperm
  | pass hk hvs hnil => exact (List.subperm_cons _).mpr hvs

/-- What was ended stays so, whatever would have followed. -/
theorem append_ended (h : Course stop f C u vs ended) (he : ended = true) :
    Course stop f (C ++ C') u vs ended := by
  induction h with
  | nil u => cases he
  | call hk _ ih => exact call hk (ih he)
  | halt hk => exact halt hk
  | @pass k C u vs ended hk hvs hnil =>
    have hC : (C.map Prod.fst).Subperm ((C ++ C').map Prod.fst) := by
      rw [List.map_append]
      exact (List.sublist_append_left _ _).subperm
    exact pass hk (hvs.trans hC) hnil

theorem append (h : Course stop f C u vs false) (h' : Course stop f C' (callAll f vs u) ws ended) :
    Course stop f (C ++ C') u (vs ++ ws) ended := by
  generalize he : false = e at h
  induction h with
  | nil u => exact h'
  | call hk _ ih => exact call hk (ih h' he)
  | halt hk => cases he
  | @pass k C u vs ended' hk hvs hnil =>
    have hC : (vs ++ ws).Subperm ((C ++ C').map Prod.fst) := by
      rw [List.map_append]
      exact hvs.append h'.subperm
    refine pass hk hC fun hempty => ?_
    obtain ⟨rfl, rfl⟩ := List.append_eq_nil_iff.mp hempty
    exact h'.ended_of_nil

/-- The elements without their marks. -/
def unmarked (C : List (α × Bool)) : List (α × Bool) := C.map fun p => (p.1, false)

@[simp] theorem map_fst_unmarked : (unmarked C).map Prod.fst = C.map Prod.fst := by
  simp [unmarked]

/-- A traversal whose caller does not look at how it ended. -/
theorem inner (h : Course stop f C u vs ended) : Course stop f (unmarked C) u vs false := by
  induction h with
  | nil u => exact nil u
  | call hk _ ih => exact call hk ih
  | halt hk => exact pass hk (List.nil_subperm) fun _ => rfl
  | pass hk hvs hnil =>
    refine pass hk ?_ fun _ => rfl
    rw [← unmarked, map_fst_unmarked]
    exact hvs

/-- All calls are made unless one answers `stop`. -/
theorem eq_of_quiet (h : Course stop f C u vs ended) (hq : Quiet stop f vs u) :
    vs = C.map Prod.fst ∧ ended = false := by
  induction h with
  | nil u => exact ⟨rfl, rfl⟩
  | call hk _ ih =>
    obtain ⟨hvs, he⟩ := ih hq.2
    exact ⟨congrArg _ hvs, he⟩
  | halt hk => exact absurd hk hq.1
  | pass hk hvs hnil => exact absurd hk hq.1

theorem visits (h : Course stop f C u vs ended) (hL : (C.map Prod.fst).Perm L) : Visits stop f L u (callAll f vs u) :=
  ⟨vs, rfl, h.subperm.trans hL.subperm, fun hq => by rw [(h.eq_of_quiet hq).1]; exact hL⟩

end Course

/-- All elements, marked. -/
def marked (L : List α) : List (α × Bool) := L.map fun k => (k, true)

@[simp] theorem map_fst_marked (L : List α) : (marked L).map Prod.fst = L := by
  rw [marked, List.map_map]
  exact List.map_id L

theorem marked_append (L L' : List α) : marked (L ++ L') = marked L ++ marked L' := List.map_append ..

/-- Where every answer `stop` ends the traversal, it makes all calls, or those up to the first such answer. -/
theorem Course.cut {vs : List α} {ended : Bool} : ∀ {L : List α} {u : σ}, Course stop f (marked L) u vs ended →
    vs = L ∧ Quiet stop f L u ∨
      ∃ pre k post, L = pre ++ k :: post ∧ vs = pre ++ [k] ∧ Quiet stop f pre u ∧ stop (f k (callAll f pre u)).1 := by
  intro L
  induction L generalizing vs with
  | nil =>
    intro u h
    cases h
    exact .inl ⟨rfl, trivial⟩
  | cons k L ih =>
    intro u h
    cases h with
    | call hk h =>
      rcases ih h with ⟨rfl, hq⟩ | ⟨pre, k', post, rfl, rfl, hq, hs⟩
      · exact .inl ⟨rfl, hk, hq⟩
      · exact .inr ⟨k :: pre, k', post, rfl, rfl, ⟨hk, hq⟩, hs⟩
    | halt hk => exact .inr ⟨[], k, L, rfl, rfl, trivial, hk⟩

/-- There is only one first answer `stop`. -/
theorem first_unique {k k' : α} {post post' : List α} : ∀ {pre pre' : List α} {u : σ},
    pre ++ k :: post = pre' ++ k' :: post' → Quiet stop f pre u → stop (f k (callAll f pre u)).1 →
      Quiet stop f pre' u → stop (f k' (callAll f pre' u)).1 → pre = pre' ∧ k = k' ∧ post = post'
  | [], [], _, he, _, _, _, _ => ⟨rfl, List.cons.inj he⟩
  | [], _ :: _, _, he, _, hs, hq', _ => by
    obtain ⟨rfl, -⟩ := List.cons.inj he
    exact absurd hs hq'.1
  | _ :: _, [], _, he, hq, _, _, hs' => by
    obtain ⟨rfl, -⟩ := List.cons.inj he
    exact absurd hs' hq.1
  | a :: pre, b :: pre', u, he, hq, hs, hq', hs' => by
    obtain ⟨rfl, htail⟩ := List.cons.inj he
    obtain ⟨rfl, rfl, rfl⟩ := first_unique htail hq.2 hs hq'.2 hs'
    exact ⟨rfl, rfl, rfl⟩

/-- Nothing follows a call that answers `stop`, and the traversal says that it was ended. -/
def Obeys (stop : β → Prop) (f : α → σ → β × σ) (vs : List α) (u : σ) (ended : Bool) : Prop :=
  ∀ pre k post, vs = pre ++ k :: post → stop (f k (callAll f pre u)).1 → post = [] ∧ ended = true

/-- The first element of `C` on which `stop` is answered, if there is one, is marked. -/
def FirstMarked (stop : β → Prop) (f : α → σ → β × σ) : List (α × Bool) → σ → Prop
  | [], _ => True
  | (k, b) :: C, u => (stop (f k u).1 → b = true) ∧ (¬ stop (f k u).1 → FirstMarked stop f C (f k u).2)

theorem Course.obeys_iff {C : List (α × Bool)} {vs : List α} {ended : Bool} (h : Course stop f C u vs ended) :
    Obeys stop f vs u ended ↔ FirstMarked stop f C u := by
  induction h with
  | nil u => exact ⟨fun _ => trivial, fun _ pre k post he => by simp at he⟩
  | @call k b C u vs ended hk h ih =>
    have hfirst : FirstMarked stop f ((k, b) :: C) u ↔ FirstMarked stop f C (f k u).2 :=
      ⟨fun hm => hm.2 hk, fun hm => ⟨fun hn => absurd hn hk, fun _ => hm⟩⟩
    rw [hfirst, ← ih]
    constructor
    · intro ho pre k' post he hs
      exact ho (k :: pre) k' post (congrArg (k :: ·) he) hs
    · rintro ho (_ | ⟨k₁, pre⟩) k' post he hs
      · obtain ⟨rfl, -⟩ := List.cons.inj he
        exact absurd hs hk
      · obtain ⟨rfl, htail⟩ := List.cons.inj he
        exact ho pre k' post htail hs
  | @halt k C u hk =>
    refine iff_of_true ?_ ⟨fun _ => rfl, fun hn => absurd hk hn⟩
    rintro (_ | ⟨k₁, pre⟩) k' post he -
    · exact ⟨(List.cons.inj he).2.symm, rfl⟩
    · have := (List.cons.inj he).2
      simp at this
  | @pass k C u vs ended hk hvs hnil =>
    refine iff_of_false (fun ho => ?_) fun hm => Bool.false_ne_true (hm.1 hk)
    obtain ⟨hpost, he⟩ := ho [] k vs rfl hk
    rw [hnil hpost] at he
    exact Bool.false_ne_true he

/-! ## Stops at given elements -/

section Stops

variable (stop : α → Prop) [DecidablePred stop]

/-- What a traversal reaches that leaves out the first `s` elements. Each element stands with the number of those behind
it that are left out if the traversal stops there. -/
def reached : Nat → List (α × Nat) → List α
  | _, [] => []
  | 0, (k, m) :: C => k :: reached (if stop k then m else 0) C
  | s + 1, _ :: C => reached s C

/-- No element leaves out more than there are. -/
def Within : List (α × Nat) → Prop
  | [] => True
  | (_, m) :: C => m ≤ C.length ∧ Within C

variable {stop}

theorem reached_length : ∀ C : List (α × Nat), reached stop C.length C = []
  | [] => rfl
  | _ :: C => reached_length C

theorem reached_append : ∀ {s : Nat} {C : List (α × Nat)} (C' : List (α × Nat)), Within C → s ≤ C.length →
    reached stop s (C ++ C') = reached stop s C ++ reached stop 0 C'
  | 0, [], _, _, _ => rfl
  | 0, (k, m) :: C, C', hw, _ => by
    rw [List.cons_append, reached, reached, reached_append C' hw.2, List.cons_append]
    split
    · exact hw.1
    · exact Nat.zero_le _
  | s + 1, (_, _) :: C, C', hw, hs => by
    rw [List.cons_append, reached, reached]
    exact reached_append C' hw.2 (Nat.le_of_succ_le_succ hs)
  | _ + 1, [], _, _, hs => absurd hs (Nat.not_succ_le_zero _)

theorem reached_congr {stop' : α → Prop} [DecidablePred stop'] : ∀ {s : Nat} {C : List (α × Nat)},
    (∀ k ∈ C.map Prod.fst, stop k ↔ stop' k) → reached stop s C = reached stop' s C
  | _, [], _ => by rw [reached, reached]
  | 0, (k, m) :: C, h => by
    obtain ⟨hk, hC⟩ := List.forall_mem_cons.mp h
    rw [reached, reached, reached_congr hC]
    simp only [hk]
  | s + 1, _ :: C, h => by
    rw [reached, reached]
    exact reached_congr (List.forall_mem_cons.mp h).2

theorem Within.append {C' : List (α × Nat)} (h' : Within C') : ∀ {C : List (α × Nat)}, Within C → Within (C ++ C')
  | [], _ => h'
  | (_, _) :: C, h => ⟨Nat.le_trans h.1 (by simp), h'.append h.2⟩

end Stops

end NetworkBfd.Lib
