import Mathlib.Data.List.Induction
import Mathlib.Data.List.Nodup
import Mathlib.Tactic.Common

/-!
# Linearizability

Processes take turns, as a schedule says, and each makes one call in its turns. The answers are those of a sequential
object if the calls can be put in one order that the object allows and that no call leaves: between the first turn of a
call and its return (`Linearization`). It is enough that each call takes effect in one of its turns (`Effects`,
`Effects.linearization`).
-/

namespace NetworkBfd.Lib

variable {ι ρ σ δ ε : Type*}

/-- Calls one after the other, with their answers. -/
inductive Serial (spec : σ → ι → ρ → σ → Prop) (a : σ) : List (ι × ρ) → σ → Prop
  | nil : Serial spec a [] a
  | snoc {order : List (ι × ρ)} {a₁ a₂ : σ} {i : ι} {r : ρ} (h : Serial spec a order a₁) (hi : spec a₁ i r a₂) :
    Serial spec a (order ++ [(i, r)]) a₂

/-- An order of calls that explains the answers of a schedule. Those that have returned when a part of the schedule is
over come first, and none comes with them that has not begun by then. -/
structure Linearization (runs : List ι → Except ε δ) (result : δ → ι → Option ρ) (spec : σ → ι → ρ → σ → Prop) (a : σ)
    (sched : List ι) (order : List (ι × ρ)) : Prop where
  once : (order.map Prod.fst).Nodup
  serial : ∃ a', Serial spec a order a'
  between : ∀ before after d, sched = before ++ after → runs before = .ok d → ∃ done todo, order = done ++ todo ∧
    (∀ i r, result d i = some r → (i, r) ∈ done) ∧ ∀ p ∈ done, p.1 ∈ before

/-- Each call takes effect in one turn, on a state of the object that `inv` relates to that of the processes. -/
structure Effects (runs : List ι → Except ε δ) (result : δ → ι → Option ρ) (spec : σ → ι → ρ → σ → Prop)
    (inv : δ → σ → List (ι × ρ) → Prop) (a : σ) (sched : List ι) : Prop where
  start : ∀ d, runs [] = .ok d → inv d a []
  turn : ∀ l i d', l ++ [i] <+: sched → runs (l ++ [i]) = .ok d' → ∃ d, runs l = .ok d ∧
    ∀ a₁ order, inv d a₁ order → inv d' a₁ order ∨
      ∃ r a₂, i ∉ order.map Prod.fst ∧ spec a₁ i r a₂ ∧ inv d' a₂ (order ++ [(i, r)])
  result : ∀ d a₁ order, inv d a₁ order → ∀ i r, result d i = some r → (i, r) ∈ order

variable {runs : List ι → Except ε δ} {result : δ → ι → Option ρ} {spec : σ → ι → ρ → σ → Prop}
  {inv : δ → σ → List (ι × ρ) → Prop} {a : σ} {sched : List ι}

/-- One more turn, in which a call may take effect. -/
theorem Linearization.snoc {l : List ι} {i : ι} {d : δ} {order : List (ι × ρ)}
    (h : Linearization runs result spec a l order) (new : List (ι × ρ)) (hd : runs (l ++ [i]) = .ok d)
    (hnew : ∀ p ∈ new, p.1 = i ∧ i ∉ order.map Prod.fst) (honce : (new.map Prod.fst).Nodup)
    (hserial : ∃ a', Serial spec a (order ++ new) a') (hbegun : ∀ p ∈ order, p.1 ∈ l)
    (hresult : ∀ j r, result d j = some r → (j, r) ∈ order ++ new) :
    Linearization runs result spec a (l ++ [i]) (order ++ new) := by
  refine ⟨?_, hserial, fun before after d' heq hrun => ?_⟩
  · rw [List.map_append]
    refine h.once.append honce fun j hj hj' => ?_
    obtain ⟨p, hp, rfl⟩ := List.mem_map.mp hj'
    exact (hnew p hp).2 ((hnew p hp).1 ▸ hj)
  · rcases List.eq_nil_or_concat' after with rfl | ⟨after, j, rfl⟩
    · rw [List.append_nil] at heq
      subst heq
      obtain rfl := Except.ok.inj (hd.symm.trans hrun)
      refine ⟨order ++ new, [], (List.append_nil _).symm, hresult, fun p hp => ?_⟩
      rcases List.mem_append.mp hp with hp | hp
      · exact List.mem_append_left _ (hbegun p hp)
      · rw [(hnew p hp).1]
        exact List.mem_append_right _ (List.mem_singleton_self i)
    · rw [← List.append_assoc] at heq
      obtain ⟨done, todo, rfl, hdone, hbefore⟩ := h.between before after d' (List.append_inj' heq rfl).1 hrun
      exact ⟨done, todo ++ new, List.append_assoc .., hdone, hbefore⟩

/-- The calls in the order in which they take effect. -/
theorem Effects.linearization (h : Effects runs result spec inv a sched) {d : δ} (hd : runs sched = .ok d) :
    ∃ order, Linearization runs result spec a sched order := by
  have hprefix : ∀ l, l <+: sched → ∀ d, runs l = .ok d → ∃ a' order, inv d a' order ∧ Serial spec a order a' ∧
      (∀ p ∈ order, p.1 ∈ l) ∧ Linearization runs result spec a l order := by
    intro l
    induction l using List.reverseRecOn with
    | nil =>
      intro _ d hd
      have hinv := h.start d hd
      refine ⟨a, [], hinv, .nil, fun p hp => (by cases hp), List.nodup_nil, ⟨a, .nil⟩,
        fun before after d' heq hrun => ?_⟩
      obtain ⟨rfl, -⟩ := List.append_eq_nil_iff.mp heq.symm
      obtain rfl := Except.ok.inj (hd.symm.trans hrun)
      exact ⟨[], [], rfl, h.result d a [] hinv, fun p hp => (by cases hp)⟩
    | append_singleton l i ih =>
      intro hl d' hd'
      obtain ⟨d, hd, hturn⟩ := h.turn l i d' hl hd'
      obtain ⟨a₁, order, hinv, hserial, hbegun, hlin⟩ := ih ((List.prefix_append l [i]).trans hl) d hd
      rcases hturn a₁ order hinv with hinv' | ⟨r, a₂, hnot, hspec, hinv'⟩
      · have hlin' := hlin.snoc [] hd' (fun p hp => by cases hp) List.nodup_nil
          ⟨a₁, by rwa [List.append_nil]⟩ hbegun (by
            rw [List.append_nil]
            exact h.result d' a₁ order hinv')
        rw [List.append_nil] at hlin'
        exact ⟨a₁, order, hinv', hserial, fun p hp => List.mem_append_left _ (hbegun p hp), hlin'⟩
      · refine ⟨a₂, order ++ [(i, r)], hinv', hserial.snoc hspec, fun p hp => ?_,
          hlin.snoc [(i, r)] hd' (fun p hp => ?_) (List.nodup_singleton i) ⟨a₂, hserial.snoc hspec⟩ hbegun
            (h.result d' a₂ _ hinv')⟩
        · rcases List.mem_append.mp hp with hp | hp
          · exact List.mem_append_left _ (hbegun p hp)
          · rw [List.mem_singleton.mp hp]
            exact List.mem_append_right _ (List.mem_singleton_self i)
        · rw [List.mem_singleton.mp hp]
          exact ⟨rfl, hnot⟩
  obtain ⟨-, order, -, -, -, hlin⟩ := hprefix sched (List.prefix_refl sched) d hd
  exact ⟨order, hlin⟩

end NetworkBfd.Lib
