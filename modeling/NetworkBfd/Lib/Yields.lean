import Mathlib.Tactic.Common

/-!
# Postconditions of computations that may fail

`Yields E m P`: the computation `m` either fails with an error that `E` tolerates, or returns a value with `P`. The
rules follow the shape of a `do` block: `Yields.bind` for a step, `Yields.mono` for a weaker postcondition,
`yields_ok` at the end. `Agree R m m'` compares two computations: they fail alike, or return values in `R`.
-/

namespace NetworkBfd.Lib

variable {ε α β : Type} {E : ε → Prop}

/-- `m` fails as `E` tolerates or returns a value with `P`. -/
def Yields (E : ε → Prop) (m : Except ε α) (P : α → Prop) : Prop :=
  match m with
  | .ok a => P a
  | .error e => E e

@[simp] theorem yields_ok {a : α} {P : α → Prop} : Yields E (.ok a) P ↔ P a := Iff.rfl

@[simp] theorem yields_pure {a : α} {P : α → Prop} : Yields E (pure a) P ↔ P a := Iff.rfl

@[simp] theorem yields_error {e : ε} {P : α → Prop} : Yields E (.error e) P ↔ E e := Iff.rfl

theorem Yields.bind {m : Except ε α} {f : α → Except ε β} {P : α → Prop} {Q : β → Prop} (h : Yields E m P)
    (hf : ∀ a, P a → Yields E (f a) Q) : Yields E (m >>= f) Q := by
  cases m with
  | ok a => exact hf a h
  | error e => exact h

theorem Yields.mono {m : Except ε α} {P Q : α → Prop} (h : Yields E m P) (hPQ : ∀ a, P a → Q a) :
    Yields E m Q := by
  cases m with
  | ok a => exact hPQ a h
  | error e => exact h

/-- A computation with a postcondition returns, or fails as tolerated. -/
theorem Yields.cases {m : Except ε α} {P : α → Prop} (h : Yields E m P) :
    (∃ a, m = .ok a ∧ P a) ∨ ∃ e, m = .error e ∧ E e := by
  cases m with
  | ok a => exact Or.inl ⟨a, rfl, h⟩
  | error e => exact Or.inr ⟨e, rfl, h⟩

/-- A loop keeps its invariant. -/
theorem Yields.foldlM {γ : Type} {f : α → γ → Except ε α} {I : List γ → α → Prop}
    (step : ∀ done c a, I done a → Yields E (f a c) (I (done ++ [c]))) :
    ∀ (l done : List γ) (a : α), I done a → Yields E (l.foldlM f a) (I (done ++ l))
  | [], done, a, h => by simpa using h
  | c :: l, done, a, h => by
    rw [List.foldlM_cons]
    refine (step done c a h).bind fun a' ha' => ?_
    have := Yields.foldlM step l (done ++ [c]) a' ha'
    simpa using this

theorem ok_bind (a : α) (f : α → Except ε β) : (.ok a : Except ε α) >>= f = f a := rfl

/-- A step that returns, and what follows it. -/
theorem bind_eq_ok {m : Except ε α} {f : α → Except ε β} {b : β} : m >>= f = .ok b ↔ ∃ a, m = .ok a ∧ f a = .ok b := by
  constructor
  · intro h
    cases m with
    | ok a => exact ⟨a, rfl, h⟩
    | error e => cases h
  · rintro ⟨a, rfl, h⟩
    exact h

/-- Two computations that go on alike after `m`, whatever it yields. -/
theorem Yields.bind_congr {m : Except ε α} {f g : α → Except ε β} {P : α → Prop} (h : Yields E m P)
    (hfg : ∀ a, P a → f a = g a) : m >>= f = m >>= g := by
  cases m with
  | ok a => exact hfg a h
  | error e => rfl

/-- Loops with the same steps. -/
theorem foldlM_congr {γ : Type} {f g : α → γ → Except ε α} : ∀ (l : List γ) (a : α),
    (∀ c ∈ l, ∀ a, f a c = g a c) → l.foldlM f a = l.foldlM g a
  | [], _, _ => rfl
  | c :: l, a, h => by
    have ih : ∀ a, l.foldlM f a = l.foldlM g a := fun a => foldlM_congr l a fun d hd => h d (List.mem_cons_of_mem _ hd)
    rw [List.foldlM_cons, List.foldlM_cons, h c List.mem_cons_self]
    exact congrArg (g a c >>= ·) (funext ih)

/-! ## Two computations -/

section Agree

variable {α' β' : Type} {R : α → α' → Prop} {S : β → β' → Prop}

/-- `m` and `m'` fail with the same error or return values in `R`. -/
def Agree (R : α → α' → Prop) (m : Except ε α) (m' : Except ε α') : Prop :=
  match m, m' with
  | .ok a, .ok a' => R a a'
  | .error e, .error e' => e = e'
  | _, _ => False

theorem agree_error (e : ε) : Agree R (.error e) (.error e) := rfl

theorem agree_ok {a : α} {a' : α'} (h : R a a') : Agree R (.ok a : Except ε α) (.ok a') := h

/-- The same computation. -/
theorem agree_refl {R : α → α → Prop} (m : Except ε α) (hR : ∀ a, R a a) : Agree R m m := by
  cases m with
  | ok a => exact hR a
  | error e => rfl

theorem Agree.bind {m : Except ε α} {m' : Except ε α'} {f : α → Except ε β} {f' : α' → Except ε β'} (h : Agree R m m')
    (hf : ∀ a a', R a a' → Agree S (f a) (f' a')) : Agree S (m >>= f) (m' >>= f') := by
  cases m with
  | ok a =>
    cases m' with
    | ok a' => exact hf a a' h
    | error e => exact h.elim
  | error e =>
    cases m' with
    | ok a' => exact h.elim
    | error e' => exact h

/-- The same first step. -/
theorem agree_step (m : Except ε α) {f : α → Except ε β} {f' : α → Except ε β'} (hf : ∀ a, Agree S (f a) (f' a)) :
    Agree S (m >>= f) (m >>= f') :=
  (agree_refl (R := Eq) m fun _ => rfl).bind fun a a' (h : a = a') => h ▸ hf a

theorem Agree.ok {m : Except ε α} {m' : Except ε α'} (h : Agree R m m') {a : α} (hm : m = .ok a) :
    ∃ a', m' = .ok a' ∧ R a a' := by
  subst hm
  cases m' with
  | ok a' => exact ⟨a', rfl, h⟩
  | error e => exact h.elim

end Agree

end NetworkBfd.Lib
