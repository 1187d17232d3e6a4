import Mathlib.Logic.Function.Iterate
import Mathlib.Data.Nat.Init
import Mathlib.Algebra.Order.Sub.Basic

/-!
# Two parties that tell each other their states

A party is in a state of `σ`; one that hears the state of the other goes to another state. In a round the left party
says its state some times in a row, and then the right one does (`exchange`). Where a state that is heard over and over
alternates from the second hearing on, a few hearings do what many do (`hear_short`, `exchange_short`), so that finitely
many rounds tell what all of them do. `Party` is a party as a system has it, with its messages, and runs of two of them
follow the exchange (`Rounds.inState`); `foldl_rank` counts the rounds until they settle.
-/

namespace NetworkBfd.Lib

variable {σ : Type*} {f g : σ → σ → σ} {m n : ℕ}

/-! ## Hearing -/

/-- The state after hearing `t` `n` times. -/
def hear (f : σ → σ → σ) (n : ℕ) (s t : σ) : σ := (fun s => f s t)^[n] s

@[simp] theorem hear_zero (s t : σ) : hear f 0 s t = s := rfl

theorem hear_succ (n : ℕ) (s t : σ) : hear f (n + 1) s t = f (hear f n s t) t :=
  Function.iterate_succ_apply' _ n s

theorem hear_add (m n : ℕ) (s t : σ) : hear f (m + n) s t = hear f m (hear f n s t) t :=
  Function.iterate_add_apply _ m n s

/-- From the second hearing of a state on, the third one after it does what the first did. -/
def Alternates (f : σ → σ → σ) : Prop := ∀ s t, f (f (f (f s t) t) t) t = f (f s t) t

/-- A few hearings that do what `n` do. -/
def short (n : ℕ) : ℕ := if n < 4 then n else 2 + n % 2

theorem short_mod_two (n : ℕ) : short n % 2 = n % 2 := by
  unfold short
  split <;> omega

theorem short_lt (n : ℕ) : short n < 4 := by
  unfold short
  split <;> omega

theorem short_pos (hn : 0 < n) : 0 < short n := by
  unfold short
  split <;> omega

theorem short_add_two (n : ℕ) : short (n + 4) = short (n + 2) := by
  unfold short
  split <;> split <;> omega

theorem hear_short (h : Alternates f) (s t : σ) : ∀ n, hear f n s t = hear f (short n) s t
  | 0 => rfl
  | 1 => rfl
  | 2 => rfl
  | 3 => rfl
  | n + 4 => by
    have hfour : hear f (n + 4) s t = hear f (n + 2) s t := by
      simp only [hear_succ]
      exact h (hear f n s t) t
    rw [hfour, short_add_two]
    exact hear_short h s t (n + 2)

/-! ## Rounds -/

/-- A round: the left party says its state `m` times, then the right one `n` times. -/
def exchange (f g : σ → σ → σ) (r : ℕ × ℕ) (p : σ × σ) : σ × σ :=
  let t := hear g r.1 p.2 p.1
  (hear f r.2 p.1 t, t)

theorem exchange_short (hf : Alternates f) (hg : Alternates g) (r : ℕ × ℕ) (p : σ × σ) :
    exchange f g r p = exchange f g (short r.1, short r.2) p := by
  simp only [exchange]
  rw [hear_short hg _ _ r.1, hear_short hf _ _ r.2]

section Rank

variable {α β : Type*} {F : α → β → α} {I : α → Prop} {P : β → Prop} {rank : α → ℕ} {good : β → Bool}

/-- A rank that no letter raises and the good ones lower. -/
theorem foldl_rank (hI : ∀ q b, I q → P b → I (F q b)) (hle : ∀ q b, I q → P b → rank (F q b) ≤ rank q)
    (hlt : ∀ q b, I q → P b → good b = true → rank (F q b) ≤ rank q - 1) :
    ∀ (l : List β) {q : α}, I q → (∀ b ∈ l, P b) →
      I (l.foldl F q) ∧ rank (l.foldl F q) ≤ rank q - l.countP good
  | [], _, hq, _ => ⟨hq, Nat.le_refl _⟩
  | b :: l, q, hq, hP => by
    have hb := hP b (List.mem_cons_self ..)
    obtain ⟨hinv, ih⟩ := foldl_rank hI hle hlt l (hI q b hq hb) fun b' hb' => hP b' (List.mem_cons_of_mem _ hb')
    refine ⟨hinv, ?_⟩
    rw [List.foldl_cons, List.countP_cons]
    by_cases hgood : good b = true
    · have hlower := hlt q b hq hb hgood
      rw [if_pos hgood]
      omega
    · have hkeep := hle q b hq hb
      rw [if_neg hgood]
      omega

end Rank

/-! ## Parties -/

/-- A party with states `δ` and messages `π`, which say states of `σ`. In a turn it says its state and keeps it; then it
hears what the other said, if that is what it heeds. -/
structure Party (δ π σ : Type*) (shows heeds : π → σ → Prop) where
  react : σ → σ → σ
  inState : δ → σ → Prop
  speaks : ℕ → δ → δ → List π → Prop
  hears : List π → δ → δ → Prop
  speaks_shows : ∀ {n d d' ps s}, speaks n d d' ps → inState d s → inState d' s ∧ ps.length = n ∧ ∀ p ∈ ps, shows p s
  hears_react : ∀ {ps d d' s t}, hears ps d d' → inState d s → (∀ p ∈ ps, heeds p t) →
    inState d' (hear react ps.length s t)

variable {δ ε π : Type*} {shows heeds : π → σ → Prop}

/-- Rounds of two parties, with how many messages each says in them. -/
inductive Rounds (A : Party δ π σ shows heeds) (B : Party ε π σ heeds shows) : List (ℕ × ℕ) → δ → ε → δ → ε → Prop
  | nil (d : δ) (e : ε) : Rounds A B [] d e d e
  | cons {m n : ℕ} {rounds : List (ℕ × ℕ)} {d d₁ d₂ d' : δ} {e e₁ e₂ e' : ε} {ps qs : List π}
    (hsay : A.speaks m d d₁ ps) (hheard : B.hears ps e e₁) (hanswer : B.speaks n e₁ e₂ qs) (htaken : A.hears qs d₁ d₂)
    (hrest : Rounds A B rounds d₂ e₂ d' e') : Rounds A B ((m, n) :: rounds) d e d' e'

/-- The states of two parties are exchanged. -/
theorem Rounds.inState {A : Party δ π σ shows heeds} {B : Party ε π σ heeds shows} {rounds : List (ℕ × ℕ)} {d d' : δ}
    {e e' : ε} (h : Rounds A B rounds d e d' e') : ∀ {s t : σ}, A.inState d s → B.inState e t →
    A.inState d' (rounds.foldl (fun q r => exchange A.react B.react r q) (s, t)).1 ∧
      B.inState e' (rounds.foldl (fun q r => exchange A.react B.react r q) (s, t)).2 := by
  induction h with
  | nil => exact fun hs ht => ⟨hs, ht⟩
  | cons hsay hheard hanswer htaken hrest ih =>
    intro s t hs ht
    obtain ⟨hs₁, rfl, hps⟩ := A.speaks_shows hsay hs
    obtain ⟨ht₂, rfl, hqs⟩ := B.speaks_shows hanswer (B.hears_react hheard ht hps)
    exact ih (A.hears_react htaken hs₁ hqs) ht₂

end NetworkBfd.Lib
