import NetworkBfd.Smmr.Database.Ops

/-!
# What a traversal visits

Whether a callback stops a traversal depends on what it finds at a node (`found`). `visited` lists the nodes that a
traversal for a key reaches, as the files are before it. `findTreeOnlyKeyhashSafe_follows` compares two traversals of
one index whose callbacks stop at the same nodes; it carries a real callback along the list.
-/

namespace NetworkBfd.Smmr

open Lib Lib.Bytes

/-- What a callback can find at a node. -/
inductive Found
  | broken
  | expired
  | same
  | other
deriving DecidableEq

/-- What a callback for `key` finds at a node. -/
def found (b : Build) (curtime : BitVec 32) (key : List Byte) (files : Datafiles) (node : NodeKey) : Found :=
  match itemOfNode b files node with
  | none => .broken
  | some f =>
    if Smmr.expired f node.dataOffset.toNat curtime then .expired
    else if sameKey f node.dataOffset.toNat key then .same
    else .other

/-- Where a traversal stops. -/
def Found.stops (a : Found) : Prop := a = .broken ∨ a = .same

instance (a : Found) : Decidable a.stops := inferInstanceAs (Decidable (_ ∨ _))

/-- A callback that only notes where it is called, and stops where the others do. -/
def note (b : Build) (curtime : BitVec 32) (key : List Byte) (files : Datafiles) (node : NodeKey)
    (nodes : List NodeKey) : Ret × List NodeKey :=
  (if (found b curtime key files node).stops then .ng else .ok, nodes ++ [node])

/-- The nodes that a traversal for `key` reaches. -/
def visited (b : Build) (curtime : BitVec 32) (key : List Byte) (db : Database) : List NodeKey :=
  match db.inst.findTreeOnlyKeyhashSafe (safeHash key) (note b curtime key db.files) [] with
  | .ok (_, nodes) => nodes
  | .error _ => []

/-! ## One traversal along another -/

section

variable {σ τ : Type} (R : σ → τ → Prop) (P : τ → Prop)

/-- `m` goes along with `m'` as long as `P` holds. -/
def Follows {α : Type} (m : σ → Except Fault (α × σ)) (m' : τ → Except Fault (α × τ)) : Prop :=
  ∀ v r v', m' v = .ok (r, v') → P v' → P v ∧ ∀ u, R u v → ∃ u', m u = .ok (r, u') ∧ R u' v'

/-- The same of one call of a callback; what it answers matters only as far as it stops the traversal. -/
def CallFollows (func : NodeKey → σ → Ret × σ) (func' : NodeKey → τ → Ret × τ) : Prop :=
  ∀ k v, P (func' k v).2 → P v ∧
    ∀ u, R u v → ((func k u).1 = .ng ↔ (func' k v).1 = .ng) ∧ R (func k u).2 (func' k v).2

variable {R P} {func : NodeKey → σ → Ret × σ} {func' : NodeKey → τ → Ret × τ}

theorem Follows.bind {α β : Type} {m : σ → Except Fault (α × σ)} {m' : τ → Except Fault (α × τ)}
    {g : α × σ → Except Fault (β × σ)} {g' : α × τ → Except Fault (β × τ)} (h : Follows R P m m')
    (hg : ∀ a, Follows R P (fun u => g (a, u)) fun v => g' (a, v)) :
    Follows R P (fun u => m u >>= g) fun v => m' v >>= g' := by
  intro v r v' hrun hv'
  rcases hm : m' v with e | ⟨a, v₁⟩
  · simp only [hm] at hrun
    cases hrun
  simp only [hm] at hrun
  obtain ⟨hv₁, hg⟩ := hg a v₁ r v' hrun hv'
  obtain ⟨hv, hm⟩ := h v a v₁ hm hv₁
  refine ⟨hv, fun u hu => ?_⟩
  obtain ⟨u₁, hu₁, hR⟩ := hm u hu
  simp only [hu₁]
  exact hg u₁ hR

theorem Follows.ok {α : Type} (a : α) : Follows R P (fun u => .ok (a, u)) fun v => .ok (a, v) := by
  intro v r v' hrun hv'
  cases hrun
  exact ⟨hv', fun u hu => ⟨u, rfl, hu⟩⟩

theorem Follows.ite {α : Type} {c : Prop} [Decidable c] {m n : σ → Except Fault (α × σ)}
    {m' n' : τ → Except Fault (α × τ)} (hm : c → Follows R P m m') (hn : ¬ c → Follows R P n n') :
    Follows R P (fun u => if c then m u else n u) fun v => if c then m' v else n' v := by
  by_cases h : c
  · simpa only [h, if_true] using hm h
  · simpa only [h, if_false] using hn h

/-- One level. -/
theorem scanLevel_follows (hfunc : CallFollows R P func func') (nd : NodeInstance) (h : BitVec 32)
    {rec : NodeInstanceOffset → σ → Except Fault (Ret × σ)} {rec' : NodeInstanceOffset → τ → Except Fault (Ret × τ)}
    (hrec : ∀ nodei, Follows R P (rec nodei) (rec' nodei)) (prevPos : Nat) : ∀ ps : List Nat,
    Follows R P (CategoryTree.scanLevel nd h func rec prevPos ps) (CategoryTree.scanLevel nd h func' rec' prevPos ps)
  | [] => Follows.ok false
  | pos :: ps => by
    have ih := scanLevel_follows hfunc nd h hrec prevPos ps
    have hchild : Follows R P
        (fun u => if prevPos ≠ pos then do
            let x ← rec (nd.child pos) u
            CategoryTree.scanLevel nd h func rec prevPos ps x.2
          else CategoryTree.scanLevel nd h func rec prevPos ps u)
        (fun v => if prevPos ≠ pos then do
            let x ← rec' (nd.child pos) v
            CategoryTree.scanLevel nd h func' rec' prevPos ps x.2
          else CategoryTree.scanLevel nd h func' rec' prevPos ps v) :=
      Follows.ite (fun _ => (hrec (nd.child pos)).bind fun _ => ih) fun _ => ih
    by_cases hk : h = (nd.key pos).keyhash
    · intro v r v' hrun hv'
      rw [CategoryTree.scanLevel] at hrun
      simp only [← hk, if_true, true_and] at hrun
      by_cases hng : (func' (nd.key pos) v).1 = .ng
      · rw [if_pos hng] at hrun
        cases hrun
        obtain ⟨hv, hcall⟩ := hfunc (nd.key pos) v hv'
        refine ⟨hv, fun u hu => ?_⟩
        obtain ⟨hiff, hR⟩ := hcall u hu
        rw [CategoryTree.scanLevel]
        simp only [← hk, if_true, true_and]
        rw [if_pos (hiff.mpr hng)]
        exact ⟨_, rfl, hR⟩
      · rw [if_neg hng] at hrun
        obtain ⟨hv₁, hrest⟩ := hchild _ r v' hrun hv'
        obtain ⟨hv, hcall⟩ := hfunc (nd.key pos) v hv₁
        refine ⟨hv, fun u hu => ?_⟩
        obtain ⟨hiff, hR⟩ := hcall u hu
        rw [CategoryTree.scanLevel]
        simp only [← hk, if_true, true_and]
        rw [if_neg fun hn => hng (hiff.mp hn)]
        exact hrest _ hR
    · intro v r v' hrun hv'
      rw [CategoryTree.scanLevel] at hrun
      simp only [hk, if_false, false_and] at hrun
      obtain ⟨hv, hrest⟩ := hchild v r v' hrun hv'
      refine ⟨hv, fun u hu => ?_⟩
      rw [CategoryTree.scanLevel]
      simp only [hk, if_false, false_and]
      exact hrest u hu

theorem searchItemOnlyKeyhashRecurcive_follows (hfunc : CallFollows R P func func') (s : CategoryTree) (h : BitVec 32) :
    ∀ (fuel : Nat) (nodei : NodeInstanceOffset), Follows R P (s.searchItemOnlyKeyhashRecurcive h func fuel nodei)
      (s.searchItemOnlyKeyhashRecurcive h func' fuel nodei)
  | 0, _ => fun _ _ _ hrun _ => by cases hrun
  | fuel + 1, nodei => by
    have ih := searchItemOnlyKeyhashRecurcive_follows hfunc s h fuel
    show Follows R P (fun u => s.searchItemOnlyKeyhashRecurcive h func (fuel + 1) nodei u)
      fun v => s.searchItemOnlyKeyhashRecurcive h func' (fuel + 1) nodei v
    simp only [CategoryTree.searchItemOnlyKeyhashRecurcive]
    refine Follows.ite (fun _ => Follows.ok _) fun _ => Follows.ite (fun _ => ih _) fun _ => ?_
    refine (scanLevel_follows hfunc _ h ih _ _).bind fun stop => ?_
    cases stop with
    | true => exact Follows.ok _
    | false =>
      simp only [Bool.false_eq_true, if_false]
      by_cases hcount : (s.refnode nodei).count ≠
          CategoryTree.advance (s.refnode nodei) fun k => decide (k.keyhash < h)
      · simp only [if_pos hcount]
        exact (ih _).bind fun _ => ih _
      · simp only [if_neg hcount]
        exact (Follows.ok Ret.ng).bind fun _ => ih _

/-- A traversal goes along with another whose callback stops at the same nodes. -/
theorem findTreeOnlyKeyhashSafe_follows (hfunc : CallFollows R P func func') (inst : TreeInstance) (h : BitVec 32) :
    Follows R P (inst.findTreeOnlyKeyhashSafe h func) (inst.findTreeOnlyKeyhashSafe h func') := by
  show Follows R P (fun u => inst.findTreeOnlyKeyhashSafe h func u) fun v => inst.findTreeOnlyKeyhashSafe h func' v
  unfold TreeInstance.findTreeOnlyKeyhashSafe
  cases TreeInstance.getCategoryId h with
  | none => exact Follows.ok _
  | some c => exact searchItemOnlyKeyhashRecurcive_follows hfunc (inst c) h _ _

end

end NetworkBfd.Smmr
