import NetworkBfd.Smmr.Tree.Find

/-!
# What a search for a hash reaches

In the order of visits each entry stands with the number of those that the search leaves out if it is stopped there: the
rest of its node and of what lies below (`visitSkips`). With a callback that stops the search at given entries, the
entries that are reached can be read off that order (`findTreeOnlyKeyhashSafe_reached`).
-/

namespace NetworkBfd.Smmr

open Lib KeyTree

namespace CategoryTree

section Order

variable {β : Type}

/-- If `k` is a hit, it stands before `C`, which is left out if the search stops there. -/
def hitSkips (h : BitVec 32) (k : NodeKey) (C : List (NodeKey × Nat)) : List (NodeKey × Nat) :=
  if k.keyhash = h then (k, C.length) :: C else C

/-- A row as in `rowOrder`, with `last` behind it. -/
def rowSkips (h : BitVec 32) (sub : β → List (NodeKey × Nat)) (last : List (NodeKey × Nat)) :
    List NodeKey → List β → List (NodeKey × Nat)
  | k :: ks, d :: ds => hitSkips h k (sub d ++ rowSkips h sub last ks ds)
  | [], d :: _ => sub d ++ last
  | _, [] => last

/-- A level as in `levelOrder`. -/
def levelSkips (h : BitVec 32) (sub : β → List (NodeKey × Nat)) : List NodeKey → List β → List (NodeKey × Nat)
  | k :: ks, c :: cs => hitSkips h k (rowSkips h sub (sub c) ks cs)
  | [], c :: _ => sub c
  | _, [] => []

/-- The entries with hash `h` in the order of visits, each with the number of those that are left out if the search
stops there. -/
def visitSkips (h : BitVec 32) : (n : Nat) → KeyTree n → List (NodeKey × Nat)
  | 0, _ => []
  | n + 1, t =>
    let pos := ((MNode.keys t).takeWhile fun k => k.keyhash < h).length
    levelSkips h (visitSkips h n) ((MNode.keys t).drop pos) ((MNode.childs t).drop pos)

variable {h : BitVec 32} {sub : β → List (NodeKey × Nat)} {order : β → List (NodeKey × Bool)}

theorem map_fst_hitSkips (k : NodeKey) (C : List (NodeKey × Nat)) :
    (hitSkips h k C).map Prod.fst = hits h [k] ++ C.map Prod.fst := by
  by_cases hk : k.keyhash = h
  · simp [hitSkips, hits, hk]
  · simp [hitSkips, hits, hk]

theorem map_fst_rowSkips (hsub : ∀ d, (sub d).map Prod.fst = (order d).map Prod.fst) (last : List (NodeKey × Nat)) :
    ∀ (ks : List NodeKey) (ds : List β),
      (rowSkips h sub last ks ds).map Prod.fst = (rowOrder h order ks ds).map Prod.fst ++ last.map Prod.fst
  | k :: ks, d :: ds => by
    rw [rowSkips, rowOrder, map_fst_hitSkips, List.map_append, hsub, map_fst_rowSkips hsub last ks ds]
    simp only [List.map_append, map_fst_markedHits, Course.map_fst_unmarked, List.append_assoc]
  | [], d :: _ => by rw [rowSkips, rowOrder, List.map_append, hsub, Course.map_fst_unmarked]
  | [], [] => rfl
  | _ :: _, [] => rfl

theorem map_fst_levelSkips (hsub : ∀ d, (sub d).map Prod.fst = (order d).map Prod.fst) :
    ∀ (ks : List NodeKey) (cs : List β), (levelSkips h sub ks cs).map Prod.fst = (levelOrder h order ks cs).map Prod.fst
  | k :: ks, c :: cs => by
    rw [levelSkips, levelOrder, map_fst_hitSkips, map_fst_rowSkips hsub, hsub]
    simp only [List.map_append, map_fst_markedHits]
  | [], c :: _ => hsub c
  | [], [] => rfl
  | _ :: _, [] => rfl

theorem map_fst_visitSkips : ∀ {n : Nat} (t : KeyTree n),
    (visitSkips h n t).map Prod.fst = (visitOrder h n t).map Prod.fst
  | 0, _ => rfl
  | _ + 1, _ => map_fst_levelSkips map_fst_visitSkips _ _

theorem mem_visitSkips {n : Nat} {t : KeyTree n} (hs : Increasing (MTree.toList n t)) {k : NodeKey} :
    k ∈ (visitSkips h n t).map Prod.fst ↔ k ∈ MTree.toList n t ∧ k.keyhash = h := by
  rw [map_fst_visitSkips, (visitOrder_perm hs).mem_iff, mem_hits]

theorem within_hitSkips {k : NodeKey} {C : List (NodeKey × Nat)} (hw : Within C) : Within (hitSkips h k C) := by
  rw [hitSkips]
  split
  · exact ⟨Nat.le_refl _, hw⟩
  · exact hw

theorem within_rowSkips (hsub : ∀ d, Within (sub d)) {last : List (NodeKey × Nat)} (hlast : Within last) :
    ∀ (ks : List NodeKey) (ds : List β), Within (rowSkips h sub last ks ds)
  | _ :: ks, d :: ds => within_hitSkips ((within_rowSkips hsub hlast ks ds).append (hsub d))
  | [], d :: _ => hlast.append (hsub d)
  | [], [] => hlast
  | _ :: _, [] => hlast

theorem within_visitSkips : ∀ {n : Nat} (t : KeyTree n), Within (visitSkips h n t)
  | 0, _ => trivial
  | n + 1, t => by
    rw [visitSkips]
    generalize (MNode.keys t).drop _ = ks, (MNode.childs t).drop _ = cs
    match ks, cs with
    | k :: ks, c :: cs => exact within_hitSkips (within_rowSkips within_visitSkips (within_visitSkips c) ks cs)
    | [], c :: _ => exact within_visitSkips c
    | [], [] => trivial
    | _ :: _, [] => trivial

end Order

/-! ## The search -/

section Search

variable {β σ : Type} {h : BitVec 32} {func : NodeKey → σ → Ret × σ} {stop : NodeKey → Prop} [DecidablePred stop]
  {sub : β → σ → Ret × σ} {skips : β → List (NodeKey × Nat)}

theorem offer_reached (hfunc : ∀ k u, (func k u).1 = .ng ↔ stop k) (k : NodeKey) (u : σ) :
    ∃ vs stopped, offer h func k u = (stopped, callAll func vs u) ∧
      ∀ C, reached stop 0 (hitSkips h k C) = vs ++ if stopped then [] else reached stop 0 C := by
  by_cases hk : h = k.keyhash
  · refine ⟨[k], decide ((func k u).1 = .ng), if_pos hk, fun C => ?_⟩
    rw [hitSkips, if_pos hk.symm, reached]
    by_cases hstop : stop k
    · simp [hstop, (hfunc k u).mpr hstop, reached_length]
    · simp [hstop, mt (hfunc k u).mp hstop]
  · exact ⟨[], false, if_neg hk, fun C => by rw [hitSkips, if_neg (Ne.symm hk)]; rfl⟩

theorem rowSearch_reached (hfunc : ∀ k u, (func k u).1 = .ng ↔ stop k) (hw : ∀ d, Within (skips d))
    (hsub : ∀ d u, (sub d u).2 = callAll func (reached stop 0 (skips d)) u) :
    ∀ (ks : List NodeKey) (ds : List β) (u : σ), ∃ vs stopped,
      rowSearch h func sub ks ds u = (stopped, callAll func vs u) ∧ ∀ last,
        reached stop 0 (rowSkips h skips last ks ds) = vs ++ if stopped then [] else reached stop 0 last
  | k :: ks, d :: ds, u => by
    obtain ⟨vs, stopped, hoffer, hreached⟩ := @offer_reached σ h func stop _ hfunc k u
    rw [rowSearch, hoffer]
    cases stopped with
    | true => exact ⟨vs, true, rfl, fun last => hreached _⟩
    | false =>
      obtain ⟨vs', stopped, hrow, hreached'⟩ := rowSearch_reached hfunc hw hsub ks ds (sub d (callAll func vs u)).2
      refine ⟨vs ++ (reached stop 0 (skips d) ++ vs'), stopped, ?_, fun last => ?_⟩
      · simp only [Bool.false_eq_true, if_false, hrow]
        rw [hsub, callAll_append, callAll_append]
      · rw [rowSkips, hreached, if_neg Bool.false_ne_true, reached_append _ (hw d) (Nat.zero_le _), hreached']
        simp only [List.append_assoc]
  | [], d :: _, u => ⟨_, false, by rw [rowSearch, hsub], fun last => reached_append _ (hw d) (Nat.zero_le _)⟩
  | [], [], _ => ⟨[], false, rfl, fun _ => rfl⟩
  | _ :: _, [], _ => ⟨[], false, rfl, fun _ => rfl⟩

theorem levelSearch_reached (hfunc : ∀ k u, (func k u).1 = .ng ↔ stop k) (hw : ∀ d, Within (skips d))
    (hsub : ∀ d u, (sub d u).2 = callAll func (reached stop 0 (skips d)) u) :
    ∀ (ks : List NodeKey) (cs : List β) (u : σ), (levelSearch h func sub ks cs u).2 =
      callAll func (reached stop 0 (levelSkips h skips ks cs)) u
  | k :: ks, c :: cs, u => by
    obtain ⟨vs, stopped, hoffer, hreached⟩ := @offer_reached σ h func stop _ hfunc k u
    rw [levelSearch, hoffer, levelSkips, hreached, callAll_append]
    cases stopped with
    | true => rfl
    | false =>
      obtain ⟨vs', stopped, hrow, hreached'⟩ :=
        @rowSearch_reached β σ h func stop _ sub skips hfunc hw hsub ks cs (callAll func vs u)
      simp only [Bool.false_eq_true, if_false, hrow, hreached', callAll_append]
      cases stopped with
      | true => rfl
      | false => exact hsub c _
  | [], c :: _, u => hsub c u
  | [], [], _ => rfl
  | _ :: _, [], _ => rfl

theorem treeSearch_reached (hfunc : ∀ k u, (func k u).1 = .ng ↔ stop k) : ∀ {n : Nat} (t : KeyTree n) (u : σ),
    (treeSearch h func n t u).2 = callAll func (reached stop 0 (visitSkips h n t)) u
  | 0, _, _ => rfl
  | _ + 1, _, _ => levelSearch_reached hfunc within_visitSkips (treeSearch_reached hfunc) _ _ _

/-- With a callback that answers `RET_NG` on the entries with `stop`, these calls are made. -/
theorem findTreeOnlyKeyhashSafe_reached {inst : TreeInstance} {c : Fin categoryCnt} {n : Nat} {t : KeyTree n}
    (hc : TreeInstance.getCategoryId h = some c) (ht : (inst c).Holds n t)
    (hfunc : ∀ k u, (func k u).1 = .ng ↔ stop k) (u : σ) :
    ∃ r, inst.findTreeOnlyKeyhashSafe h func u = .ok (r, callAll func (reached stop 0 (visitSkips h n t)) u) := by
  rw [TreeInstance.findTreeOnlyKeyhashSafe, hc]
  simp only [ht.rooti]
  rw [searchItemOnlyKeyhashRecurcive_eq h func _ u ht.owned.lt_depthBound ht.owned.rep ht.increasing,
    ← treeSearch_reached hfunc t u]
  exact ⟨_, rfl⟩

end Search

end CategoryTree
end NetworkBfd.Smmr
