import NetworkBfd.Smmr.Tree.Index

/-!
# The callbacks of the search for a hash

`find_tree_only_keyhash_safe` seen through the list of its callbacks (`recorded`): with a callback that never answers
`RET_NG` it makes one on each entry of its hash (`findTreeOnlyKeyhashSafe_exact`). A callback that answers `RET_NG` ends
the loop that made it, but not the loops around it, whose calls of themselves drop the result; so the search stops
exactly if the first such answer comes in the outermost loop (`findTreeOnlyKeyhashSafe_stops_iff`).
-/

namespace NetworkBfd.Smmr

open Lib KeyTree CategoryTree

section Recorded

variable {σ : Type}

variable {func : NodeKey → σ → Ret × σ}

/-- Nothing follows an answer `RET_NG`. -/
theorem obeys_recorded {vs : List NodeKey} {u : σ} {ended : Bool} :
    Obeys (· = Ret.ng) (recorded func) vs (u, []) ended ↔
    ∀ pre k post, answers func vs u = pre ++ (k, Ret.ng) :: post → post = [] ∧ ended = true := by
  constructor
  · intro h pre k post hcalls
    obtain ⟨ws, ws', hvs, hng, hpost⟩ := answers_split hcalls
    obtain ⟨rfl, he⟩ := h ws k ws' hvs (by rw [callAll_recorded]; exact hng.symm)
    exact ⟨List.map_eq_nil_iff.mp hpost, he⟩
  · rintro h pre k post rfl hng
    rw [callAll_recorded] at hng
    replace hng : (func k (callAll func pre u)).1 = .ng := hng
    obtain ⟨hpost, he⟩ := h (answers func pre u) k (answers func post (func k (callAll func pre u)).2) (by
      rw [answers_append, Lib.answers, hng])
    refine ⟨?_, he⟩
    rw [← @map_fst_answers _ _ _ func post (func k (callAll func pre u)).2, hpost]
    rfl

theorem firstMarked_recorded : ∀ (C : List (NodeKey × Bool)) (u : σ) (log : List (NodeKey × Ret)),
    FirstMarked (· = Ret.ng) (recorded func) C (u, log) ↔ FirstMarked (· = Ret.ng) func C u
  | [], _, _ => Iff.rfl
  | (k, b) :: C, u, log => by
    rw [FirstMarked, FirstMarked, recorded, firstMarked_recorded C]

end Recorded

namespace TreeInstance

section Search

variable {σ : Type} {inst : TreeInstance} {keyhash : BitVec 32} {c : Fin categoryCnt} {n : Nat} {t : KeyTree n}

/-- The search makes its callbacks in the order of visits. -/
theorem findTreeOnlyKeyhashSafe_course (hc : getCategoryId keyhash = some c) (ho : (inst c).Owned n t)
    (hroot : (inst c).rooti = root n t) (hs : Increasing (MTree.toList n t)) (func : NodeKey → σ → Ret × σ) (u : σ) :
    ∃ vs ended, inst.findTreeOnlyKeyhashSafe keyhash func u = .ok (if ended then .ok else .ng, callAll func vs u) ∧
      CourseKeys func (visitOrder keyhash n t) u vs ended := by
  rw [findTreeOnlyKeyhashSafe, hc]
  simp only [hroot]
  exact searchItemOnlyKeyhashRecurcive_course keyhash func _ u ho.lt_depthBound ho.rep hs

/-- A callback that never answers `RET_NG` is called exactly once on each entry of the hash. -/
theorem findTreeOnlyKeyhashSafe_exact (hc : getCategoryId keyhash = some c) (ho : (inst c).Owned n t)
    (hroot : (inst c).rooti = root n t) (hs : Increasing (MTree.toList n t)) (func : NodeKey → σ → Ret × σ)
    (hfunc : ∀ k u, (func k u).1 ≠ .ng) (u : σ) :
    ∃ r u' calls, inst.findTreeOnlyKeyhashSafe keyhash (recorded func) (u, []) = .ok (r, u', calls) ∧
      inst.findTreeOnlyKeyhashSafe keyhash func u = .ok (r, u') ∧ (calls.map Prod.fst).Nodup ∧
      ∀ k, k ∈ calls.map Prod.fst ↔ k ∈ MTree.toList n t ∧ k.keyhash = keyhash := by
  obtain ⟨vs, ended, hrun, hcourse⟩ := findTreeOnlyKeyhashSafe_course hc ho hroot hs (recorded func) (u, [])
  obtain ⟨vs', ended', hrun', hcourse'⟩ := findTreeOnlyKeyhashSafe_course hc ho hroot hs func u
  obtain ⟨hvs, rfl⟩ := hcourse.eq_of_quiet (quiet_of_forall (fun k u => hfunc k u.1) _ _)
  obtain ⟨hvs', rfl⟩ := hcourse'.eq_of_quiet (quiet_of_forall hfunc _ _)
  have hperm := visitOrder_perm (h := keyhash) hs
  refine ⟨.ng, callAll func vs u, answers func vs u, ?_, ?_, ?_, fun k => ?_⟩
  · rw [hrun, callAll_recorded]
    rfl
  · rw [hrun', hvs', hvs]
    rfl
  · rw [map_fst_answers, hvs, hperm.nodup_iff]
    exact hs.nodup.filter _
  · rw [map_fst_answers, hvs, hperm.mem_iff, mem_hits]

end Search

/-- The five entries, in three nodes. -/
def fiveTree : KeyTree 2 :=
  KeyTree.node ⟨0, 1, 488⟩ [⟨4, 1, 3⟩] [KeyTree.node ⟨0, 1, 168⟩ [⟨4, 1, 1⟩, ⟨4, 1, 2⟩] [(), (), ()] rfl,
    KeyTree.node ⟨0, 1, 328⟩ [⟨4, 1, 4⟩, ⟨4, 1, 5⟩] [(), (), ()] rfl] rfl

theorem run_fiveHits : ∃ inst', threeBlocks.run fiveHits = .ok inst' ∧ (inst' 0).Holds 2 fiveTree := by
  have hstate : (threeBlocks.run fiveHits).map (fun inst => ((inst 0).rooti,
      [⟨0, 1, 488⟩, ⟨0, 1, 168⟩, ⟨0, 1, 328⟩].map fun (nodei : NodeInstanceOffset) =>
        (decide (nodei.addr ∈ (inst 0).live), ((inst 0).mem nodei.addr).keyList,
          ((inst 0).mem nodei.addr).childList))) =
      .ok (⟨0, 1, 488⟩, [(true, [⟨4, 1, 3⟩], [⟨0, 1, 168⟩, ⟨0, 1, 328⟩]),
        (true, [⟨4, 1, 1⟩, ⟨4, 1, 2⟩], [default, default, default]),
        (true, [⟨4, 1, 4⟩, ⟨4, 1, 5⟩], [default, default, default])]) := by decide +kernel
  cases hrun : threeBlocks.run fiveHits with
  | error e =>
    rw [hrun] at hstate
    cases hstate
  | ok inst' =>
    rw [hrun] at hstate
    obtain ⟨hroot, hnodes⟩ := Prod.mk.inj (Except.ok.inj hstate)
    simp only [List.map_cons, List.map_nil, List.cons.injEq, Prod.mk.injEq, decide_eq_true_eq, and_true] at hnodes
    obtain ⟨⟨hlive, hkeys, hchilds⟩, ⟨hlive₁, hkeys₁, hchilds₁⟩, hlive₂, hkeys₂, hchilds₂⟩ := hnodes
    have hblocks : blocks 2 fiveTree = [NodeInstanceOffset.addr ⟨0, 1, 488⟩, NodeInstanceOffset.addr ⟨0, 1, 168⟩,
      NodeInstanceOffset.addr ⟨0, 1, 328⟩] := rfl
    have hbelow : ∀ t ∈ MNode.childs fiveTree, Rep (inst' 0).mem 1 t ∧
        MTree.Filled treeNodemin treeNodecount treeNodemin 1 t := fun t ht => by
      rcases List.mem_pair.mp ht with rfl | rfl
      · exact ⟨rep_node.mpr ⟨rfl, hkeys₁, hchilds₁, fun _ _ => trivial⟩, by decide, by decide, fun _ _ => trivial⟩
      · exact ⟨rep_node.mpr ⟨rfl, hkeys₂, hchilds₂, fun _ _ => trivial⟩, by decide, by decide, fun _ _ => trivial⟩
    have hrep : Rep (inst' 0).mem 2 fiveTree := rep_node.mpr ⟨rfl, hkeys, hchilds, fun t ht => (hbelow t ht).1⟩
    refine ⟨inst', rfl, ⟨hrep, by decide +kernel, ?_⟩, by decide +kernel, hroot, ?_, by decide +kernel⟩
    · rw [hblocks, List.forall_mem_cons, List.forall_mem_cons, List.forall_mem_singleton]
      exact ⟨hlive, hlive₁, hlive₂⟩
    · exact ⟨by decide, by decide, fun t ht => (hbelow t ht).2⟩

/-- A callback that always answers `RET_OK` sees all five. -/
theorem findTreeOnlyKeyhashSafe_exact_five : ∃ inst', threeBlocks.run fiveHits = .ok inst' ∧ ∃ r calls,
    inst'.findTreeOnlyKeyhashSafe 4 (recorded fun _ u => (.ok, u)) ((), []) = .ok (r, (), calls) ∧
      (calls.map Prod.fst).Nodup ∧ ∀ k, k ∈ calls.map Prod.fst ↔ k ∈ reference fiveHits ∧ k.keyhash = 4 := by
  obtain ⟨inst', hrun, ht⟩ := run_fiveHits
  obtain ⟨r, u', calls, hfind, -, hnodup, hcalls⟩ := @findTreeOnlyKeyhashSafe_exact Unit inst' 4 0 2 fiveTree
    rfl ht.owned ht.rooti ht.increasing (fun _ u => (.ok, u)) (fun _ _ he => by cases he) ()
  have hentries : (MTree.toList 2 fiveTree).toFinset = reference fiveHits := by decide +kernel
  refine ⟨inst', hrun, r, calls, hfind, hnodup, fun k => ?_⟩
  rw [hcalls, ← hentries, List.mem_toFinset]

section Search

variable {σ : Type} {inst : TreeInstance} {keyhash : BitVec 32} {c : Fin categoryCnt} {n : Nat} {t : KeyTree n}

/-- Once the callback has answered `RET_NG` the search makes no other and returns `RET_OK`. -/
def StopsOnRequest (inst : TreeInstance) (keyhash : BitVec 32) (func : NodeKey → σ → Ret × σ) (u : σ) : Prop :=
  ∃ r u' calls, inst.findTreeOnlyKeyhashSafe keyhash (recorded func) (u, []) = .ok (r, u', calls) ∧
    ∀ pre k post, calls = pre ++ (k, Ret.ng) :: post → post = [] ∧ r = .ok

/-- The search stops on request exactly if the first entry on which it is asked to, in the order of visits, lies in a
node that its outermost loop walks down to. -/
theorem findTreeOnlyKeyhashSafe_stops_iff (hc : getCategoryId keyhash = some c) (ho : (inst c).Owned n t)
    (hroot : (inst c).rooti = root n t) (hs : Increasing (MTree.toList n t)) (func : NodeKey → σ → Ret × σ) (u : σ) :
    inst.StopsOnRequest keyhash func u ↔ FirstMarked (· = Ret.ng) func (visitOrder keyhash n t) u := by
  obtain ⟨vs, ended, hrun, hcourse⟩ := findTreeOnlyKeyhashSafe_course hc ho hroot hs (recorded func) (u, [])
  have hended : ended = true ↔ (if ended then Ret.ok else .ng) = .ok := by cases ended <;> simp
  rw [callAll_recorded, List.nil_append] at hrun
  rw [← firstMarked_recorded _ u [], ← hcourse.obeys_iff, obeys_recorded, hended]
  constructor
  · rintro ⟨r, u', calls, hrun', h⟩
    obtain ⟨rfl, hu⟩ := Prod.mk.inj (Except.ok.inj (hrun.symm.trans hrun'))
    obtain ⟨-, rfl⟩ := Prod.mk.inj hu
    exact h
  · intro h
    exact ⟨_, _, _, hrun, h⟩

end Search

/-- The search stops if it is asked to at the first entry, in the left child, and not if it is at the fourth, in the
right one. -/
theorem findTreeOnlyKeyhashSafe_stops_iff_five : ∃ inst', threeBlocks.run fiveHits = .ok inst' ∧
    inst'.StopsOnRequest 4 (fun k u => (if k.dataOffset = 1 then .ng else .ok, u)) () ∧
      ¬ inst'.StopsOnRequest 4 (fun k u => (if k.dataOffset = 4 then .ng else .ok, u)) () := by
  obtain ⟨inst', hrun, ht⟩ := run_fiveHits
  have horder : visitOrder 4 2 fiveTree =
      [(⟨4, 1, 3⟩, true), (⟨4, 1, 4⟩, false), (⟨4, 1, 5⟩, false), (⟨4, 1, 1⟩, true), (⟨4, 1, 2⟩, true)] := by
    decide +kernel
  have hiff := @findTreeOnlyKeyhashSafe_stops_iff Unit inst' 4 0 2 fiveTree rfl ht.owned ht.rooti ht.increasing
  rw [horder] at hiff
  refine ⟨inst', hrun, (hiff _ ()).mpr ?_, fun hstops => ?_⟩
  · simp [FirstMarked]
  · obtain ⟨-, hfourth⟩ := (hiff _ ()).mp hstops
    obtain ⟨hmarked, -⟩ := hfourth (by decide)
    exact absurd (hmarked rfl) (by decide)

/-- Asked to stop at the fourth entry, in the right child of the root, the search goes on with the left child. -/
theorem stop_ignored : ∃ inst', threeBlocks.run fiveHits = .ok inst' ∧
    (∃ (n : Nat) (t : KeyTree n), (inst' 0).Holds n t) ∧
    ¬ inst'.StopsOnRequest 4 (fun k u => (if k.dataOffset = 4 then .ng else .ok, u)) () := by
  obtain ⟨inst', hrun, ht⟩ := run_fiveHits
  refine ⟨inst', hrun, ⟨2, fiveTree, ht⟩, ?_⟩
  have hcalls : ((threeBlocks.run fiveHits).bind fun inst => (inst.findTreeOnlyKeyhashSafe 4
      (recorded fun k u => (if k.dataOffset = 4 then .ng else .ok, u)) ((), [])).map fun r => r.2.2) =
      .ok [(⟨4, 1, 3⟩, .ok), (⟨4, 1, 4⟩, .ng), (⟨4, 1, 1⟩, .ok), (⟨4, 1, 2⟩, .ok)] := by decide +kernel
  rw [hrun] at hcalls
  rintro ⟨r, u', calls, hfind, h⟩
  simp only [Except.bind, hfind, Except.map] at hcalls
  have hnil := (h [(⟨4, 1, 3⟩, .ok)] ⟨4, 1, 4⟩ [(⟨4, 1, 1⟩, .ok), (⟨4, 1, 2⟩, .ok)] (Except.ok.inj hcalls)).1
  cases hnil

end TreeInstance
end NetworkBfd.Smmr
