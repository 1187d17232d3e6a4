import Mathlib.Data.List.Flatten
import NetworkBfd.Smmr.Tree.Access
import NetworkBfd.Smmr.Tree.Index
import NetworkBfd.Smmr.Tree.Similar
import NetworkBfd.Smmr.Tree.Stopping

/-!
# Who owns the node blocks

After any calls of `add_tree_safe` and `remove_tree_safe` the live blocks of a category are those of its tree, and each
is the end of one path from `rooti` (`Exact`, `Exact.accounted`). The guarded operations, which read live blocks only,
then run as the operations do (`run_guarded`), and runs that differ in the contents of the blocks that `shmalloc` hands
out stay similar (`run_similar`). Together this is `run_ownership`.
-/

namespace NetworkBfd.Smmr

open Lib KeyTree CategoryTree

namespace CategoryTree

/-! ## Paths -/

/-- The node at the end of a path of child indexes, of which each has to be one that the count of its node covers. -/
def follow (s : CategoryTree) : List Nat → NodeInstanceOffset → Option NodeInstanceOffset
  | [], nodei => if nodei.isEmpty then none else some nodei
  | pos :: path, nodei =>
    if nodei.isEmpty then none
    else if pos ≤ (s.refnode nodei).count then follow s path ((s.refnode nodei).child pos) else none

/-- The live blocks are the ends of the paths from `rooti`, each of one path. -/
structure Accounted (s : CategoryTree) : Prop where
  reached : ∀ a, a ∈ s.live ↔ ∃ path ref, s.follow path s.rooti = some ref ∧ ref.addr = a
  once : ∀ path path' ref ref', s.follow path s.rooti = some ref → s.follow path' s.rooti = some ref' →
    ref.addr = ref'.addr → path = path'

variable {s s' : CategoryTree}

theorem follow_zero (path : List Nat) : s.follow path default = none := by
  cases path <;> rfl

/-- A path into a node either ends there or goes on into a child. -/
theorem follow_node {n : Nat} {ref r : NodeInstanceOffset} {keys : List NodeKey} {childs : List (KeyTree n)}
    {len : childs.length = keys.length + 1} (h : Rep s.mem (n + 1) (node ref keys childs len)) (path : List Nat) :
    s.follow path ref = some r ↔ path = [] ∧ r = ref ∨
      ∃ pos path' c, path = pos :: path' ∧ childs[pos]? = some c ∧ s.follow path' (root n c) = some r := by
  obtain ⟨h1, h2, h3, -⟩ := rep_node.mp h
  have hcount : (s.refnode ref).count = keys.length := by
    rw [refnode, ← NodeInstance.length_keyList, h2]
  cases path with
  | nil =>
    rw [follow, if_neg (by rw [h1]; exact Bool.false_ne_true)]
    simp [eq_comm]
  | cons pos path =>
    rw [follow, if_neg (by rw [h1]; exact Bool.false_ne_true), hcount]
    simp only [reduceCtorEq, false_and, false_or, List.cons.injEq]
    constructor
    · intro hr
      split at hr
      · rename_i hle
        have hlt : pos < childs.length := by omega
        refine ⟨pos, path, childs[pos], ⟨rfl, rfl⟩, List.getElem?_eq_getElem hlt, ?_⟩
        rw [refnode, NodeInstance.child_eq h3 (by rwa [List.length_map]), List.getElem_map] at hr
        exact hr
      · cases hr
    · rintro ⟨pos', path', c, ⟨rfl, rfl⟩, hc, hr⟩
      obtain ⟨hlt, rfl⟩ := List.getElem?_eq_some_iff.mp hc
      rw [if_pos (by omega), refnode, NodeInstance.child_eq h3 (by rwa [List.length_map]), List.getElem_map]
      exact hr

/-- The ends of the paths are the blocks of the tree. -/
theorem mem_blocks_iff {a : Nat} : ∀ {n : Nat} {t : KeyTree n}, Rep s.mem n t →
    (a ∈ blocks n t ↔ ∃ path r, s.follow path (root n t) = some r ∧ r.addr = a)
  | 0, _, _ => by
    refine ⟨fun ha => absurd ha List.not_mem_nil, ?_⟩
    rintro ⟨path, r, hr, -⟩
    rw [root, follow_zero] at hr
    cases hr
  | n + 1, ⟨ref, keys, childs, len⟩, h => by
    have hchild := (rep_node.mp h).2.2.2
    rw [blocks_node, List.mem_cons, List.mem_flatMap]
    constructor
    · rintro (rfl | ⟨c, hc, ha⟩)
      · exact ⟨[], ref, (follow_node h []).mpr (.inl ⟨rfl, rfl⟩), rfl⟩
      · obtain ⟨path, r, hr, rfl⟩ := (mem_blocks_iff (hchild c hc)).mp ha
        obtain ⟨pos, hpos⟩ := List.mem_iff_getElem?.mp hc
        exact ⟨pos :: path, r, (follow_node h _).mpr (.inr ⟨pos, path, c, rfl, hpos, hr⟩), rfl⟩
    · rintro ⟨path, r, hr, rfl⟩
      rcases (follow_node h path).mp hr with ⟨-, rfl⟩ | ⟨pos, path', c, -, hpos, hr⟩
      · exact .inl rfl
      · have hc := List.mem_of_getElem? hpos
        exact .inr ⟨c, hc, (mem_blocks_iff (hchild c hc)).mpr ⟨path', r, hr, rfl⟩⟩

/-- Blocks that are used once are the end of one path. -/
theorem follow_once : ∀ {n : Nat} {t : KeyTree n}, Rep s.mem n t → (blocks n t).Nodup → ∀ {path path' : List Nat}
    {r r' : NodeInstanceOffset}, s.follow path (root n t) = some r → s.follow path' (root n t) = some r' →
    r.addr = r'.addr → path = path'
  | 0, _, _, _, path, _, _, _, hr, _, _ => by
    rw [root, follow_zero] at hr
    cases hr
  | n + 1, ⟨ref, keys, childs, len⟩, h, hn, path, path', r, r', hr, hr', heq => by
    have hchild := (rep_node.mp h).2.2.2
    rw [blocks_node, List.nodup_cons, List.nodup_flatMap] at hn
    obtain ⟨hroot, hnodup, hapart⟩ := hn
    have hin : ∀ {pos : Nat} {c : KeyTree n} {p : List Nat} {q : NodeInstanceOffset}, childs[pos]? = some c →
        s.follow p (root n c) = some q → q.addr ∈ blocks n c := fun hc hq =>
      (mem_blocks_iff (hchild _ (List.mem_of_getElem? hc))).mpr ⟨_, _, hq, rfl⟩
    have hbelow : ∀ {pos : Nat} {c : KeyTree n} {p : List Nat} {q : NodeInstanceOffset}, childs[pos]? = some c →
        s.follow p (root n c) = some q → q.addr ≠ ref.addr := fun hc hq he =>
      hroot (List.mem_flatMap.mpr ⟨_, List.mem_of_getElem? hc, he ▸ hin hc hq⟩)
    rcases (follow_node h path).mp hr with ⟨rfl, rfl⟩ | ⟨pos, p, c, rfl, hc, hp⟩
    · rcases (follow_node h path').mp hr' with ⟨rfl, -⟩ | ⟨pos', p', c', rfl, hc', hp'⟩
      · rfl
      · exact absurd heq.symm (hbelow hc' hp')
    · rcases (follow_node h path').mp hr' with ⟨rfl, rfl⟩ | ⟨pos', p', c', rfl, hc', hp'⟩
      · exact absurd heq (hbelow hc hp)
      · -- in two children at once there is no block
        have hpos : pos = pos' := by
          by_contra hne
          obtain ⟨hlt, rfl⟩ := List.getElem?_eq_some_iff.mp hc
          obtain ⟨hlt', rfl⟩ := List.getElem?_eq_some_iff.mp hc'
          have hdis := List.pairwise_iff_getElem.mp hapart
          rcases Nat.lt_or_gt_of_ne hne with hlt₂ | hlt₂
          · exact hdis pos pos' hlt hlt' hlt₂ (hin hc hp) (heq ▸ hin hc' hp')
          · exact hdis pos' pos hlt' hlt hlt₂ (hin hc' hp') (heq ▸ hin hc hp)
        subst hpos
        rw [hc] at hc'
        cases hc'
        have hcm := List.mem_of_getElem? hc
        rw [follow_once (hchild c hcm) (hnodup c hcm) hp hp' heq]

/-- The category holds a tree, and no other block is live. -/
def Exact (s : CategoryTree) : Prop :=
  ∃ (n : Nat) (t : KeyTree n), s.Holds n t ∧ s.live = (blocks n t).toFinset

theorem Exact.accounted (h : s.Exact) : s.Accounted := by
  obtain ⟨n, t, ht, hl⟩ := h
  refine ⟨fun a => ?_, fun path path' ref ref' hr hr' heq => ?_⟩
  · rw [hl, List.mem_toFinset, ht.rooti]
    exact mem_blocks_iff ht.owned.rep
  · rw [ht.rooti] at hr hr'
    exact follow_once ht.owned.rep ht.owned.nodup hr hr' heq

/-! ## Similar states -/

theorem Similar.symm (h : Similar [] s s') : Similar [] s' s where
  views a ha hn := (h.views a (h.live ▸ ha) hn).symm
  live := h.live.symm
  answers := h.answers.flip.imp fun q q' hq => by
    cases q <;> cases q'
    · exact Eq.symm hq
    · exact hq.elim
    · exact hq.elim
    · exact Eq.symm hq
  rooti := h.rooti.symm
  newnodei := h.newnodei.symm
  currentItem := h.currentItem.symm
  done := h.done.symm
  deleted := h.deleted.symm
  undersize := h.undersize.symm

/-- Similar states hold the same trees. -/
theorem Similar.rep (h : Similar [] s s') : ∀ {n : Nat} {t : KeyTree n}, Rep s.mem n t →
    (∀ a ∈ blocks n t, a ∈ s.live) →
    Rep s'.mem n t
  | 0, _, _, _ => trivial
  | n + 1, ⟨ref, keys, childs, len⟩, hrep, hlive => by
    obtain ⟨h1, h2, h3, h4⟩ := rep_node.mp hrep
    rw [blocks_node] at hlive
    have hview := h.views ref.addr (hlive _ List.mem_cons_self) List.not_mem_nil
    refine rep_node.mpr ⟨h1, (congrArg View.keys hview).trans h2, (congrArg View.childs hview).trans h3, fun c hc => ?_⟩
    exact h.rep (h4 c hc) fun a ha => hlive a (List.mem_cons_of_mem _ (List.mem_flatMap.mpr ⟨c, hc, ha⟩))

theorem Similar.holds {n : Nat} {t : KeyTree n} (h : Similar [] s s') (ht : s.Holds n t) : s'.Holds n t where
  owned := ⟨h.rep ht.owned.rep ht.owned.live, ht.owned.nodup, fun a ha => h.live ▸ ht.owned.live a ha⟩
  bounded := ht.bounded
  rooti := h.rooti.trans ht.rooti
  filled := ht.filled
  increasing := ht.increasing

theorem Similar.exact (h : Similar [] s s') (he : s.Exact) : s'.Exact := by
  obtain ⟨n, t, ht, hl⟩ := he
  exact ⟨n, t, h.holds ht, h.live.trans hl⟩

theorem Similar.blocksOnly (h : Similar [] s s') (hb : ∀ q ∈ s.answers, q.isBlock = true) :
    ∀ q ∈ s'.answers, q.isBlock = true := by
  have hans := h.answers
  generalize s.answers = l at hb hans
  generalize s'.answers = l' at hans
  induction hans with
  | nil => exact fun q hq => absurd hq List.not_mem_nil
  | cons hq hrest ih =>
    rename_i q q' l l'
    intro p hp
    rcases List.mem_cons.mp hp with rfl | hp
    · cases q with
      | null ref => exact absurd (hb _ List.mem_cons_self) Bool.false_ne_true
      | block ref junk =>
        cases p with
        | null ref' => exact hq.elim
        | block ref' junk' => rfl
    · exact ih (fun q hq => hb q (List.mem_cons_of_mem _ hq)) p hp

end CategoryTree

/-! ## Steps and runs -/

namespace TreeInstance

def stepGuarded (inst : TreeInstance) : TreeOp → Except Fault (Ret × TreeInstance)
  | .add itm => inst.addTreeSafeGuarded itm
  | .remove itm => inst.removeTreeSafeGuarded itm

def runGuarded : TreeInstance → List TreeOp → Except Fault TreeInstance
  | inst, [] => .ok inst
  | inst, op :: ops => do
    let (_, inst) ← inst.stepGuarded op
    runGuarded inst ops

variable {inst inst₂ : TreeInstance}

/-- A change of one category keeps what holds of every category. -/
theorem forall_update {P : Fin categoryCnt → CategoryTree → Prop} {c : Fin categoryCnt} {s : CategoryTree}
    (h : ∀ d, P d (inst d)) (hs : P c s) : ∀ d, P d (Function.update inst c s d) := by
  intro d
  rcases eq_or_ne d c with rfl | hd
  · rw [Function.update_self]
    exact hs
  · rw [Function.update_of_ne hd]
    exact h d

/-- The guarded step is the step. -/
theorem stepGuarded_eq (h : ∀ c, (inst c).Exact) (hb : BlocksOnly inst) (op : TreeOp) :
    inst.stepGuarded op = inst.step op := by
  cases op with
  | add itm =>
    rw [stepGuarded, step, addTreeSafeGuarded, changeGuarded, addTreeSafe]
    cases hc : getCategoryId itm.keyhash with
    | none => rfl
    | some c =>
      obtain ⟨n, t, ht, -⟩ := h c
      simp only [addTreeGuarded_eq ht (hb c)]
  | remove itm =>
    rw [stepGuarded, step, removeTreeSafeGuarded, changeGuarded, removeTreeSafe]
    cases hc : getCategoryId itm.keyhash with
    | none => rfl
    | some c =>
      obtain ⟨n, t, ht, -⟩ := h c
      simp only [removeTreeGuarded_eq ht]

/-- No step loses a block. -/
theorem step_exact (h : ∀ c, (inst c).Exact) (hb : BlocksOnly inst) (op : TreeOp) :
    Yields Contract (inst.step op) fun r => (∀ c, (r.2 c).Exact) ∧ BlocksOnly r.2 := by
  cases op with
  | add itm =>
    rw [step, addTreeSafe]
    cases hc : getCategoryId itm.keyhash with
    | none => exact ⟨h, hb⟩
    | some c =>
      obtain ⟨n, t, ht, hl⟩ := h c
      refine (addTree_spec ht (hb c) itm).bind ?_
      rintro s ⟨n', t', ht', -, hans, hlive⟩
      exact ⟨forall_update h ⟨n', t', ht', hlive hl⟩, hb.update hans⟩
  | remove itm =>
    rw [step, removeTreeSafe]
    cases hc : getCategoryId itm.keyhash with
    | none => exact ⟨h, hb⟩
    | some c =>
      obtain ⟨n, t, ht, hl⟩ := h c
      obtain ⟨s, hs, hans, n', t', ht', -, hlive⟩ := removeTree_spec ht itm
      simp only [hs]
      exact ⟨forall_update h ⟨n', t', ht', hlive hl⟩, hb.update fun q hq => hans ▸ hq⟩

/-- Similar instances stay similar. -/
theorem stepGuarded_agree (h : ∀ c, Similar [] (inst c) (inst₂ c)) (op : TreeOp) :
    Agree (fun r r₂ => r₂.1 = r.1 ∧ ∀ c, Similar [] (r.2 c) (r₂.2 c)) (inst.stepGuarded op) (inst₂.stepGuarded op) := by
  have hchange : ∀ (f : CategoryTree → NodeKey → Except Fault CategoryTree) (itm : NodeKey),
      (∀ s s' : CategoryTree, Similar [] s s' → Agree (Similar []) (f s itm) (f s' itm)) →
      Agree (fun r r₂ => r₂.1 = r.1 ∧ ∀ c, Similar [] (r.2 c) (r₂.2 c)) (inst.changeGuarded f itm)
        (inst₂.changeGuarded f itm) := by
    intro f itm hf
    rw [changeGuarded, changeGuarded]
    cases getCategoryId itm.keyhash with
    | none => exact agree_ok ⟨rfl, h⟩
    | some c =>
      refine (hf _ _ (h c)).bind fun s s' hs => agree_ok ⟨rfl, fun d => ?_⟩
      rcases eq_or_ne d c with rfl | hd
      · simp only [Function.update_self]
        exact hs
      · simp only [Function.update_of_ne hd]
        exact h d
  cases op with
  | add itm => exact hchange _ itm fun s s' hs => addTreeGuarded_agree hs itm
  | remove itm => exact hchange _ itm fun s s' hs => removeTreeGuarded_agree hs itm

theorem run_exact : ∀ (ops : List TreeOp) {inst : TreeInstance}, (∀ c, (inst c).Exact) → BlocksOnly inst →
    Yields Contract (inst.run ops) fun inst' => (∀ c, (inst' c).Exact) ∧ BlocksOnly inst'
  | [], _, h, hb => ⟨h, hb⟩
  | op :: ops, _, h, hb => (step_exact h hb op).bind fun _ hr => run_exact ops hr.1 hr.2

/-- No run reads or writes a block that is not live. -/
theorem runGuarded_eq : ∀ (ops : List TreeOp) {inst : TreeInstance}, (∀ c, (inst c).Exact) → BlocksOnly inst →
    inst.runGuarded ops = inst.run ops
  | [], _, _, _ => rfl
  | op :: ops, inst, h, hb => by
    rw [runGuarded, run, stepGuarded_eq h hb]
    exact (step_exact h hb op).bind_congr fun r hr => runGuarded_eq ops hr.1 hr.2

theorem runGuarded_agree : ∀ (ops : List TreeOp) {inst inst₂ : TreeInstance}, (∀ c, Similar [] (inst c) (inst₂ c)) →
    Agree (fun i i₂ => ∀ c, Similar [] (i c) (i₂ c)) (inst.runGuarded ops) (inst₂.runGuarded ops)
  | [], _, _, h => agree_ok h
  | op :: ops, _, _, h => (stepGuarded_agree h op).bind fun _ _ hr => runGuarded_agree ops hr.2

/-! ## Searches and the count -/

section Search

variable {σ : Type}

theorem findTreeSafeGuarded_eq (h : ∀ c, (inst c).Exact) (itm : NodeKey) (func : NodeKey → σ → Ret × σ) (u : σ) :
    inst.findTreeSafeGuarded itm func u = inst.findTreeSafe itm func u := by
  rw [findTreeSafeGuarded, findTreeSafe]
  cases getCategoryId itm.keyhash with
  | none => rfl
  | some c =>
    obtain ⟨n, t, ht, -⟩ := h c
    simp only [ht.rooti, searchGuarded_eq itm _ u ht.owned]

theorem findTreeOnlyKeyhashSafeGuarded_eq (h : ∀ c, (inst c).Exact) (keyhash : BitVec 32)
    (func : NodeKey → σ → Ret × σ) (u : σ) :
    inst.findTreeOnlyKeyhashSafeGuarded keyhash func u = inst.findTreeOnlyKeyhashSafe keyhash func u := by
  rw [findTreeOnlyKeyhashSafeGuarded, findTreeOnlyKeyhashSafe]
  cases getCategoryId keyhash with
  | none => rfl
  | some c =>
    obtain ⟨n, t, ht, -⟩ := h c
    simp only [ht.rooti, searchKeyhashGuarded_eq keyhash _ u ht.owned]

theorem findTreeSafeGuarded_similar (h : ∀ c, Similar [] (inst c) (inst₂ c)) (itm : NodeKey)
    (func : NodeKey → σ → Ret × σ) (u : σ) :
    inst₂.findTreeSafeGuarded itm func u = inst.findTreeSafeGuarded itm func u := by
  rw [findTreeSafeGuarded, findTreeSafeGuarded]
  cases getCategoryId itm.keyhash with
  | none => rfl
  | some c => simp only [searchGuarded_similar (h c), (h c).rooti, depthBound, (h c).live]

theorem findTreeOnlyKeyhashSafeGuarded_similar (h : ∀ c, Similar [] (inst c) (inst₂ c)) (keyhash : BitVec 32)
    (func : NodeKey → σ → Ret × σ) (u : σ) :
    inst₂.findTreeOnlyKeyhashSafeGuarded keyhash func u = inst.findTreeOnlyKeyhashSafeGuarded keyhash func u := by
  rw [findTreeOnlyKeyhashSafeGuarded, findTreeOnlyKeyhashSafeGuarded]
  cases getCategoryId keyhash with
  | none => rfl
  | some c => simp only [searchKeyhashGuarded_similar (h c), (h c).rooti, depthBound, (h c).live]

end Search

theorem countTreeSafeGuarded_eq (h : ∀ c, (inst c).Exact) : inst.countTreeSafeGuarded = inst.countTreeSafe := by
  refine foldlM_congr _ _ fun c _ count => ?_
  obtain ⟨n, t, ht, -⟩ := h c
  rw [ht.rooti, countGuarded_eq _ ht.owned]

theorem countTreeSafeGuarded_similar (h : ∀ c, Similar [] (inst c) (inst₂ c)) :
    inst₂.countTreeSafeGuarded = inst.countTreeSafeGuarded := by
  refine foldlM_congr _ _ fun c _ count => ?_
  rw [countGuarded_similar (h c), (h c).rooti, depthBound, depthBound, (h c).live]

/-- The entry is held in the tree of a category. -/
def Held (inst : TreeInstance) (k : NodeKey) : Prop :=
  ∃ (c : Fin categoryCnt) (n : Nat) (t : KeyTree n), (inst c).Holds n t ∧ k ∈ MTree.toList n t

theorem Held.similar (h : ∀ c, Similar [] (inst c) (inst₂ c)) {k : NodeKey} (hk : inst.Held k) : inst₂.Held k := by
  obtain ⟨c, n, t, ht, hk⟩ := hk
  exact ⟨c, n, t, (h c).holds ht, hk⟩

/-- The blocks handed out and not freed are the nodes of the trees, each reached by one path; the run and the calls
after it access live blocks only; and an instance that starts with other contents in its blocks, and gets blocks with
other contents, ends with the same entries and the same answers. -/
theorem run_ownership (inst inst₂ : TreeInstance) (ops : List TreeOp)
    (hempty : ∀ c, (inst c).rooti = default ∧ (inst c).live = ∅) (hblocks : BlocksOnly inst)
    (halloc : inst.run ops ≠ .error .contract) (hsim : ∀ c, Similar [] (inst c) (inst₂ c)) :
    ∃ inst' inst₂', inst.run ops = .ok inst' ∧ inst₂.run ops = .ok inst₂' ∧
      (∀ c, (inst' c).Accounted) ∧ (∀ c, (inst₂' c).Accounted) ∧ (∀ c, (inst₂' c).live = (inst' c).live) ∧
      inst.runGuarded ops = .ok inst' ∧
      (∀ (σ : Type) (itm : NodeKey) (func : NodeKey → σ → Ret × σ) (u : σ),
        inst'.findTreeSafeGuarded itm func u = inst'.findTreeSafe itm func u ∧
          inst₂'.findTreeSafe itm func u = inst'.findTreeSafe itm func u) ∧
      (∀ (σ : Type) (keyhash : BitVec 32) (func : NodeKey → σ → Ret × σ) (u : σ),
        inst'.findTreeOnlyKeyhashSafeGuarded keyhash func u = inst'.findTreeOnlyKeyhashSafe keyhash func u ∧
          inst₂'.findTreeOnlyKeyhashSafe keyhash func u = inst'.findTreeOnlyKeyhashSafe keyhash func u) ∧
      inst'.countTreeSafeGuarded = inst'.countTreeSafe ∧ inst₂'.countTreeSafe = inst'.countTreeSafe ∧
      ∀ k, inst₂'.Held k ↔ inst'.Held k := by
  have hexact : ∀ c, (inst c).Exact := fun c =>
    ⟨0, KeyTree.nil, holds_nil (hempty c).1, (hempty c).2⟩
  have hexact₂ : ∀ c, (inst₂ c).Exact := fun c => (hsim c).exact (hexact c)
  have hblocks₂ : BlocksOnly inst₂ := fun c => (hsim c).blocksOnly (hblocks c)
  obtain ⟨inst', hrun, he, -⟩ : ∃ inst', inst.run ops = .ok inst' ∧ (∀ c, (inst' c).Exact) ∧ BlocksOnly inst' := by
    rcases (run_exact ops hexact hblocks).cases with h | ⟨e, hrun, rfl⟩
    · exact h
    · exact absurd hrun halloc
  have hguarded := (runGuarded_eq ops hexact hblocks).trans hrun
  obtain ⟨inst₂', hguarded₂, hs⟩ := (runGuarded_agree ops hsim).ok hguarded
  have he₂ : ∀ c, (inst₂' c).Exact := fun c => (hs c).exact (he c)
  refine ⟨inst', inst₂', hrun, (runGuarded_eq ops hexact₂ hblocks₂).symm.trans hguarded₂, fun c => (he c).accounted,
    fun c => (he₂ c).accounted, fun c => (hs c).live, hguarded,
    fun σ itm func u => ⟨findTreeSafeGuarded_eq he _ _ _, ?_⟩,
    fun σ keyhash func u => ⟨findTreeOnlyKeyhashSafeGuarded_eq he _ _ _, ?_⟩, countTreeSafeGuarded_eq he, ?_,
      fun k => ?_⟩
  · rw [← findTreeSafeGuarded_eq he, ← findTreeSafeGuarded_eq he₂, findTreeSafeGuarded_similar hs]
  · rw [← findTreeOnlyKeyhashSafeGuarded_eq he, ← findTreeOnlyKeyhashSafeGuarded_eq he₂,
      findTreeOnlyKeyhashSafeGuarded_similar hs]
  · rw [← countTreeSafeGuarded_eq he, ← countTreeSafeGuarded_eq he₂, countTreeSafeGuarded_similar hs]
  · exact ⟨Held.similar fun c => (hs c).symm, Held.similar hs⟩

/-- `threeBlocks` where the blocks hold what is left of a full node. -/
def recycledBlocks : TreeInstance := fun c =>
  let junk : NodeInstance := ⟨4, Vector.replicate _ ⟨0, 1, 168⟩, Vector.replicate _ ⟨4, 1, 9⟩⟩
  { threeBlocks c with
    mem := fun _ => junk
    answers := [.block ⟨0, 1, 168⟩ junk, .block ⟨0, 1, 328⟩ junk, .block ⟨0, 1, 488⟩ junk] }

/-- A root is split, in cleared and in recycled blocks. -/
theorem run_ownership_recycled : ∃ inst' inst₂', threeBlocks.run fiveHits = .ok inst' ∧
    recycledBlocks.run fiveHits = .ok inst₂' ∧ (∀ c, (inst₂' c).Accounted) ∧
    inst₂'.countTreeSafe = inst'.countTreeSafe := by
  have hsim : ∀ c, Similar [] (threeBlocks c) (recycledBlocks c) := fun c =>
    ⟨fun a ha _ => absurd ha (Finset.notMem_empty a), rfl,
      .cons rfl (.cons rfl (.cons rfl .nil)), rfl, rfl, rfl, rfl, rfl, rfl⟩
  obtain ⟨inst', inst₂', hrun, hrun₂, -, haccounted, -, -, -, -, -, hcount, -⟩ :=
    run_ownership threeBlocks recycledBlocks
    fiveHits (fun c => ⟨rfl, rfl⟩) (by simp [BlocksOnly, threeBlocks, ShmAnswer.isBlock]) (fun herr => by
      have hok : (threeBlocks.run fiveHits).isOk = true := by decide +kernel
      rw [herr] at hok
      cases hok) hsim
  exact ⟨inst', inst₂', hrun, hrun₂, haccounted, hcount⟩

end TreeInstance
end NetworkBfd.Smmr
