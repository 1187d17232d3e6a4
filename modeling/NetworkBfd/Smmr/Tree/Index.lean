import Mathlib.Algebra.BigOperators.Intervals
import NetworkBfd.Smmr.Tree.Find
import NetworkBfd.Smmr.Tree.Insert
import NetworkBfd.Smmr.Tree.Remove

/-!
# The index as a set of entries

`TreeInstance.Indexes inst S`: the tree of each category is a B-tree in order, and together they hold the entries `S`.
The safe operations on `inst` are then the set operations on `S` (`addTreeSafe_spec`, `removeTreeSafe_spec`), and the
searches and the count read `S` (`findTreeSafe_spec`, `findTreeOnlyKeyhashSafe_spec`, `countTreeSafe_spec`). From the
steps follows the run: `run_indexes`.
-/

namespace NetworkBfd.Smmr

open Lib KeyTree CategoryTree

namespace TreeInstance

/-- The trees hold exactly the entries `S`, each in the category of its hash. -/
def Indexes (inst : TreeInstance) (S : Finset NodeKey) : Prop :=
  ∀ c : Fin categoryCnt, ∃ (n : Nat) (t : KeyTree n), (inst c).Holds n t ∧
    ∀ k, k ∈ MTree.toList n t ↔ k ∈ S ∧ k.keyhash.toNat % categoryCnt = c

/-- No allocation fails. -/
def BlocksOnly (inst : TreeInstance) : Prop := ∀ c, ∀ q ∈ (inst c).answers, q.isBlock = true

theorem indexes_empty {inst : TreeInstance} (h : ∀ c, (inst c).rooti = default) : Indexes inst ∅ := fun c =>
  ⟨0, KeyTree.nil, holds_nil (h c), by simp [MTree.toList]⟩

variable {inst : TreeInstance} {S : Finset NodeKey}

theorem getCategoryId_of_ne {h : BitVec 32} (hh : h ≠ 0) :
    ∃ c : Fin categoryCnt, getCategoryId h = some c ∧ h.toNat % categoryCnt = c :=
  ⟨_, if_neg hh, rfl⟩

/-- The entries of the tree of a category. -/
theorem Indexes.mem_holds (h : Indexes inst S) {c : Fin categoryCnt} {n : Nat} {t : KeyTree n} (ht : (inst c).Holds n t)
    (k : NodeKey) : k ∈ MTree.toList n t ↔ k ∈ S ∧ k.keyhash.toNat % categoryCnt = c := by
  obtain ⟨m, t', ht', hm⟩ := h c
  rw [ht.mem_iff ht', hm k]

/-- Trees hold one set of entries. -/
theorem Indexes.unique {S' : Finset NodeKey} (h : Indexes inst S) (h' : Indexes inst S') : S = S' := by
  ext k
  obtain ⟨n, t, ht, hm⟩ := h ⟨k.keyhash.toNat % categoryCnt, Nat.mod_lt _ (by decide)⟩
  have hiff := (hm k).symm.trans (h'.mem_holds ht k)
  rwa [and_iff_left rfl, and_iff_left rfl] at hiff

/-- A change of one category. -/
theorem Indexes.update (h : Indexes inst S) {c : Fin categoryCnt} {s : CategoryTree} {S' : Finset NodeKey} {n : Nat}
    {t : KeyTree n} (hs : s.Holds n t)
    (hc : ∀ k, k ∈ MTree.toList n t ↔ k ∈ S' ∧ k.keyhash.toNat % categoryCnt = c)
    (hne : ∀ k, k.keyhash.toNat % categoryCnt ≠ c → (k ∈ S' ↔ k ∈ S)) : Indexes (Function.update inst c s) S' := by
  intro d
  rcases eq_or_ne d c with rfl | hd
  · rw [Function.update_self]
    exact ⟨n, t, hs, hc⟩
  · obtain ⟨m, t', ht', hm⟩ := h d
    rw [Function.update_of_ne hd]
    refine ⟨m, t', ht', fun k => ?_⟩
    rw [hm k]
    refine and_congr_left fun hk => (hne k ?_).symm
    rw [hk]
    exact fun e => hd (Fin.ext e)

theorem BlocksOnly.update (hb : BlocksOnly inst) {c : Fin categoryCnt} {s : CategoryTree}
    (hs : ∀ q ∈ s.answers, q ∈ (inst c).answers) : BlocksOnly (Function.update inst c s) := by
  intro d q hq
  rcases eq_or_ne d c with rfl | hd
  · rw [Function.update_self] at hq
    exact hb d q (hs q hq)
  · rw [Function.update_of_ne hd] at hq
    exact hb d q hq

theorem addTreeSafe_spec (h : Indexes inst S) (hb : BlocksOnly inst) {itm : NodeKey} (hitm : itm.keyhash ≠ 0) :
    Yields Contract (inst.addTreeSafe itm) fun r => r.1 = .ok ∧ Indexes r.2 (insert itm S) ∧ BlocksOnly r.2 := by
  obtain ⟨c, hc, hmod⟩ := getCategoryId_of_ne hitm
  obtain ⟨n, t, ht, hm⟩ := h c
  rw [addTreeSafe, hc]
  refine (addTree_spec ht (hb c) itm).bind ?_
  rintro s ⟨n', t', ht', hadds, hans, -⟩
  refine ⟨rfl, h.update ht' (fun k => ?_) fun k hk => ?_, hb.update hans⟩
  · rw [hadds.2 k, hm k, Finset.mem_insert]
    refine ⟨?_, fun ⟨hk, hkc⟩ => hk.imp_right fun hk => ⟨hk, hkc⟩⟩
    rintro (rfl | ⟨hk, hkc⟩)
    · exact ⟨Or.inl rfl, hmod⟩
    · exact ⟨Or.inr hk, hkc⟩
  · rw [Finset.mem_insert]
    refine ⟨fun h => h.resolve_left ?_, Or.inr⟩
    rintro rfl
    exact hk hmod

theorem removeTreeSafe_spec (h : Indexes inst S) (hb : BlocksOnly inst) {itm : NodeKey} (hitm : itm.keyhash ≠ 0) :
    ∃ inst', inst.removeTreeSafe itm = .ok (.ok, inst') ∧ Indexes inst' (S.erase itm) ∧ BlocksOnly inst' := by
  obtain ⟨c, hc, hmod⟩ := getCategoryId_of_ne hitm
  obtain ⟨n, t, ht, hm⟩ := h c
  obtain ⟨s, hs, hans, n', t', ht', hl, -⟩ := removeTree_spec ht itm
  refine ⟨Function.update inst c s, ?_, h.update ht' (fun k => ?_) fun k hk => ?_, hb.update fun q hq => hans ▸ hq⟩
  · rw [removeTreeSafe, hc]
    simp only [hs]
    rfl
  · rw [hl, List.mem_filter, hm k, Finset.mem_erase, decide_eq_true_eq]
    tauto
  · rw [Finset.mem_erase]
    refine ⟨And.right, fun h => ⟨?_, h⟩⟩
    rintro rfl
    exact hk hmod

section Search

variable {σ : Type}

/-- `find_tree_safe` makes its callback on its entry, exactly if it is held. -/
theorem findTreeSafe_spec (h : Indexes inst S) {itm : NodeKey} (hitm : itm.keyhash ≠ 0) (func : NodeKey → σ → Ret × σ)
    (u : σ) : inst.findTreeSafe itm func u = .ok (if itm ∈ S then func itm u else (.ng, u)) := by
  obtain ⟨c, hc, hmod⟩ := getCategoryId_of_ne hitm
  obtain ⟨n, t, ht, hm⟩ := h c
  rw [findTreeSafe, hc]
  simp only [ht.rooti]
  rw [searchItemRecurcive_spec itm func u ht.owned.lt_depthBound ht.owned.rep ht.increasing]
  simp only [hm, hmod, and_true]

/-- `find_tree_only_keyhash_safe` visits the entries that are held with its hash. -/
theorem findTreeOnlyKeyhashSafe_spec (h : Indexes inst S) {keyhash : BitVec 32} (hh : keyhash ≠ 0)
    (func : NodeKey → σ → Ret × σ) (u : σ) :
    ∃ r u' L, inst.findTreeOnlyKeyhashSafe keyhash func u = .ok (r, u') ∧ VisitsKeys func L u u' ∧ L.Nodup ∧
      ∀ k, k ∈ L ↔ k ∈ S ∧ k.keyhash = keyhash := by
  obtain ⟨c, hc, hmod⟩ := getCategoryId_of_ne hh
  obtain ⟨n, t, ht, hm⟩ := h c
  obtain ⟨r, u', hrun, hv⟩ := searchItemOnlyKeyhashRecurcive_spec keyhash func (inst c).depthBound u
    ht.owned.lt_depthBound ht.owned.rep ht.increasing
  refine ⟨r, u', _, ?_, hv, ht.increasing.nodup.filter _, fun k => ?_⟩
  · rw [findTreeOnlyKeyhashSafe, hc]
    simp only [ht.rooti]
    exact hrun
  · rw [mem_hits, hm k]
    refine ⟨fun ⟨⟨hk, _⟩, he⟩ => ⟨hk, he⟩, ?_⟩
    rintro ⟨hk, rfl⟩
    exact ⟨⟨hk, hmod⟩, rfl⟩

end Search

/-! ## The count -/

/-- The number of entries of one category. -/
theorem length_toList_eq (h : Indexes inst S) (c : Fin categoryCnt) : ∃ (n : Nat) (t : KeyTree n), (inst c).Holds n t ∧
    (MTree.toList n t).length = (S.filter fun k => k.keyhash.toNat % categoryCnt = c).card := by
  obtain ⟨n, t, ht, hm⟩ := h c
  refine ⟨n, t, ht, ?_⟩
  rw [← List.toFinset_card_of_nodup ht.increasing.nodup]
  congr 1
  ext k
  rw [List.mem_toFinset, hm k, Finset.mem_filter]

/-- A category has room for `2 ^ 27` blocks at most. -/
theorem length_toList_le {s : CategoryTree} {n : Nat} {t : KeyTree n} (h : s.Holds n t) :
    (MTree.toList n t).length ≤ 2 ^ 29 := by
  have h1 := MTree.length_toList_le h.filled
  have h2 : (blocks n t).toFinset ⊆ Finset.range (pageCnt * pageSize) := fun a ha =>
    Finset.mem_range.mpr (h.bounded a (List.mem_toFinset.mp ha))
  have h3 := Finset.card_le_card h2
  rw [List.toFinset_card_of_nodup h.owned.nodup, Finset.card_range] at h3
  simp only [blocks, List.length_map, pageCnt, pageSize, treeNodecount] at h1 h3
  omega

/-- `count_tree_safe` is the number of entries that are held, which fits its type. -/
theorem countTreeSafe_spec (h : Indexes inst S) :
    inst.countTreeSafe = .ok (BitVec.ofNat 32 S.card) ∧ S.card < 2 ^ 32 := by
  have hsum : S.card = ∑ c ∈ Finset.range categoryCnt, (S.filter fun k => k.keyhash.toNat % categoryCnt = c).card :=
    Finset.card_eq_sum_card_fiberwise fun k _ => by simpa using Nat.mod_lt _ (by decide)
  have hcount : ∀ c, ∃ m, (inst c).countNodeRecursiveUnsafe (inst c).depthBound (inst c).rooti =
      .ok (BitVec.ofNat 32 m) ∧ m ≤ 2 ^ 29 ∧ m = (S.filter fun k => k.keyhash.toNat % categoryCnt = c).card := by
    intro c
    obtain ⟨n, t, ht, hl⟩ := length_toList_eq h c
    refine ⟨_, ?_, length_toList_le ht, hl⟩
    rw [ht.rooti, countNodeRecursiveUnsafe_spec _ ht.owned.lt_depthBound ht.owned.rep]
  obtain ⟨m₀, h₀, hle₀, hm₀⟩ := hcount 0
  obtain ⟨m₁, h₁, hle₁, hm₁⟩ := hcount 1
  obtain ⟨m₂, h₂, hle₂, hm₂⟩ := hcount 2
  obtain ⟨m₃, h₃, hle₃, hm₃⟩ := hcount 3
  have hcard : S.card = m₀ + m₁ + m₂ + m₃ := by
    rw [hsum, show Finset.range categoryCnt = Finset.range 4 from rfl, hm₀, hm₁, hm₂, hm₃]
    simp only [Finset.sum_range_succ, Finset.sum_range_zero, Nat.zero_add]
    rfl
  refine ⟨?_, by omega⟩
  have hrange : List.finRange categoryCnt = [0, 1, 2, 3] := rfl
  simp only [countTreeSafe, hrange, List.foldlM_cons, List.foldlM_nil, h₀, h₁, h₂, h₃, bind, Except.bind]
  rw [hcard]
  simp [BitVec.ofNat_add]
  rfl

/-! ## Runs -/

end TreeInstance

/-- A call that changes the trees. -/
inductive TreeOp
  | add (itm : NodeKey)
  | remove (itm : NodeKey)

def TreeOp.item : TreeOp → NodeKey
  | .add itm => itm
  | .remove itm => itm

/-- What the call does to a set of entries. -/
def TreeOp.onSet : TreeOp → Finset NodeKey → Finset NodeKey
  | .add itm, S => insert itm S
  | .remove itm, S => S.erase itm

namespace TreeInstance

def step (inst : TreeInstance) : TreeOp → Except Fault (Ret × TreeInstance)
  | .add itm => inst.addTreeSafe itm
  | .remove itm => inst.removeTreeSafe itm

def run : TreeInstance → List TreeOp → Except Fault TreeInstance
  | inst, [] => .ok inst
  | inst, op :: ops => do
    let (_, inst) ← inst.step op
    run inst ops

/-- The entries left by set insertion and deletion. -/
def reference (ops : List TreeOp) : Finset NodeKey := ops.foldl (fun S op => op.onSet S) ∅

variable {inst : TreeInstance} {S : Finset NodeKey}

theorem step_indexes (h : Indexes inst S) (hb : BlocksOnly inst) {op : TreeOp} (hop : op.item.keyhash ≠ 0) :
    Yields Contract (inst.step op) fun r => Indexes r.2 (op.onSet S) ∧ BlocksOnly r.2 := by
  cases op with
  | add itm => exact (addTreeSafe_spec h hb hop).mono fun _ hr => hr.2
  | remove itm =>
    obtain ⟨inst', hrun, h', hb'⟩ := removeTreeSafe_spec h hb (show itm.keyhash ≠ 0 from hop)
    rw [step, hrun]
    exact ⟨h', hb'⟩

theorem run_indexes : ∀ {ops : List TreeOp} {inst : TreeInstance} {S : Finset NodeKey}, Indexes inst S →
    BlocksOnly inst → (∀ op ∈ ops, op.item.keyhash ≠ 0) →
    Yields Contract (inst.run ops) fun inst' => Indexes inst' (ops.foldl (fun S op => op.onSet S) S)
  | [], _, _, h, _, _ => h
  | op :: _, _, _, h, hb, hops => by
    refine (step_indexes h hb (hops op (by simp))).bind fun r hr => ?_
    exact run_indexes hr.1 hr.2 fun op hop => hops op (by simp [hop])

theorem keyhash_ne_of_mem_foldl : ∀ {ops : List TreeOp} {S : Finset NodeKey}, (∀ op ∈ ops, op.item.keyhash ≠ 0) →
    (∀ k ∈ S, k.keyhash ≠ 0) → ∀ k ∈ ops.foldl (fun S op => op.onSet S) S, k.keyhash ≠ 0
  | [], _, _, hS, k, hk => hS k hk
  | op :: ops, S, hops, hS, k, hk => by
    refine @keyhash_ne_of_mem_foldl ops (op.onSet S) (fun op hop => hops op (by simp [hop])) (fun x hx => ?_) k hk
    cases op with
    | add itm =>
      rcases Finset.mem_insert.mp hx with rfl | hx
      · exact hops (.add x) (by simp)
      · exact hS x hx
    | remove itm => exact hS x (Finset.mem_of_mem_erase hx)

/-- Whatever is added and removed, the trees are B-trees in order that hold the reference set, and search and count
agree with it. -/
theorem run_btrees (inst : TreeInstance) (ops : List TreeOp) (hempty : ∀ c, (inst c).rooti = default)
    (hblocks : BlocksOnly inst) (halloc : inst.run ops ≠ .error .contract)
    (hhash : ∀ op ∈ ops, op.item.keyhash ≠ 0) :
    ∃ inst', inst.run ops = .ok inst' ∧
      (∀ c : Fin categoryCnt, ∃ (n : Nat) (t : KeyTree n), (inst' c).Holds n t ∧
        ∀ k, k ∈ MTree.toList n t ↔ k ∈ reference ops ∧ k.keyhash.toNat % categoryCnt = c) ∧
      (∀ (σ : Type) (itm : NodeKey) (func : NodeKey → σ → Ret × σ) (u : σ),
        inst'.findTreeSafe itm func u = .ok (if itm ∈ reference ops then func itm u else (.ng, u))) ∧
      inst'.countTreeSafe = .ok (BitVec.ofNat 32 (reference ops).card) ∧ (reference ops).card < 2 ^ 32 := by
  rcases (run_indexes (indexes_empty hempty) hblocks hhash).cases with ⟨inst', hrun, h⟩ | ⟨e, hrun, rfl⟩
  · refine ⟨inst', hrun, h, fun σ itm func u => ?_, countTreeSafe_spec h⟩
    by_cases hitm : itm.keyhash = 0
    · have hmem : itm ∉ reference ops := fun hmem => keyhash_ne_of_mem_foldl hhash (by simp) itm hmem hitm
      rw [if_neg hmem, findTreeSafe, hitm]
      rfl
    · exact findTreeSafe_spec h hitm func u
  · exact absurd hrun halloc

/-- Trees without nodes, with three blocks each to come. -/
def threeBlocks : TreeInstance := fun _ =>
  ⟨fun _ => default, ∅, [.block ⟨0, 1, 168⟩ default, .block ⟨0, 1, 328⟩ default, .block ⟨0, 1, 488⟩ default], default,
    default, default, false, false, false⟩

/-- Five entries with one hash. -/
def fiveHits : List TreeOp := [.add ⟨4, 1, 1⟩, .add ⟨4, 1, 2⟩, .add ⟨4, 1, 3⟩, .add ⟨4, 1, 4⟩, .add ⟨4, 1, 5⟩]

/-- The fifth entry splits the root, and the nodes are combined again when two entries are removed. -/
theorem run_btrees_combined : ∃ inst',
    threeBlocks.run (fiveHits ++ [.remove ⟨4, 1, 3⟩, .remove ⟨4, 1, 6⟩, .remove ⟨4, 1, 4⟩]) = .ok inst' ∧
      (∃ (n : Nat) (t : KeyTree n), (inst' 0).Holds n t ∧ ∀ k, k ∈ MTree.toList n t ↔
        k ∈ ({⟨4, 1, 1⟩, ⟨4, 1, 2⟩, ⟨4, 1, 5⟩} : Finset NodeKey) ∧ k.keyhash.toNat % categoryCnt = 0) ∧
      inst'.findTreeSafe ⟨4, 1, 5⟩ (fun k _ => (.ok, some k)) none = .ok (.ok, some ⟨4, 1, 5⟩) ∧
      inst'.findTreeSafe ⟨4, 1, 3⟩ (fun k _ => (.ok, some k)) none = .ok (.ng, none) ∧
      inst'.countTreeSafe = .ok 3 := by
  obtain ⟨inst', hrun, htrees, hfind, hcount, -⟩ := run_btrees threeBlocks
    (fiveHits ++ [.remove ⟨4, 1, 3⟩, .remove ⟨4, 1, 6⟩, .remove ⟨4, 1, 4⟩]) (fun _ => rfl)
    (by simp [BlocksOnly, threeBlocks, ShmAnswer.isBlock]) (fun herr => by
      have hok : (threeBlocks.run (fiveHits ++
        [.remove ⟨4, 1, 3⟩, .remove ⟨4, 1, 6⟩, .remove ⟨4, 1, 4⟩])).isOk = true := by decide +kernel
      rw [herr] at hok
      cases hok) (by simp [fiveHits, TreeOp.item])
  have hreference : reference (fiveHits ++ [.remove ⟨4, 1, 3⟩, .remove ⟨4, 1, 6⟩, .remove ⟨4, 1, 4⟩]) =
    {⟨4, 1, 1⟩, ⟨4, 1, 2⟩, ⟨4, 1, 5⟩} := by decide +kernel
  rw [hreference] at hcount htrees hfind
  refine ⟨inst', hrun, htrees 0, ?_, ?_, hcount⟩
  · rw [hfind, if_pos (by decide)]
  · rw [hfind, if_neg (by decide)]

end TreeInstance
end NetworkBfd.Smmr
