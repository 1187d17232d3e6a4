import NetworkBfd.Lib.MultiwayTree
import NetworkBfd.Smmr.Tree.Ops

/-!
# Trees in memory

`KeyTree n` is the multiway tree of height `n` over node references and entries. `Rep mem n t` says that the blocks in
`mem` hold `t`; it looks at the blocks of `t` only (`Rep.congr`), so writes elsewhere keep it.

* `Owned`: a state holds a tree in live blocks, each used once, and no tree is deeper than `depthBound`;
* `findPos_eq`: the scan of a node stops at the position of the entry among the node's keys;
* `Owned.zoom`, `Rep.siblings`: a node seen from one of its children.
-/

namespace NetworkBfd.Smmr

open Lib

/-- The trees that node blocks represent. -/
abbrev KeyTree (n : Nat) : Type := MTree NodeInstanceOffset NodeKey n

namespace KeyTree

/-- The tree without nodes. -/
def nil : KeyTree 0 := ()

/-- A node with its children. -/
abbrev node {n : Nat} (ref : NodeInstanceOffset) (keys : List NodeKey) (childs : List (KeyTree n))
    (len : childs.length = keys.length + 1) : KeyTree (n + 1) :=
  MNode.mk ref keys childs len

/-- The reference to a tree: empty for a tree without nodes. -/
def root : (n : Nat) → KeyTree n → NodeInstanceOffset
  | 0, _ => default
  | _ + 1, t => MNode.ref t

/-- The blocks of a tree. -/
def blocks (n : Nat) (t : KeyTree n) : List Nat := (MTree.addrs n t).map NodeInstanceOffset.addr

@[simp] theorem blocks_zero (t : KeyTree 0) : blocks 0 t = [] := rfl

theorem blocks_node {n : Nat} {ref : NodeInstanceOffset} {keys : List NodeKey} {childs : List (KeyTree n)}
    {len : childs.length = keys.length + 1} :
    blocks (n + 1) (node ref keys childs len) = ref.addr :: childs.flatMap (blocks n) := by
  have h : (fun c => (MTree.addrs n c).map NodeInstanceOffset.addr) = blocks n := rfl
  rw [blocks, MTree.addrs, List.map_cons, List.map_flatMap, h]

theorem root_node {n : Nat} {ref : NodeInstanceOffset} {keys : List NodeKey} {childs : List (KeyTree n)}
    {len : childs.length = keys.length + 1} : root (n + 1) (node ref keys childs len) = ref := rfl

/-- A tree of height `n` has at least `n` blocks. -/
theorem le_length_blocks : ∀ {n : Nat} (t : KeyTree n), n ≤ (blocks n t).length
  | 0, _ => by simp
  | n + 1, ⟨ref, keys, childs, len⟩ => by
    obtain ⟨c, cs, rfl⟩ : ∃ c cs, childs = c :: cs := List.exists_cons_of_length_eq_add_one len
    have := le_length_blocks c
    rw [blocks_node]
    simp only [List.flatMap_cons, List.length_cons, List.length_append]
    omega

/-- The blocks of `mem` from `root n t` on hold `t`. -/
def Rep (mem : Nat → NodeInstance) : (n : Nat) → KeyTree n → Prop
  | 0, _ => True
  | n + 1, t => (MNode.ref t).isEmpty = false ∧ (mem (MNode.ref t).addr).keyList = MNode.keys t ∧
      (mem (MNode.ref t).addr).childList = (MNode.childs t).map (root n) ∧ ∀ c ∈ MNode.childs t, Rep mem n c

theorem rep_node {mem : Nat → NodeInstance} {n : Nat} {ref : NodeInstanceOffset} {keys : List NodeKey}
    {childs : List (KeyTree n)} {len : childs.length = keys.length + 1} :
    Rep mem (n + 1) (node ref keys childs len) ↔ ref.isEmpty = false ∧ (mem ref.addr).keyList = keys ∧
      (mem ref.addr).childList = childs.map (root n) ∧ ∀ c ∈ childs, Rep mem n c := Iff.rfl

/-- Only the blocks of the tree matter. -/
theorem Rep.congr {mem mem' : Nat → NodeInstance} : ∀ {n : Nat} {t : KeyTree n}, Rep mem n t →
    (∀ a ∈ blocks n t, mem' a = mem a) → Rep mem' n t
  | 0, _, _, _ => trivial
  | n + 1, ⟨ref, keys, childs, len⟩, ⟨h1, h2, h3, h4⟩, hm => by
    have hm' : ∀ a ∈ ref.addr :: childs.flatMap (blocks n), mem' a = mem a := by
      intro a ha
      exact hm a (by rw [blocks_node]; exact ha)
    refine ⟨h1, ?_, ?_, fun c hc => (h4 c hc).congr fun a ha => hm' a ?_⟩
    · rw [hm' _ (by simp)]; exact h2
    · rw [hm' _ (by simp)]; exact h3
    · simp only [List.mem_cons, List.mem_flatMap]
      exact Or.inr ⟨c, hc, ha⟩

/-- A write to a block of another tree. -/
theorem Rep.update {mem : Nat → NodeInstance} {n : Nat} {t : KeyTree n} {a : Nat} {nd : NodeInstance}
    (h : Rep mem n t) (ha : a ∉ blocks n t) : Rep (Function.update mem a nd) n t :=
  h.congr fun b hb => Function.update_of_ne (fun e : b = a => ha (e ▸ hb)) _ _

theorem Rep.count_eq {mem : Nat → NodeInstance} {n : Nat} {t : KeyTree (n + 1)} (h : Rep mem (n + 1) t) :
    (mem (root (n + 1) t).addr).count = MTree.width (n + 1) t := by
  rw [← NodeInstance.length_keyList]
  exact congrArg List.length h.2.1

/-- An empty reference is the root of trees without nodes only. -/
theorem Rep.isEmpty_root {mem : Nat → NodeInstance} : ∀ {n : Nat} {t : KeyTree n}, Rep mem n t →
    (root n t).isEmpty = decide (n = 0)
  | 0, _, _ => rfl
  | n + 1, _, h => by simpa [root] using h.1

/-! ## A node seen from one of its children -/

section Zoom

variable {n : Nat} {ref : NodeInstanceOffset} {keys : List NodeKey} {cs₁ cs₂ : List (KeyTree n)}
  {c : KeyTree n} {len : (cs₁ ++ c :: cs₂).length = keys.length + 1}

/-- The blocks of a node apart from those of the child `c`. -/
def around (ref : NodeInstanceOffset) (cs₁ cs₂ : List (KeyTree n)) : List Nat :=
  ref.addr :: (cs₁.flatMap (blocks n) ++ cs₂.flatMap (blocks n))

theorem blocks_zoom : (blocks (n + 1) (node ref keys (cs₁ ++ c :: cs₂) len)).Perm
    (around ref cs₁ cs₂ ++ blocks n c) := by
  rw [blocks_node, around, List.flatMap_append, List.flatMap_cons, List.cons_append]
  refine List.Perm.cons _ ?_
  rw [List.append_assoc]
  exact (List.perm_append_comm).append_left _

/-- The child grows by the blocks `new`, whatever takes its place. -/
theorem blocks_replace {own new : List Nat} (h : own.Perm (new ++ blocks n c)) :
    (around ref cs₁ cs₂ ++ own).Perm (new ++ blocks (n + 1) (node ref keys (cs₁ ++ c :: cs₂) len)) := by
  rw [List.perm_iff_count]
  intro a
  have h1 := h.count_eq a
  have h2 : (blocks (n + 1) (node ref keys (cs₁ ++ c :: cs₂) len)).count a = _ := blocks_zoom.count_eq a
  simp only [List.count_append] at h1 h2 ⊢
  omega

/-- Two trees in the place of one child. -/
theorem around_two {l r : KeyTree n} : (ref.addr :: (cs₁ ++ l :: r :: cs₂).flatMap (blocks n)).Perm
    (around ref cs₁ cs₂ ++ (blocks n l ++ blocks n r)) := by
  rw [List.perm_iff_count]
  intro a
  simp only [around, List.flatMap_append, List.flatMap_cons, List.cons_append, List.count_cons, List.count_append]
  omega

/-- The other children keep their place when the blocks around `c` are not written. -/
theorem Rep.siblings {mem mem' : Nat → NodeInstance} (h : Rep mem (n + 1) (node ref keys (cs₁ ++ c :: cs₂) len))
    (hm : ∀ a ∈ around ref cs₁ cs₂, a ≠ ref.addr → mem' a = mem a) (hn : (around ref cs₁ cs₂).Nodup) :
    ∀ d, d ∈ cs₁ ∨ d ∈ cs₂ → Rep mem' n d := by
  intro d hd
  refine ((rep_node.mp h).2.2.2 d (List.mem_append.mpr (hd.imp_right (List.mem_cons_of_mem c)))).congr fun a ha => ?_
  have ha' : a ∈ cs₁.flatMap (blocks n) ++ cs₂.flatMap (blocks n) := by
    simp only [List.mem_append, List.mem_flatMap]
    exact hd.imp (fun hd => ⟨d, hd, ha⟩) fun hd => ⟨d, hd, ha⟩
  refine hm a (List.mem_cons_of_mem _ ha') fun e => ?_
  exact (List.nodup_cons.mp hn).1 (e ▸ ha')

end Zoom

end KeyTree

namespace CategoryTree

open KeyTree

/-- The scan over a node stops at the position among its keys. -/
theorem advance_eq (nd : NodeInstance) (p : NodeKey → Bool) : advance nd p = (nd.keyList.takeWhile p).length := by
  simp [advance, NodeInstance.keyList, List.takeWhile_map, Function.comp_def]

theorem findPos_eq (nd : NodeInstance) (itm : NodeKey) : findPos nd itm = position itm nd.keyList := by
  simp [findPos, advance_eq, position, compareNodeKeyUnsafe_neg]

/-- The blocks of `t` are live, are used once each, and hold `t`. -/
structure Owned (s : CategoryTree) (n : Nat) (t : KeyTree n) : Prop where
  rep : Rep s.mem n t
  nodup : (blocks n t).Nodup
  live : ∀ a ∈ blocks n t, a ∈ s.live

/-- No tree of live blocks is as deep as `depthBound`. -/
theorem Owned.lt_depthBound {s : CategoryTree} {n : Nat} {t : KeyTree n} (h : s.Owned n t) : n < s.depthBound := by
  have h1 : (blocks n t).toFinset ⊆ s.live := fun a ha => h.live a (List.mem_toFinset.mp ha)
  have h2 := Finset.card_le_card h1
  rw [List.toFinset_card_of_nodup h.nodup] at h2
  have h3 := le_length_blocks t
  simp only [depthBound]
  omega

/-- The child is owned, and apart from the rest of the node. -/
theorem Owned.zoom {s : CategoryTree} {n : Nat} {ref : NodeInstanceOffset} {keys : List NodeKey}
    {cs₁ cs₂ : List (KeyTree n)} {c : KeyTree n} {len : (cs₁ ++ c :: cs₂).length = keys.length + 1}
    (h : s.Owned (n + 1) (node ref keys (cs₁ ++ c :: cs₂) len)) :
    s.Owned n c ∧ (∀ a ∈ around ref cs₁ cs₂, a ∈ s.live ∧ a ∉ blocks n c) ∧ (around ref cs₁ cs₂).Nodup := by
  have hn := (blocks_zoom.nodup_iff).mp h.nodup
  obtain ⟨hn1, hn2, hn3⟩ := List.nodup_append.mp hn
  have hlive : ∀ a ∈ around ref cs₁ cs₂ ++ blocks n c, a ∈ s.live := fun a ha =>
    h.live a (blocks_zoom.mem_iff.mpr ha)
  refine ⟨⟨(rep_node.mp h.rep).2.2.2 c (by simp), hn2, fun a ha => hlive a (List.mem_append_right _ ha)⟩, ?_, hn1⟩
  exact fun a ha => ⟨hlive a (List.mem_append_left _ ha), fun hc => hn3 a ha a hc rfl⟩

theorem Owned.child {s : CategoryTree} {n : Nat} {ref : NodeInstanceOffset} {keys : List NodeKey}
    {childs : List (KeyTree n)} {c : KeyTree n} {len : childs.length = keys.length + 1}
    (h : s.Owned (n + 1) (node ref keys childs len)) (hc : c ∈ childs) : s.Owned n c := by
  obtain ⟨cs₁, cs₂, rfl⟩ := List.append_of_mem hc
  exact h.zoom.1

/-- The category holds `t`, a B-tree in order. -/
structure Holds (s : CategoryTree) (n : Nat) (t : KeyTree n) : Prop where
  owned : s.Owned n t
  bounded : ∀ a ∈ blocks n t, a < pageCnt * pageSize
  rooti : s.rooti = root n t
  filled : MTree.Filled treeNodemin treeNodecount 1 n t
  increasing : Increasing (MTree.toList n t)

/-- An empty root holds the tree without nodes. -/
theorem holds_nil {s : CategoryTree} (h : s.rooti = default) : s.Holds 0 KeyTree.nil :=
  ⟨⟨trivial, List.nodup_nil, by simp⟩, by simp, h, trivial, List.Pairwise.nil⟩

end CategoryTree
end NetworkBfd.Smmr
