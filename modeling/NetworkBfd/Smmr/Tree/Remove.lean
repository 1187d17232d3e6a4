import NetworkBfd.Lib.Yields
import NetworkBfd.Smmr.Tree.Rep

/-!
# Removal

Two neighbours with a separator can pass a key over it (`removeItemMoveright_spec`, `removeItemMoveleft_spec`) or
merge (`removeItemCombine_spec`). `removeItemRestore_spec` chooses among the three when a child is left with one key,
and `removeItemRecursive_spec` carries the `undersize` flag up the path. None of them moves a key in the order, so what
is removed is read off the entry that was found, or its successor.
-/

namespace NetworkBfd.Smmr

open Lib KeyTree

namespace CategoryTree

/-- `t` was turned into `t'` in its own blocks, of which `freed` were given back. -/
structure Rearranged (s s' : CategoryTree) (n : Nat) (t t' : KeyTree n) (freed : List Nat) : Prop where
  rep : Rep s'.mem n t'
  root_eq : root n t' = root n t
  perm : (freed ++ blocks n t').Perm (blocks n t)
  live : s'.live = s.live \ freed.toFinset
  frame : ∀ a, a ∉ blocks n t → s'.mem a = s.mem a
  answers : s'.answers = s.answers
  rooti : s'.rooti = s.rooti

theorem Rearranged.owned {s s' : CategoryTree} {n : Nat} {t t' : KeyTree n} {freed : List Nat}
    (h : Rearranged s s' n t t' freed) (ho : s.Owned n t) : s'.Owned n t' := by
  have hn := h.perm.nodup_iff.mpr ho.nodup
  refine ⟨h.rep, (List.nodup_append.mp hn).2.1, fun a ha => ?_⟩
  rw [h.live, Finset.mem_sdiff, List.mem_toFinset]
  exact ⟨ho.live a (h.perm.mem_iff.mp (List.mem_append_right _ ha)),
    fun hf => (List.nodup_append.mp hn).2.2 a hf a ha rfl⟩

theorem Rearranged.trans {s s' s'' : CategoryTree} {n : Nat} {t t' t'' : KeyTree n} {freed freed' : List Nat}
    (h : Rearranged s s' n t t' freed) (h' : Rearranged s' s'' n t' t'' freed') :
    Rearranged s s'' n t t'' (freed ++ freed') where
  rep := h'.rep
  root_eq := h'.root_eq.trans h.root_eq
  perm := by
    rw [List.append_assoc]
    exact (h'.perm.append_left freed).trans h.perm
  live := by
    rw [h'.live, h.live, List.toFinset_append, sdiff_sdiff_left]
    rfl
  frame := fun a ha => by
    rw [h'.frame a fun h1 => ha (h.perm.mem_iff.mp (List.mem_append_right _ h1)), h.frame a ha]
  answers := h'.answers.trans h.answers
  rooti := h'.rooti.trans h.rooti

/-! ## Two neighbours -/

section Pair

variable {s : CategoryTree} {n : Nat} {ref refl refr : NodeInstanceOffset} {ks₁ ks₂ kl kr : List NodeKey}
  {k a : NodeKey} {cs₁ cs₂ : List (KeyTree (n + 1))} {cl cr : List (KeyTree n)} {d : KeyTree n}

/-- A node with two neighbouring children that are nodes themselves. -/
abbrev pairNode (ref : NodeInstanceOffset) (ks₁ ks₂ : List NodeKey) (k : NodeKey) (cs₁ cs₂ : List (KeyTree (n + 1)))
    (l r : KeyTree (n + 1)) (len : cs₁.length = ks₁.length ∧ cs₂.length = ks₂.length) : KeyTree (n + 2) :=
  node ref (ks₁ ++ k :: ks₂) (cs₁ ++ l :: r :: cs₂) (by simp [len.1, len.2]; omega)

variable {len : cs₁.length = ks₁.length ∧ cs₂.length = ks₂.length} {ll : cl.length = kl.length + 1}
  {lr : cr.length = kr.length + 1}

/-- The three blocks are apart, and writes to them keep all other children. -/
theorem pair_apart
    (ho : s.Owned (n + 2) (pairNode ref ks₁ ks₂ k cs₁ cs₂ (node refl kl cl ll) (node refr kr cr lr) len)) :
    refl.addr ≠ ref.addr ∧ refr.addr ≠ ref.addr ∧ refr.addr ≠ refl.addr ∧
      ∀ mem' : Nat → NodeInstance, (∀ a, a ≠ ref.addr → a ≠ refl.addr → a ≠ refr.addr → mem' a = s.mem a) →
        (∀ d, d ∈ cs₁ ∨ d ∈ cs₂ → Rep mem' (n + 1) d) ∧ ∀ d, d ∈ cl ∨ d ∈ cr → Rep mem' n d := by
  have hn := ho.nodup
  obtain ⟨-, -, -, hc⟩ := rep_node.mp ho.rep
  obtain ⟨-, -, -, hcl⟩ := rep_node.mp (hc (node refl kl cl ll) (by simp))
  obtain ⟨-, -, -, hcr⟩ := rep_node.mp (hc (node refr kr cr lr) (by simp))
  have hp : (blocks (n + 2) (pairNode ref ks₁ ks₂ k cs₁ cs₂ (node refl kl cl ll) (node refr kr cr lr) len)).Perm
      (ref.addr :: refl.addr :: refr.addr ::
        ((cs₁ ++ cs₂).flatMap (blocks (n + 1)) ++ (cl ++ cr).flatMap (blocks n))) := by
    rw [List.perm_iff_count]
    intro a
    simp only [blocks_node, List.flatMap_append, List.flatMap_cons, List.cons_append, List.count_cons,
      List.count_append]
    omega
  have hn' := hp.nodup_iff.mp hn
  simp only [List.nodup_cons, List.mem_cons, not_or] at hn'
  obtain ⟨⟨h1, h2, h3⟩, ⟨h4, h5⟩, h6, -⟩ := hn'
  refine ⟨fun e => h1 e.symm, fun e => h2 e.symm, fun e => h4 e.symm, fun mem' hm => ⟨fun d hd => ?_, fun d hd => ?_⟩⟩
  · have hsub : ∀ a ∈ blocks (n + 1) d, a ∈ (cs₁ ++ cs₂).flatMap (blocks (n + 1)) ++ (cl ++ cr).flatMap (blocks n) :=
      fun a ha => List.mem_append_left _ (List.mem_flatMap.mpr ⟨d, List.mem_append.mpr hd, ha⟩)
    have hd' : d ∈ cs₁ ++ node refl kl cl ll :: node refr kr cr lr :: cs₂ := by
      simp only [List.mem_append, List.mem_cons]
      exact hd.imp_right fun h => Or.inr (Or.inr h)
    refine (hc d hd').congr fun a ha => hm a ?_ ?_ ?_ <;> rintro rfl
    exacts [h3 (hsub _ ha), h5 (hsub _ ha), h6 (hsub _ ha)]
  · have hsub : ∀ a ∈ blocks n d, a ∈ (cs₁ ++ cs₂).flatMap (blocks (n + 1)) ++ (cl ++ cr).flatMap (blocks n) :=
      fun a ha => List.mem_append_right _ (List.mem_flatMap.mpr ⟨d, List.mem_append.mpr hd, ha⟩)
    refine (hd.elim (hcl d) (hcr d)).congr fun a ha => hm a ?_ ?_ ?_ <;> rintro rfl
    exacts [h3 (hsub _ ha), h5 (hsub _ ha), h6 (hsub _ ha)]

/-- What is read of a node with two neighbouring children. -/
theorem pair_read
    (ho : s.Owned (n + 2) (pairNode ref ks₁ ks₂ k cs₁ cs₂ (node refl kl cl ll) (node refr kr cr lr) len)) :
    (s.mem ref.addr).child ks₁.length = refl ∧ (s.mem ref.addr).child (ks₁.length + 1) = refr ∧
      (s.mem ref.addr).key ks₁.length = k ∧ (s.mem ref.addr).count = ks₁.length + ks₂.length + 1 := by
  obtain ⟨-, hk, hc, -⟩ := rep_node.mp ho.rep
  refine ⟨?_, ?_, ?_, ?_⟩
  · rw [NodeInstance.child_eq hc (by simp [len.1])]
    simp [len.1, root]
  · rw [NodeInstance.child_eq hc (by simp [len.1])]
    simp [len.1, root, List.getElem_append_right]
  · rw [NodeInstance.key_eq hk (by simp)]
    simp
  · rw [← NodeInstance.length_keyList, hk]
    simp
    omega

/-- The two neighbours after keys and children moved between them, with the separator `k'`. -/
theorem rep_pairNode {mem' : Nat → NodeInstance} {k' : NodeKey} {kl' kr' : List NodeKey} {cl' cr' : List (KeyTree n)}
    {ll' : cl'.length = kl'.length + 1} {lr' : cr'.length = kr'.length + 1}
    (ho : s.Owned (n + 2) (pairNode ref ks₁ ks₂ k cs₁ cs₂ (node refl kl cl ll) (node refr kr cr lr) len))
    (hm : ∀ a, a ≠ ref.addr → a ≠ refl.addr → a ≠ refr.addr → mem' a = s.mem a)
    (hk : (mem' ref.addr).keyList = ks₁ ++ k' :: ks₂) (hc : (mem' ref.addr).childList = (s.mem ref.addr).childList)
    (hkl : (mem' refl.addr).keyList = kl') (hcl : (mem' refl.addr).childList = cl'.map (root n))
    (hkr : (mem' refr.addr).keyList = kr') (hcr : (mem' refr.addr).childList = cr'.map (root n))
    (hsame : cl' ++ cr' = cl ++ cr) :
    Rep mem' (n + 2) (pairNode ref ks₁ ks₂ k' cs₁ cs₂ (node refl kl' cl' ll') (node refr kr' cr' lr') len) := by
  obtain ⟨-, -, -, hkeep⟩ := pair_apart ho
  obtain ⟨hk₁, hk₂⟩ := hkeep mem' hm
  obtain ⟨hne, -, hcs, hch⟩ := rep_node.mp ho.rep
  have hnel := (rep_node.mp (hch (node refl kl cl ll) (by simp))).1
  have hner := (rep_node.mp (hch (node refr kr cr lr) (by simp))).1
  have hbelow : ∀ d ∈ cl' ++ cr', Rep mem' n d := fun d hd => hk₂ d (List.mem_append.mp (hsame ▸ hd))
  refine rep_node.mpr ⟨hne, hk, ?_, ?_⟩
  · rw [hc, hcs]
    simp [root]
  · intro c hcm
    simp only [List.mem_append, List.mem_cons] at hcm
    rcases hcm with hcm | rfl | rfl | hcm
    · exact hk₁ c (Or.inl hcm)
    · exact rep_node.mpr ⟨hnel, hkl, hcl, fun d hd => hbelow d (List.mem_append_left cr' hd)⟩
    · exact rep_node.mpr ⟨hner, hkr, hcr, fun d hd => hbelow d (List.mem_append_right cl' hd)⟩
    · exact hk₁ c (Or.inr hcm)

/-- A key moves over the separator to the right neighbour. -/
theorem removeItemMoveright_spec {ll : (cl ++ [d]).length = (kl ++ [a]).length + 1}
    (ho : s.Owned (n + 2)
      (pairNode ref ks₁ ks₂ k cs₁ cs₂ (node refl (kl ++ [a]) (cl ++ [d]) ll) (node refr kr cr lr) len))
    (hc : (ks₁ ++ k :: ks₂).length ≤ 4) (hr : kr.length < 4) :
    Rearranged s (s.removeItemMoveright ref (ks₁.length + 1)) (n + 2)
      (pairNode ref ks₁ ks₂ k cs₁ cs₂ (node refl (kl ++ [a]) (cl ++ [d]) ll) (node refr kr cr lr) len)
      (pairNode ref ks₁ ks₂ a cs₁ cs₂ (node refl kl cl (by simpa using ll))
        (node refr (k :: kr) (d :: cr) (by simpa using lr)) len) [] := by
  obtain ⟨hlref, hrref, hrl, -⟩ := pair_apart ho
  obtain ⟨hchl, hchr, hkey, hcount⟩ := pair_read ho
  obtain ⟨-, hk, -, hch⟩ := rep_node.mp ho.rep
  obtain ⟨-, hkl, hcl, -⟩ := rep_node.mp (hch (node refl (kl ++ [a]) (cl ++ [d]) ll) (by simp))
  obtain ⟨-, hkr, hcr, -⟩ := rep_node.mp (hch (node refr kr cr lr) (by simp))
  have hcountl : (s.mem refl.addr).count = kl.length + 1 := by rw [← NodeInstance.length_keyList, hkl]; simp
  have hcountr : (s.mem refr.addr).count = kr.length := by rw [← NodeInstance.length_keyList, hkr]
  have hlast : (s.mem refl.addr).child (s.mem refl.addr).count = root n d := by
    rw [hcountl, NodeInstance.child_eq hcl (by simp at ll ⊢; omega)]
    simp only [List.length_append, List.length_singleton] at ll
    simp [show kl.length + 1 = cl.length by omega]
  have hlastk : (s.mem refl.addr).key ((s.mem refl.addr).count - 1) = a := by
    rw [hcountl, NodeInstance.key_eq hkl (by simp)]
    simp
  have hmem : (s.removeItemMoveright ref (ks₁.length + 1)).mem = Function.update (Function.update
      (Function.update s.mem refr.addr ((s.mem refr.addr).pushFront k (root n d)))
      ref.addr ((s.mem ref.addr).setKey ks₁.length a)) refl.addr (s.mem refl.addr).dropBack := by
    simp only [removeItemMoveright, refnode, modify, Nat.add_sub_cancel, hchl, hchr, hkey, hlast, hlastk]
    simp [Function.update_of_ne, hlref, hrref.symm, hrl.symm]
  have hm : ∀ b, b ≠ ref.addr → b ≠ refl.addr → b ≠ refr.addr →
      (s.removeItemMoveright ref (ks₁.length + 1)).mem b = s.mem b := fun b h1 h2 h3 => by
    rw [hmem, Function.update_of_ne h2, Function.update_of_ne h1, Function.update_of_ne h3]
  have hm1 : (s.removeItemMoveright ref (ks₁.length + 1)).mem ref.addr = (s.mem ref.addr).setKey ks₁.length a := by
    rw [hmem, Function.update_of_ne hlref.symm, Function.update_self]
  have hm2 : (s.removeItemMoveright ref (ks₁.length + 1)).mem refl.addr = (s.mem refl.addr).dropBack := by
    rw [hmem, Function.update_self]
  have hm3 : (s.removeItemMoveright ref (ks₁.length + 1)).mem refr.addr =
      (s.mem refr.addr).pushFront k (root n d) := by
    rw [hmem, Function.update_of_ne hrl, Function.update_of_ne hrref, Function.update_self]
  refine ⟨rep_pairNode ho hm ?_ ?_ ?_ ?_ ?_ ?_ ?_, rfl, ?_, by simp [removeItemMoveright, modify], ?_, rfl, rfl⟩
  · rw [hm1]
    exact NodeInstance.setKey_keyList hk (by rw [hcount]; simp at hc; omega)
  · rw [hm1, NodeInstance.setKey_childList]
  · rw [hm2]
    exact NodeInstance.dropBack_keyList hkl
  · rw [hm2]
    exact NodeInstance.dropBack_childList (by simpa using hcl) (by omega)
  · rw [hm3]
    exact NodeInstance.pushFront_keyList hkr (by omega)
  · rw [hm3]
    exact NodeInstance.pushFront_childList hcr (by omega)
  · rw [List.append_assoc, List.singleton_append]
  · rw [List.perm_iff_count]
    intro b
    simp only [blocks_node, List.flatMap_append, List.flatMap_cons, List.flatMap_nil, List.cons_append,
      List.nil_append, List.append_nil, List.count_cons, List.count_append]
    omega
  · intro b hb
    simp only [blocks_node, List.flatMap_append, List.flatMap_cons, List.mem_cons, List.mem_append, not_or] at hb
    exact hm b hb.1 hb.2.2.1.1 hb.2.2.2.1.1

/-- A key moves over the separator to the left neighbour. -/
theorem removeItemMoveleft_spec {lr : (d :: cr).length = (a :: kr).length + 1}
    (ho : s.Owned (n + 2) (pairNode ref ks₁ ks₂ k cs₁ cs₂ (node refl kl cl ll) (node refr (a :: kr) (d :: cr) lr) len))
    (hc : (ks₁ ++ k :: ks₂).length ≤ 4) (hl : kl.length < 4) (hr : (a :: kr).length ≤ 4) :
    Rearranged s (s.removeItemMoveleft ref (ks₁.length + 1)) (n + 2)
      (pairNode ref ks₁ ks₂ k cs₁ cs₂ (node refl kl cl ll) (node refr (a :: kr) (d :: cr) lr) len)
      (pairNode ref ks₁ ks₂ a cs₁ cs₂ (node refl (kl ++ [k]) (cl ++ [d]) (by simpa using ll))
        (node refr kr cr (by simpa using lr)) len) [] := by
  obtain ⟨hlref, hrref, hrl, -⟩ := pair_apart ho
  obtain ⟨hchl, hchr, hkey, hcount⟩ := pair_read ho
  obtain ⟨-, hk, -, hch⟩ := rep_node.mp ho.rep
  obtain ⟨-, hkl, hcl, -⟩ := rep_node.mp (hch (node refl kl cl ll) (by simp))
  obtain ⟨-, hkr, hcr, -⟩ := rep_node.mp (hch (node refr (a :: kr) (d :: cr) lr) (by simp))
  have hcountl : (s.mem refl.addr).count = kl.length := by rw [← NodeInstance.length_keyList, hkl]
  have hcountr : (s.mem refr.addr).count = kr.length + 1 := by rw [← NodeInstance.length_keyList, hkr]; rfl
  have hfirst : (s.mem refr.addr).child 0 = root n d := NodeInstance.child_eq hcr (by simp)
  have hfirstk : (s.mem refr.addr).key 0 = a := NodeInstance.key_eq hkr (by simp)
  have hmem : (s.removeItemMoveleft ref (ks₁.length + 1)).mem = Function.update (Function.update
      (Function.update s.mem refl.addr ((s.mem refl.addr).pushBack k (root n d)))
      ref.addr ((s.mem ref.addr).setKey ks₁.length a)) refr.addr (s.mem refr.addr).dropFront := by
    simp only [removeItemMoveleft, refnode, modify, Nat.add_sub_cancel, hchl, hchr, hkey, hfirst, hfirstk]
    simp [Function.update_of_ne, hlref.symm, hrref, hrl]
  have hm : ∀ b, b ≠ ref.addr → b ≠ refl.addr → b ≠ refr.addr →
      (s.removeItemMoveleft ref (ks₁.length + 1)).mem b = s.mem b := fun b h1 h2 h3 => by
    rw [hmem, Function.update_of_ne h3, Function.update_of_ne h1, Function.update_of_ne h2]
  have hm1 : (s.removeItemMoveleft ref (ks₁.length + 1)).mem ref.addr = (s.mem ref.addr).setKey ks₁.length a := by
    rw [hmem, Function.update_of_ne hrref.symm, Function.update_self]
  have hm2 : (s.removeItemMoveleft ref (ks₁.length + 1)).mem refl.addr =
      (s.mem refl.addr).pushBack k (root n d) := by
    rw [hmem, Function.update_of_ne hrl.symm, Function.update_of_ne hlref, Function.update_self]
  have hm3 : (s.removeItemMoveleft ref (ks₁.length + 1)).mem refr.addr = (s.mem refr.addr).dropFront := by
    rw [hmem, Function.update_self]
  refine ⟨rep_pairNode ho hm ?_ ?_ ?_ ?_ ?_ ?_ ?_, rfl, ?_, by simp [removeItemMoveleft, modify], ?_, rfl, rfl⟩
  · rw [hm1]
    exact NodeInstance.setKey_keyList hk (by rw [hcount]; simp at hc; omega)
  · rw [hm1, NodeInstance.setKey_childList]
  · rw [hm2]
    exact NodeInstance.pushBack_keyList hkl (by omega)
  · rw [hm2, NodeInstance.pushBack_childList hcl (by omega)]
    simp
  · rw [hm3]
    exact NodeInstance.dropFront_keyList hkr (by simp at hr; omega)
  · rw [hm3]
    exact NodeInstance.dropFront_childList (by simpa using hcr) (by simp at hr; omega) (by omega)
  · rw [List.append_assoc, List.singleton_append]
  · rw [List.perm_iff_count]
    intro b
    simp only [blocks_node, List.flatMap_append, List.flatMap_cons, List.flatMap_nil, List.cons_append,
      List.nil_append, List.append_nil, List.count_cons, List.count_append]
    omega
  · intro b hb
    simp only [blocks_node, List.flatMap_append, List.flatMap_cons, List.mem_cons, List.mem_append, not_or] at hb
    exact hm b hb.1 hb.2.2.1.1 hb.2.2.2.1.1

theorem length_combined (ll : cl.length = kl.length + 1) (lr : cr.length = kr.length + 1) (k : NodeKey) :
    (cl ++ cr).length = (kl ++ k :: kr).length + 1 := by
  rw [List.length_append, List.length_append, List.length_cons, ll, lr]
  omega

theorem length_one_less (len : cs₁.length = ks₁.length ∧ cs₂.length = ks₂.length) (c : KeyTree (n + 1)) :
    (cs₁ ++ c :: cs₂).length = (ks₁ ++ ks₂).length + 1 := by
  rw [List.length_append, List.length_append, List.length_cons, len.1, len.2, Nat.add_assoc]

/-- The neighbours and the separator become one node; the block of the right one is freed. -/
theorem removeItemCombine_spec
    (ho : s.Owned (n + 2) (pairNode ref ks₁ ks₂ k cs₁ cs₂ (node refl kl cl ll) (node refr kr cr lr) len))
    (hc : (ks₁ ++ k :: ks₂).length ≤ 4) (hlr : kl.length + kr.length < 4) :
    Rearranged s (s.removeItemCombine ref (ks₁.length + 1)) (n + 2)
      (pairNode ref ks₁ ks₂ k cs₁ cs₂ (node refl kl cl ll) (node refr kr cr lr) len)
      (node ref (ks₁ ++ ks₂) (cs₁ ++ node refl (kl ++ k :: kr) (cl ++ cr) (length_combined ll lr k) :: cs₂)
        (length_one_less len _)) [refr.addr] ∧
      (s.removeItemCombine ref (ks₁.length + 1)).undersize = decide ((ks₁ ++ ks₂).length < treeNodemin) := by
  obtain ⟨hlref, hrref, hrl, hkeep⟩ := pair_apart ho
  obtain ⟨hchl, hchr, hkey, hcount⟩ := pair_read ho
  obtain ⟨hne, hk, hcs, hch⟩ := rep_node.mp ho.rep
  obtain ⟨hnel, hkl, hcl, -⟩ := rep_node.mp (hch (node refl kl cl ll) (by simp))
  obtain ⟨-, hkr, hcr, -⟩ := rep_node.mp (hch (node refr kr cr lr) (by simp))
  have hcountl : (s.mem refl.addr).count = kl.length := by rw [← NodeInstance.length_keyList, hkl]
  have hcountr : (s.mem refr.addr).count = kr.length := by rw [← NodeInstance.length_keyList, hkr]
  have hfirst : cr.map (root n) = (s.mem refr.addr).child 0 :: (cr.map (root n)).drop 1 := by
    have hlt : 0 < (cr.map (root n)).length := by simp; omega
    rw [NodeInstance.child_eq hcr hlt, ← List.drop_eq_getElem_cons hlt, List.drop_zero]
  have hmem : (s.removeItemCombine ref (ks₁.length + 1)).mem = Function.update (Function.update s.mem refl.addr
      (NodeInstance.appendItems (s.mem refr.addr) (s.mem refr.addr).count 1
        ((s.mem refl.addr).pushBack k ((s.mem refr.addr).child 0))))
      ref.addr ((s.mem ref.addr).dropItem ks₁.length) := by
    simp only [removeItemCombine, removeItemTrgt, shmfree, refnode, modify, Nat.add_sub_cancel, hchl, hchr, hkey]
    simp [Function.update_of_ne, hlref.symm]
  have hm1 : (s.removeItemCombine ref (ks₁.length + 1)).mem ref.addr = (s.mem ref.addr).dropItem ks₁.length := by
    rw [hmem, Function.update_self]
  have hdropk : ((s.mem ref.addr).dropItem ks₁.length).keyList = ks₁ ++ ks₂ :=
    NodeInstance.dropItem_keyList hk (by rw [hcount]; simp at hc; omega)
  have hm : ∀ b, b ≠ ref.addr → b ≠ refl.addr → b ≠ refr.addr →
      (s.removeItemCombine ref (ks₁.length + 1)).mem b = s.mem b := fun b h1 h2 h3 => by
    rw [hmem, Function.update_of_ne h1, Function.update_of_ne h2]
  obtain ⟨hk₁, hk₂⟩ := hkeep _ hm
  obtain ⟨happk, happc⟩ := NodeInstance.appendItems_lists (s.mem refr.addr) (s.mem refr.addr).count 1
    (NodeInstance.pushBack_keyList (k := k) (r := (s.mem refr.addr).child 0) hkl (by omega))
    (NodeInstance.pushBack_childList (k := k) hcl (by omega)) rfl (by omega)
    (by simp only [NodeInstance.pushBack, NodeInstance.setChild_count, NodeInstance.setKey_count]; omega)
  refine ⟨⟨rep_node.mpr ⟨hne, ?_, ?_, ?_⟩, rfl, ?_, ?_, ?_, rfl, rfl⟩, ?_⟩
  · rw [hm1, hdropk]
  · rw [hm1]
    have hcs' : (s.mem ref.addr).childList = (cs₁.map (root (n + 1)) ++ [refl]) ++ refr :: cs₂.map (root (n + 1)) := by
      rw [hcs]
      simp [root]
    rw [NodeInstance.dropItem_childList hcs' (by simp [len.1]) (by rw [hcount]; simp at hc; omega)
      (by rw [hcount]; omega)]
    simp [root]
  · intro c hcm
    simp only [List.mem_append, List.mem_cons] at hcm
    rcases hcm with hcm | rfl | hcm
    · exact hk₁ c (Or.inl hcm)
    · have hm2 : (s.removeItemCombine ref (ks₁.length + 1)).mem refl.addr = NodeInstance.appendItems
          (s.mem refr.addr) (s.mem refr.addr).count 1
          ((s.mem refl.addr).pushBack k ((s.mem refr.addr).child 0)) := by
        rw [hmem, Function.update_of_ne hlref, Function.update_self]
      refine rep_node.mpr ⟨hnel, ?_, ?_, fun c' hc' => hk₂ c' (List.mem_append.mp hc')⟩
      · rw [hm2, happk, hkr]
        simp
      · rw [hm2, happc, hcr, List.map_append, List.append_assoc, List.singleton_append, ← hfirst]
    · exact hk₁ c (Or.inr hcm)
  · rw [List.perm_iff_count]
    intro b
    simp only [blocks_node, List.flatMap_append, List.flatMap_cons, List.cons_append, List.nil_append,
      List.count_cons, List.count_append]
    omega
  · simp only [removeItemCombine, removeItemTrgt, shmfree, refnode, modify, hchr, List.toFinset_cons,
      List.toFinset_nil]
    ext b
    simp [and_comm]
  · intro b hb
    simp only [blocks_node, List.flatMap_append, List.flatMap_cons, List.mem_cons, List.mem_append, not_or] at hb
    exact hm b hb.1 hb.2.2.1.1 hb.2.2.2.1.1
  · have hcount' : ((s.mem ref.addr).dropItem ks₁.length).count = (ks₁ ++ ks₂).length := by
      rw [← NodeInstance.length_keyList, hdropk]
    rw [← hcount', ← hm1]
    rfl

end Pair

/-! ## Restoring a child with too few keys -/

/-- What a removal leaves of the occupancy: one key less at most, and `undersize` tells. -/
structure Occupied (lo : Nat) (undersize : Bool) (n : Nat) (t : KeyTree n) : Prop where
  least : MTree.Filled treeNodemin treeNodecount (lo - 1) n t
  full : undersize = false → MTree.Filled treeNodemin treeNodecount lo n t
  thin : undersize = true → 0 < n ∧ MTree.width n t ≤ 1

/-- What `_remove_item_restore` does: the same keys in order. -/
def Restored (lo : Nat) (s s' : CategoryTree) (n : Nat) (t : KeyTree n) : Prop :=
  ∃ t' freed, Rearranged s s' n t t' freed ∧ MTree.toList n t' = MTree.toList n t ∧ s'.deleted = s.deleted ∧
    Occupied lo s'.undersize n t'

section Restore

variable {s : CategoryTree} {n lo : Nat} {ref : NodeInstanceOffset} {ks₁ ks₂ : List NodeKey} {k : NodeKey}
  {cs₁ cs₂ : List (KeyTree (n + 1))} {l r : KeyTree (n + 1)} {len : cs₁.length = ks₁.length ∧ cs₂.length = ks₂.length}

/-- Neighbours that share too few keys for two nodes are merged. -/
theorem restored_combine (ho : s.Owned (n + 2) (pairNode ref ks₁ ks₂ k cs₁ cs₂ l r len)) (hlo : lo ≤ 2)
    (hw : lo ≤ (ks₁ ++ k :: ks₂).length) (hw' : (ks₁ ++ k :: ks₂).length ≤ 4)
    (hf : ∀ d, d ∈ cs₁ ∨ d ∈ cs₂ → MTree.Filled 2 4 2 (n + 1) d) (hl : MTree.Filled 2 4 1 (n + 1) l)
    (hr : MTree.Filled 2 4 1 (n + 1) r) (hlr : MTree.width (n + 1) l + MTree.width (n + 1) r < 4) :
    Restored lo s (s.removeItemCombine ref (ks₁.length + 1)) (n + 2) (pairNode ref ks₁ ks₂ k cs₁ cs₂ l r len) := by
  obtain ⟨refl, kl, cl, ll⟩ := l
  obtain ⟨refr, kr, cr, lr⟩ := r
  obtain ⟨hl1, hl2, hl3⟩ := hl
  obtain ⟨hr1, hr2, hr3⟩ := hr
  simp only [MTree.width] at hl1 hl2 hl3 hr1 hr2 hr3 hlr
  obtain ⟨hre, hund⟩ := removeItemCombine_spec ho hw' hlr
  have hlen : (ks₁ ++ k :: ks₂).length = (ks₁ ++ ks₂).length + 1 := by simp; omega
  have hch : ∀ d ∈ cs₁ ++ node refl (kl ++ k :: kr) (cl ++ cr) (by simp; omega) :: cs₂,
      MTree.Filled 2 4 2 (n + 1) d := by
    intro d hd
    simp only [List.mem_append, List.mem_cons] at hd
    rcases hd with hd | rfl | hd
    · exact hf d (Or.inl hd)
    · refine ⟨by simp; omega, by simp; omega, fun c hc => ?_⟩
      exact (List.mem_append.mp hc).elim (hl3 c) (hr3 c)
    · exact hf d (Or.inr hd)
  refine ⟨_, _, hre, ?_, rfl,
    ⟨⟨by simp only; omega, by simp only [treeNodecount]; omega, hch⟩, fun h => ?_, fun h => ⟨by omega, ?_⟩⟩⟩
  · have h1 := interleave_zoom_two (f := MTree.toList (n + 1)) (l := node refl kl cl ll) (r := node refr kr cr lr)
      (k := k) len.1 len.2
    have h2 := interleave_zoom (f := MTree.toList (n + 1))
      (c := node refl (kl ++ k :: kr) (cl ++ cr) (by simp; omega)) len.1 len.2
    have h3 := interleave_split (f := MTree.toList n) cr kr k cl kl ll
    exact h2.trans
      (by rw [show MTree.toList (n + 1) (node refl (kl ++ k :: kr) (cl ++ cr) _) = _ from h3]; exact h1.symm)
  · rw [hund, decide_eq_false_iff_not] at h
    simp only [treeNodemin, treeNodecount] at h
    exact ⟨by simp only; omega, by simp only [treeNodecount]; omega, hch⟩
  · rw [hund, decide_eq_true_eq] at h
    simp only [treeNodemin, treeNodecount, MTree.width] at h ⊢
    omega

/-- The right one of two neighbours has too few keys. -/
theorem restored_right (ho : s.Owned (n + 2) (pairNode ref ks₁ ks₂ k cs₁ cs₂ l r len)) (hlo : lo ≤ 2)
    (hw : lo ≤ (ks₁ ++ k :: ks₂).length) (hw' : (ks₁ ++ k :: ks₂).length ≤ 4)
    (hf : ∀ d, d ∈ cs₁ ∨ d ∈ cs₂ → MTree.Filled 2 4 2 (n + 1) d) (hl : MTree.Filled 2 4 2 (n + 1) l)
    (hr : MTree.Filled 2 4 1 (n + 1) r) (hr' : MTree.width (n + 1) r ≤ 1) (hund : s.undersize = false) :
    Restored lo s (if treeNodemin < (s.refnode (root (n + 1) l)).count then s.removeItemMoveright ref (ks₁.length + 1)
      else s.removeItemCombine ref (ks₁.length + 1)) (n + 2) (pairNode ref ks₁ ks₂ k cs₁ cs₂ l r len) := by
  have hcount : (s.refnode (root (n + 1) l)).count = MTree.width (n + 1) l :=
    Rep.count_eq ((rep_node.mp ho.rep).2.2.2 l (by simp))
  rw [hcount]
  split
  · rename_i hlt
    obtain ⟨refl, kl, cl, ll⟩ := l
    obtain ⟨refr, kr, cr, lr⟩ := r
    obtain ⟨hl1, hl2, hl3⟩ := hl
    obtain ⟨hr1, hr2, hr3⟩ := hr
    simp only [MTree.width] at hl1 hl2 hl3 hr1 hr2 hr3 hr' hlt
    obtain ⟨kl, a, rfl⟩ : ∃ kl' a, kl = kl' ++ [a] := by
      refine (List.eq_nil_or_concat' kl).resolve_left fun h => ?_
      simp [h] at hl1
    obtain ⟨cl, d, rfl⟩ : ∃ cl' d, cl = cl' ++ [d] := by
      refine (List.eq_nil_or_concat' cl).resolve_left fun h => ?_
      simp [h] at ll
    have hre := removeItemMoveright_spec ho hw' (by omega)
    have hch : ∀ c ∈ cs₁ ++ node refl kl cl (by simpa using ll) ::
        node refr (k :: kr) (d :: cr) (by simpa using lr) :: cs₂, MTree.Filled 2 4 2 (n + 1) c := by
      intro c hc
      simp only [List.mem_append, List.mem_cons] at hc
      rcases hc with hc | rfl | rfl | hc
      · exact hf c (Or.inl hc)
      · refine ⟨?_, ?_, fun c hc => hl3 c (by simp [hc])⟩ <;> simp at hl2 hlt ⊢ <;> omega
      · refine ⟨?_, ?_, fun c hc => ?_⟩
        · simp at hr1 ⊢; omega
        · simp; omega
        · exact (List.mem_cons.mp hc).elim (fun e => hl3 c (by simp [e])) (hr3 c)
      · exact hf c (Or.inr hc)
    refine ⟨_, _, hre, ?_, rfl, ⟨⟨?_, ?_, hch⟩, fun _ => ⟨?_, ?_, hch⟩, fun h => ?_⟩⟩
    · have h1 := interleave_zoom_two (f := MTree.toList (n + 1)) (l := node refl (kl ++ [a]) (cl ++ [d]) ll)
        (r := node refr kr cr lr) (k := k) len.1 len.2
      have h2 := interleave_zoom_two (f := MTree.toList (n + 1)) (l := node refl kl cl (by simpa using ll))
        (r := node refr (k :: kr) (d :: cr) (by simpa using lr)) (k := a) len.1 len.2
      have h3 := interleave_split (f := MTree.toList n) [d] [] a cl kl (by simpa using ll)
      refine h2.trans (Eq.trans ?_ h1.symm)
      rw [show MTree.toList (n + 1) (node refl (kl ++ [a]) (cl ++ [d]) ll) = _ from h3]
      simp [MTree.toList, interleave]
    · simp at hw ⊢; omega
    · simpa using hw'
    · simpa using hw
    · simpa using hw'
    · rw [show (s.removeItemMoveright ref (ks₁.length + 1)).undersize = s.undersize from rfl, hund] at h
      simp at h
  · rename_i hlt
    simp only [treeNodemin, treeNodecount] at hlt
    exact restored_combine ho hlo hw hw' hf (hl.mono (by omega)) hr (by omega)

/-- The left one of two neighbours has too few keys. -/
theorem restored_left (ho : s.Owned (n + 2) (pairNode ref ks₁ ks₂ k cs₁ cs₂ l r len)) (hlo : lo ≤ 2)
    (hw : lo ≤ (ks₁ ++ k :: ks₂).length) (hw' : (ks₁ ++ k :: ks₂).length ≤ 4)
    (hf : ∀ d, d ∈ cs₁ ∨ d ∈ cs₂ → MTree.Filled 2 4 2 (n + 1) d) (hl : MTree.Filled 2 4 1 (n + 1) l)
    (hl' : MTree.width (n + 1) l ≤ 1) (hr : MTree.Filled 2 4 2 (n + 1) r) (hund : s.undersize = false) :
    Restored lo s (if treeNodemin < (s.refnode (root (n + 1) r)).count then s.removeItemMoveleft ref (ks₁.length + 1)
      else s.removeItemCombine ref (ks₁.length + 1)) (n + 2) (pairNode ref ks₁ ks₂ k cs₁ cs₂ l r len) := by
  have hcount : (s.refnode (root (n + 1) r)).count = MTree.width (n + 1) r :=
    Rep.count_eq ((rep_node.mp ho.rep).2.2.2 r (by simp))
  rw [hcount]
  split
  · rename_i hlt
    obtain ⟨refl, kl, cl, ll⟩ := l
    obtain ⟨refr, kr, cr, lr⟩ := r
    obtain ⟨hl1, hl2, hl3⟩ := hl
    obtain ⟨hr1, hr2, hr3⟩ := hr
    simp only [MTree.width] at hl1 hl2 hl3 hr1 hr2 hr3 hl' hlt
    obtain ⟨a, kr, rfl⟩ : ∃ a kr', kr = a :: kr' := List.exists_cons_of_length_pos (by omega)
    obtain ⟨d, cr, rfl⟩ : ∃ d cr', cr = d :: cr' := List.exists_cons_of_length_pos (by omega)
    have hre := removeItemMoveleft_spec ho hw' (by omega) hr2
    have hch : ∀ c ∈ cs₁ ++ node refl (kl ++ [k]) (cl ++ [d]) (by simpa using ll) ::
        node refr kr cr (by simpa using lr) :: cs₂, MTree.Filled 2 4 2 (n + 1) c := by
      intro c hc
      simp only [List.mem_append, List.mem_cons] at hc
      rcases hc with hc | rfl | rfl | hc
      · exact hf c (Or.inl hc)
      · refine ⟨?_, ?_, fun c hc => ?_⟩
        · simp at hl1 ⊢; omega
        · simp; omega
        · simp only [List.mem_append, List.mem_singleton] at hc
          exact hc.elim (hl3 c) fun e => hr3 c (by simp [e])
      · refine ⟨?_, ?_, fun c hc => hr3 c (by simp [hc])⟩ <;> simp at hr2 hlt ⊢ <;> omega
      · exact hf c (Or.inr hc)
    refine ⟨_, _, hre, ?_, rfl, ⟨⟨?_, ?_, hch⟩, fun _ => ⟨?_, ?_, hch⟩, fun h => ?_⟩⟩
    · have h1 := interleave_zoom_two (f := MTree.toList (n + 1)) (l := node refl kl cl ll)
        (r := node refr (a :: kr) (d :: cr) lr) (k := k) len.1 len.2
      have h2 := interleave_zoom_two (f := MTree.toList (n + 1))
        (l := node refl (kl ++ [k]) (cl ++ [d]) (by simpa using ll))
        (r := node refr kr cr (by simpa using lr)) (k := a) len.1 len.2
      have h3 := interleave_split (f := MTree.toList n) [d] [] k cl kl (by simpa using ll)
      refine h2.trans (Eq.trans ?_ h1.symm)
      rw [show MTree.toList (n + 1) (node refl (kl ++ [k]) (cl ++ [d]) _) = _ from h3]
      simp [MTree.toList, interleave]
    · simp at hw ⊢; omega
    · simpa using hw'
    · simpa using hw
    · simpa using hw'
    · rw [show (s.removeItemMoveleft ref (ks₁.length + 1)).undersize = s.undersize from rfl, hund] at h
      simp at h
  · rename_i hlt
    simp only [treeNodemin, treeNodecount] at hlt
    exact restored_combine ho hlo hw hw' hf hl (hr.mono (by omega)) (by omega)

theorem Restored.of_undersize {s' : CategoryTree} {t : KeyTree n} {b : Bool}
    (h : Restored lo { s with undersize := b } s' n t) : Restored lo s s' n t := by
  obtain ⟨t', freed, hre, h1, h2, h3⟩ := h
  exact ⟨t', freed, ⟨hre.rep, hre.root_eq, hre.perm, hre.live, hre.frame, hre.answers, hre.rooti⟩, h1, h2, h3⟩

/-- `_remove_item_restore` on a node whose child after `cs₁` has too few keys. -/
theorem removeItemRestore_spec {keys : List NodeKey} {childs : List (KeyTree (n + 1))} {c : KeyTree (n + 1)}
    {len : childs.length = keys.length + 1} (ho : s.Owned (n + 2) (node ref keys childs len))
    (hch : childs = cs₁ ++ c :: cs₂) (hlo : lo ≤ 2) (hw : lo ≤ keys.length) (h1 : 1 ≤ keys.length)
    (hw' : keys.length ≤ 4) (hf : ∀ d, d ∈ cs₁ ∨ d ∈ cs₂ → MTree.Filled 2 4 2 (n + 1) d)
    (hc : MTree.Filled 2 4 1 (n + 1) c) (hc' : MTree.width (n + 1) c ≤ 1) :
    Restored lo s (s.removeItemRestore ref cs₁.length) (n + 2) (node ref keys childs len) := by
  obtain ⟨hne, hk, hcs, -⟩ := rep_node.mp ho.rep
  rw [removeItemRestore, if_neg (by simp [hne])]
  have ho' : ({ s with undersize := false } : CategoryTree).Owned (n + 2) (node ref keys childs len) :=
    ⟨ho.rep, ho.nodup, ho.live⟩
  rcases List.eq_nil_or_concat' cs₁ with rfl | ⟨cs₁, l, rfl⟩
  · -- the first child: its right neighbour helps
    obtain ⟨k, ks₂, rfl⟩ : ∃ k ks₂, keys = k :: ks₂ := List.exists_cons_of_length_pos h1
    obtain ⟨r, cs₂, rfl⟩ : ∃ r cs₂', cs₂ = r :: cs₂' := by
      refine List.exists_cons_of_length_pos ?_
      rw [hch] at len
      simp at len
      omega
    subst hch
    have hchild : (s.mem ref.addr).child 1 = root (n + 1) r := by
      rw [NodeInstance.child_eq hcs (by simp)]
      simp
    have hlen : ([] : List (KeyTree (n + 1))).length = ([] : List NodeKey).length ∧ cs₂.length = ks₂.length :=
      ⟨rfl, by simpa using len⟩
    replace ho' : ({ s with undersize := false } : CategoryTree).Owned (n + 2)
      (pairNode ref [] ks₂ k [] cs₂ c r hlen) :=
      ho'
    have := restored_left ho' hlo hw hw' (fun d hd => hf d (by simp at hd ⊢; exact Or.inr hd)) hc hc'
      (hf r (by simp)) rfl
    simp only [List.length_nil, lt_irrefl, if_false, refnode, hchild]
    exact this.of_undersize
  · -- the left neighbour helps
    obtain ⟨ks₁, ks₂', rfl, hks⟩ : ∃ ks₁ ks₂', keys = ks₁ ++ ks₂' ∧ ks₁.length = cs₁.length := by
      refine ⟨keys.take cs₁.length, keys.drop cs₁.length, (List.take_append_drop _ _).symm, ?_⟩
      rw [hch] at len
      simp at len ⊢
      omega
    rw [hch] at len
    obtain ⟨k, ks₂, rfl⟩ : ∃ k ks₂, ks₂' = k :: ks₂ := by
      refine List.exists_cons_of_length_pos ?_
      simp at len
      omega
    obtain rfl : childs = cs₁ ++ l :: c :: cs₂ := by simpa using hch
    have hchild : (s.mem ref.addr).child cs₁.length = root (n + 1) l := by
      rw [NodeInstance.child_eq hcs (by simp)]
      simp
    have hlen : cs₁.length = ks₁.length ∧ cs₂.length = ks₂.length := ⟨hks.symm, by simp at len; omega⟩
    replace ho' : ({ s with undersize := false } : CategoryTree).Owned (n + 2)
        (pairNode ref ks₁ ks₂ k cs₁ cs₂ l c hlen) := ho'
    have := restored_right ho' hlo hw hw'
      (fun d hd => hf d (hd.imp_left fun h => List.mem_append_left _ h)) (hf l (by simp)) hc hc' rfl
    simp only [List.length_append, List.length_singleton, Nat.add_sub_cancel, refnode, hchild,
      if_pos (Nat.succ_pos _)]
    rw [← hks]
    exact this.of_undersize

end Restore

/-! ## The recursion -/

/-- A tree that is not touched. -/
theorem Rearranged.refl {s s' : CategoryTree} {n : Nat} {t : KeyTree n} (h : Rep s.mem n t) (hm : s'.mem = s.mem)
    (hl : s'.live = s.live) (ha : s'.answers = s.answers) (hr : s'.rooti = s.rooti) : Rearranged s s' n t t [] :=
  ⟨hm ▸ h, rfl, by simp, by simp [hl], fun a _ => by rw [hm], ha, hr⟩

section Recursion

variable {s s' : CategoryTree} {n lo : Nat} {ref : NodeInstanceOffset} {keys : List NodeKey}
  {cs₁ cs₂ childs : List (KeyTree n)} {c c' : KeyTree n} {freed : List Nat}

/-- A child that was rearranged, seen from its node. -/
theorem Rearranged.plug {childs' : List (KeyTree n)} {len : childs.length = keys.length + 1}
    {len' : childs'.length = keys.length + 1} (h : Rearranged s s' n c c' freed)
    (ho : s.Owned (n + 1) (node ref keys childs len)) (hch : childs = cs₁ ++ c :: cs₂)
    (hch' : childs' = cs₁ ++ c' :: cs₂) :
    Rearranged s s' (n + 1) (node ref keys childs len) (node ref keys childs' len') freed := by
  subst hch hch'
  obtain ⟨-, haround, hnd⟩ := ho.zoom
  obtain ⟨hne, hk, hcs, -⟩ := rep_node.mp ho.rep
  have hframe : ∀ a ∈ around ref cs₁ cs₂, s'.mem a = s.mem a := fun a ha => h.frame a (haround a ha).2
  have href := hframe ref.addr (by simp [around])
  have hsib := ho.rep.siblings (fun a ha _ => hframe a ha) hnd
  refine ⟨rep_node.mpr ⟨hne, by rw [href, hk], ?_, ?_⟩, rfl, ?_, h.live, ?_, h.answers, h.rooti⟩
  · rw [href, hcs]
    simp [h.root_eq]
  · intro d hd
    simp only [List.mem_append, List.mem_cons] at hd
    rcases hd with hd | rfl | hd
    · exact hsib d (Or.inl hd)
    · exact h.rep
    · exact hsib d (Or.inr hd)
  · rw [List.perm_iff_count]
    intro a
    have := h.perm.count_eq a
    simp only [blocks_node, List.flatMap_append, List.flatMap_cons, List.count_append, List.count_cons] at this ⊢
    omega
  · intro a ha
    exact h.frame a fun hc => ha (blocks_zoom.mem_iff.mpr (List.mem_append_right _ hc))

/-- Another key in the place of one. -/
theorem Rearranged.setKey {ks₁ ks₂ : List NodeKey} {k m : NodeKey} {len : childs.length = (ks₁ ++ k :: ks₂).length + 1}
    (ho : s.Owned (n + 1) (node ref (ks₁ ++ k :: ks₂) childs len)) (hcount : (s.mem ref.addr).count ≤ 4)
    (hm : s'.mem = Function.update s.mem ref.addr ((s.mem ref.addr).setKey ks₁.length m)) (hl : s'.live = s.live)
    (ha : s'.answers = s.answers) (hr : s'.rooti = s.rooti) :
    Rearranged s s' (n + 1) (node ref (ks₁ ++ k :: ks₂) childs len)
      (node ref (ks₁ ++ m :: ks₂) childs (by simpa using len)) [] := by
  obtain ⟨hne, hk, hcs, hch⟩ := rep_node.mp ho.rep
  have hself : s'.mem ref.addr = (s.mem ref.addr).setKey ks₁.length m := by rw [hm, Function.update_self]
  refine ⟨rep_node.mpr ⟨hne, ?_, ?_, fun d hd => ?_⟩, rfl, ?_, ?_, fun a ha => ?_, ha, hr⟩
  · rw [hself]
    exact NodeInstance.setKey_keyList hk hcount
  · rw [hself, NodeInstance.setKey_childList, hcs]
  · rw [hm]
    refine (hch d hd).update fun hd' => ?_
    have hn := ho.nodup
    rw [blocks_node] at hn
    exact (List.nodup_cons.mp hn).1 (List.mem_flatMap.mpr ⟨d, hd, hd'⟩)
  · simp [blocks_node]
  · simp [hl]
  · rw [hm, Function.update_of_ne]
    rintro rfl
    exact ha (by simp [blocks_node])

/-- The step of `_remove_item_recursive` after its call: restore the child if it is left with too few keys. -/
theorem restored_of_undersize {len : childs.length = keys.length + 1}
    (ho : s.Owned (n + 1) (node ref keys childs len)) (hch : childs = cs₁ ++ c :: cs₂) (hlo : lo ≤ 2)
    (hw : lo ≤ keys.length) (h1 : 1 ≤ keys.length) (hw' : keys.length ≤ 4)
    (hf : ∀ d, d ∈ cs₁ ∨ d ∈ cs₂ → MTree.Filled 2 4 2 n d) (hc : Occupied 2 s.undersize n c) :
    Restored lo s (if s.undersize then s.removeItemRestore ref cs₁.length else s) (n + 1)
    (node ref keys childs len) := by
  split
  · rename_i hund
    obtain ⟨hn, hthin⟩ := hc.thin hund
    obtain ⟨n, rfl⟩ : ∃ m, n = m + 1 := ⟨n - 1, by omega⟩
    exact removeItemRestore_spec ho hch hlo hw h1 hw' hf hc.least hthin
  · rename_i hund
    have hund' : s.undersize = false := by simpa using hund
    have hfill : ∀ d ∈ childs, MTree.Filled 2 4 2 n d := by
      rw [hch]
      intro d hd
      simp only [List.mem_append, List.mem_cons] at hd
      rcases hd with hd | rfl | hd
      · exact hf d (Or.inl hd)
      · exact hc.full hund'
      · exact hf d (Or.inr hd)
    refine ⟨_, [], Rearranged.refl ho.rep rfl rfl rfl rfl, rfl, rfl, ⟨⟨?_, hw', hfill⟩, fun _ => ⟨hw, hw', hfill⟩, ?_⟩⟩
    · simp only
      omega
    · simp [hund']

/-- The leftmost block below a reference starts with the least entry. -/
theorem leftmost_spec : ∀ {n : Nat} {t : KeyTree (n + 1)} (fuel : Nat), n < fuel → Rep s.mem (n + 1) t →
    MTree.Filled 2 4 1 (n + 1) t →
    ∃ nd rest, s.leftmost fuel (root (n + 1) t) = .ok nd ∧ MTree.toList (n + 1) t = nd.key 0 :: rest
  | n, ⟨ref, keys, childs, len⟩, fuel + 1, hfuel, hrep, hf => by
    obtain ⟨hne, hk, hcs, hch⟩ := rep_node.mp hrep
    obtain ⟨h1, -, hfc⟩ := hf
    obtain ⟨k, ks, rfl⟩ : ∃ k ks, keys = k :: ks := List.exists_cons_of_length_pos h1
    obtain ⟨c, cs, rfl⟩ : ∃ c cs, childs = c :: cs := List.exists_cons_of_length_pos (by simp at len; omega)
    have hchild : (s.mem ref.addr).child 0 = root n c := NodeInstance.child_eq hcs (by simp)
    have hkey : (s.mem ref.addr).key 0 = k := NodeInstance.key_eq hk (by simp)
    have hroot : root (n + 1) (node ref (k :: ks) (c :: cs) len) = ref := rfl
    rw [hroot, leftmost]
    simp only [refnode, hchild]
    match n, c, hch c (by simp), hfc c (by simp) with
    | 0, c, _, _ =>
      refine ⟨_, interleave (MTree.toList 0) cs ks, if_pos rfl, ?_⟩
      rw [hkey]
      rfl
    | m + 1, c, hrepc, hfc =>
      obtain ⟨nd, rest, h2, h3⟩ := leftmost_spec (n := m) fuel (by omega) hrepc (hfc.mono (by omega))
      rw [if_neg (by simp [hrepc.isEmpty_root])]
      refine ⟨nd, rest ++ k :: interleave (MTree.toList (m + 1)) cs ks, h2, ?_⟩
      have : MTree.toList (m + 2) (node ref (k :: ks) (c :: cs) len) =
        MTree.toList (m + 1) c ++ k :: interleave (MTree.toList (m + 1)) cs ks := rfl
      rw [this, h3]
      rfl

end Recursion

/-- What the removal of `current_item` leaves of a tree. -/
def Removed (lo : Nat) (s s' : CategoryTree) (n : Nat) (t : KeyTree n) : Prop :=
  ∃ t' freed, Rearranged s s' n t t' freed ∧ MTree.toList n t' = (MTree.toList n t).filter (· ≠ s.currentItem) ∧
    Occupied lo s'.undersize n t' ∧
    (s'.deleted = false → s.deleted = false ∧ s.currentItem ∉ MTree.toList n t ∧ s'.undersize = false)

theorem filter_of_lt {x : NodeKey} {l : List NodeKey} (h : ∀ a ∈ l, a < x) : l.filter (· ≠ x) = l :=
  List.filter_eq_self.mpr fun a ha => by simpa using ne_of_lt (h a ha)

theorem filter_of_gt {x : NodeKey} {l : List NodeKey} (h : ∀ a ∈ l, x < a) : l.filter (· ≠ x) = l :=
  List.filter_eq_self.mpr fun a ha => by simpa using ne_of_gt (h a ha)

section Found

variable {s : CategoryTree} {n lo : Nat} {ref : NodeInstanceOffset} {ks₁ ks₂ : List NodeKey}

/-- The entry is found in a node without children. -/
theorem removed_trgt {cs₁ cs₂ : List (KeyTree 0)} {c r : KeyTree 0}
    {len : (cs₁ ++ c :: r :: cs₂).length = (ks₁ ++ s.currentItem :: ks₂).length + 1} (h₁ : cs₁.length = ks₁.length)
    (ho : s.Owned 1 (node ref (ks₁ ++ s.currentItem :: ks₂) (cs₁ ++ c :: r :: cs₂) len)) (hlo : lo ≤ 2)
    (hf : MTree.Filled 2 4 lo 1 (node ref (ks₁ ++ s.currentItem :: ks₂) (cs₁ ++ c :: r :: cs₂) len))
    (hs : Increasing (MTree.toList 1 (node ref (ks₁ ++ s.currentItem :: ks₂) (cs₁ ++ c :: r :: cs₂) len))) :
    Removed lo s (({ s with deleted := true } : CategoryTree).removeItemTrgt ref ks₁.length) 1
      (node ref (ks₁ ++ s.currentItem :: ks₂) (cs₁ ++ c :: r :: cs₂) len) := by
  obtain ⟨hne, hk, hcs, -⟩ := rep_node.mp ho.rep
  obtain ⟨hw, hw', -⟩ := hf
  have h₂ : cs₂.length = ks₂.length := by simp at len; omega
  have hcount : (s.mem ref.addr).count = ks₁.length + ks₂.length + 1 := by
    rw [← NodeInstance.length_keyList, hk]
    simp
    omega
  have hle : ks₁.length + ks₂.length + 1 ≤ 4 := by simpa [Nat.add_assoc] using hw'
  have hdropk : ((s.mem ref.addr).dropItem ks₁.length).keyList = ks₁ ++ ks₂ :=
    NodeInstance.dropItem_keyList hk (by omega)
  have hmem : (({ s with deleted := true } : CategoryTree).removeItemTrgt ref ks₁.length).mem ref.addr =
      (s.mem ref.addr).dropItem ks₁.length := by
    simp [removeItemTrgt, modify]
  have hund : (({ s with deleted := true } : CategoryTree).removeItemTrgt ref ks₁.length).undersize =
      decide ((ks₁ ++ ks₂).length < treeNodemin) := by
    rw [← hdropk, NodeInstance.length_keyList, ← hmem]
    rfl
  have h1 := interleave_zoom_two (f := MTree.toList 0) (l := c) (r := r) (k := s.currentItem) h₁ h₂
  have h2 := interleave_zoom (f := MTree.toList 0) (c := c) h₁ h₂
  refine ⟨node ref (ks₁ ++ ks₂) (cs₁ ++ c :: cs₂) (by simp [h₁, h₂]; omega), [],
    ⟨rep_node.mpr ⟨hne, by rw [hmem, hdropk], ?_, fun _ _ => trivial⟩, rfl, ?_, ?_, ?_, rfl, rfl⟩, ?_, ⟨?_, ?_, ?_⟩, ?_⟩
  · have hcs' : (s.mem ref.addr).childList = (cs₁ ++ [c]).map (root 0) ++ root 0 r :: cs₂.map (root 0) := by
      rw [hcs]
      simp
    rw [hmem, NodeInstance.dropItem_childList hcs' (by simp [h₁]) (by omega) (by omega)]
    simp
  · rw [List.perm_iff_count]
    intro a
    simp [blocks_node]
  · simp [removeItemTrgt, modify]
  · intro a ha
    rw [blocks_node, List.mem_cons, not_or] at ha
    simp [removeItemTrgt, modify, Function.update_of_ne ha.1]
  · rw [show MTree.toList 1 (node ref (ks₁ ++ s.currentItem :: ks₂) (cs₁ ++ c :: r :: cs₂) len) = _ from h1] at hs ⊢
    rw [show MTree.toList 1 (node ref (ks₁ ++ ks₂) (cs₁ ++ c :: cs₂) _) = _ from h2]
    simp only [MTree.toList, List.nil_append, List.cons_append] at hs ⊢
    obtain ⟨-, hB, hAB⟩ := List.pairwise_append.mp hs
    rw [List.filter_append, List.filter_cons_of_neg (by simp), filter_of_lt fun a ha => hAB a ha _ (by simp),
      filter_of_gt fun b hb => (List.pairwise_cons.mp hB).1 b hb]
  · refine ⟨?_, ?_, fun _ _ => trivial⟩
    · simp at hw ⊢
      omega
    · simp
      omega
  · intro h
    rw [hund, decide_eq_false_iff_not] at h
    refine ⟨?_, ?_, fun _ _ => trivial⟩
    · simp at h ⊢
      omega
    · simp
      omega
  · intro h
    rw [hund, decide_eq_true_eq] at h
    simp only [treeNodemin, treeNodecount, MTree.width] at h ⊢
    omega
  · intro h
    exact absurd h (by simp [removeItemTrgt, modify])

/-- The entry is found above other nodes: its successor takes its place and is removed below. -/
theorem removed_successor {cs₁ cs₂ : List (KeyTree (n + 1))} {c r : KeyTree (n + 1)} {fuel : Nat}
    {len : (cs₁ ++ c :: r :: cs₂).length = (ks₁ ++ s.currentItem :: ks₂).length + 1} (h₁ : cs₁.length = ks₁.length)
    (ho : s.Owned (n + 2) (node ref (ks₁ ++ s.currentItem :: ks₂) (cs₁ ++ c :: r :: cs₂) len)) (hlo : lo ≤ 2)
    (hf : MTree.Filled 2 4 lo (n + 2) (node ref (ks₁ ++ s.currentItem :: ks₂) (cs₁ ++ c :: r :: cs₂) len))
    (hs : Increasing (MTree.toList (n + 2) (node ref (ks₁ ++ s.currentItem :: ks₂) (cs₁ ++ c :: r :: cs₂) len)))
    (hfuel : n + 1 + 1 < fuel + 1) (hund : s.undersize = false)
    (ih : ∀ {t : KeyTree (n + 1)} {s : CategoryTree}, s.Owned (n + 1) t → MTree.Filled 2 4 2 (n + 1) t →
      Increasing (MTree.toList (n + 1) t) → s.undersize = false →
      ∃ s', removeItemRecursive fuel s (root (n + 1) t) = .ok s' ∧ Removed 2 s s' (n + 1) t) :
    ∃ s', (if (!(root (n + 1) r).isEmpty) = true then do
        let tmpnode ← ({ s with deleted := true } : CategoryTree).leftmost fuel (root (n + 1) r)
        let s := ({ s with deleted := true } : CategoryTree).modify ref
          (fun node => node.setKey ks₁.length (tmpnode.key 0))
        let s := { s with currentItem := tmpnode.key 0 }
        let s ← removeItemRecursive fuel s ((s.mem ref.addr).child (ks₁.length + 1))
        if s.undersize then .ok (s.removeItemRestore ref (ks₁.length + 1)) else .ok s
      else .ok (({ s with deleted := true } : CategoryTree).removeItemTrgt ref ks₁.length)) = .ok s' ∧
      Removed lo s s' (n + 2) (node ref (ks₁ ++ s.currentItem :: ks₂) (cs₁ ++ c :: r :: cs₂) len) := by
  obtain ⟨hne, hk, hcs, hch⟩ := rep_node.mp ho.rep
  obtain ⟨hw, hw', hfc⟩ := hf
  have h₂ : cs₂.length = ks₂.length := by simp at len; omega
  have hcount : (s.mem ref.addr).count ≤ 4 := by rw [← NodeInstance.length_keyList, hk]; exact hw'
  obtain ⟨tmpnode, rest, hleft, hrest⟩ := leftmost_spec (s := { s with deleted := true }) fuel (by omega)
    (hch r (by simp)) ((hfc r (by simp)).mono (by omega))
  rw [if_pos (by simp [(hch r (by simp)).isEmpty_root]), hleft]
  simp only [bind, Except.bind]
  generalize hm : tmpnode.key 0 = m at hrest ⊢
  generalize hs₁ : ({ ({ s with deleted := true } : CategoryTree).modify ref (fun node => node.setKey ks₁.length m) with
    currentItem := m } : CategoryTree) = s₁
  have hmem : s₁.mem = Function.update s.mem ref.addr ((s.mem ref.addr).setKey ks₁.length m) := by rw [← hs₁]; rfl
  -- the successor is in the node, and still below it
  have hset : Rearranged s s₁ (n + 2) (node ref (ks₁ ++ s.currentItem :: ks₂) (cs₁ ++ c :: r :: cs₂) len)
      (node ref (ks₁ ++ m :: ks₂) (cs₁ ++ c :: r :: cs₂) (by simpa using len)) [] :=
    Rearranged.setKey ho hcount hmem (by rw [← hs₁]; rfl) (by rw [← hs₁]; rfl) (by rw [← hs₁]; rfl)
  have ho₁ := hset.owned ho
  have hchild : (s₁.mem ref.addr).child (ks₁.length + 1) = root (n + 1) r := by
    rw [NodeInstance.child_eq (rep_node.mp hset.rep).2.2.1 (by simp [h₁])]
    simp [h₁, List.getElem_append_right]
  -- the order of what is around
  have htl : ∀ (k : NodeKey) (r : KeyTree (n + 1)), interleave (MTree.toList (n + 1)) (cs₁ ++ c :: r :: cs₂)
      (ks₁ ++ k :: ks₂) = before (MTree.toList (n + 1)) cs₁ ks₁ ++ ((MTree.toList (n + 1) c ++
        k :: MTree.toList (n + 1) r) ++ after (MTree.toList (n + 1)) ks₂ cs₂) := fun k r => interleave_zoom_two h₁ h₂
  rw [show MTree.toList (n + 2) (node ref (ks₁ ++ s.currentItem :: ks₂) (cs₁ ++ c :: r :: cs₂) len) = _ from
    htl _ r] at hs
  have hsr : Increasing (MTree.toList (n + 1) r) := by
    have h1 := (List.pairwise_append.mp (List.pairwise_append.mp hs).2.1).1
    exact (List.pairwise_cons.mp (List.pairwise_append.mp h1).2.1).2
  have hund₁ : s₁.undersize = false := by rw [← hs₁]; exact hund
  obtain ⟨s', hok, r', freed, hre, htr, hocc, hdel⟩ := ih (ho₁.child (by simp)) (hfc r (by simp)) hsr hund₁
  have hmod : (({ s with deleted := true } : CategoryTree).modify ref (fun node => node.setKey ks₁.length m)).mem =
      s₁.mem := by rw [← hs₁]
  rw [hmod, hchild, hok]
  have hplug : Rearranged s₁ s' (n + 2) (node ref (ks₁ ++ m :: ks₂) (cs₁ ++ c :: r :: cs₂) (by simpa using len))
      (node ref (ks₁ ++ m :: ks₂) (cs₁ ++ [c] ++ r' :: cs₂) (by simpa using len)) freed := hre.plug ho₁ (by simp) rfl
  have hsib : ∀ d, d ∈ cs₁ ++ [c] ∨ d ∈ cs₂ → MTree.Filled 2 4 2 (n + 1) d := by
    intro d hd
    have hmem : d ∈ (cs₁ ++ [c]) ++ r :: cs₂ := List.mem_append.mpr (hd.imp_right (List.mem_cons_of_mem r))
    rw [← List.append_cons] at hmem
    exact hfc d hmem
  obtain ⟨t', freed', hre', htl', hdel', hocc'⟩ := restored_of_undersize (hplug.owned ho₁) rfl hlo
    (by simpa using hw) (by simp; omega) (by simpa using hw') hsib hocc
  refine ⟨if s'.undersize then s'.removeItemRestore ref (ks₁.length + 1) else s', ?_, ?_⟩
  · simp only
    split <;> rfl
  rw [← h₁]
  simp only [List.length_append, List.length_singleton] at hre' hdel' hocc'
  refine ⟨t', _, (hset.trans hplug).trans hre', ?_, hocc', fun h => ?_⟩
  · have hcur : s₁.currentItem = m := by rw [← hs₁]
    have htl₂ := htl m r'
    rw [List.append_cons] at htl₂
    rw [htl', show MTree.toList (n + 2) (node ref (ks₁ ++ m :: ks₂) (cs₁ ++ [c] ++ r' :: cs₂) _) = _ from htl₂,
      show MTree.toList (n + 2) (node ref (ks₁ ++ s.currentItem :: ks₂) (cs₁ ++ c :: r :: cs₂) len) = _ from htl _ r,
      htr, hcur, hrest]
    rw [hrest] at hs hsr
    have hrest' : ∀ a ∈ rest, m < a := (List.pairwise_cons.mp hsr).1
    obtain ⟨-, hCB, hA⟩ := List.pairwise_append.mp hs
    obtain ⟨hC, -, hCB⟩ := List.pairwise_append.mp hCB
    obtain ⟨-, hx, hC⟩ := List.pairwise_append.mp hC
    rw [List.filter_cons_of_neg (by simp), filter_of_gt hrest']
    simp only [List.filter_append]
    rw [filter_of_lt fun a ha => hA a ha _ (by simp), filter_of_lt fun a ha => hC a ha _ (by simp),
      filter_of_gt fun b hb => hCB _ (by simp) b hb, List.filter_cons_of_neg (by simp),
      filter_of_gt fun b hb => (List.pairwise_cons.mp hx).1 b hb]
  · have h1 := hdel (by rw [← hdel']; exact h)
    rw [← hs₁] at h1
    simp [modify] at h1

end Found

theorem removeItemRecursive_spec : ∀ {n : Nat} {t : KeyTree n} {lo : Nat} (fuel : Nat) {s : CategoryTree}, n < fuel →
    1 ≤ lo →
    lo ≤ 2 → s.Owned n t → MTree.Filled 2 4 lo n t → Increasing (MTree.toList n t) → s.undersize = false →
    ∃ s', removeItemRecursive fuel s (root n t) = .ok s' ∧ Removed lo s s' n t
  | 0, t, lo, fuel + 1, s, _, _, _, ho, _, _, hund => by
    refine ⟨s, rfl, t, [], Rearranged.refl ho.rep rfl rfl rfl rfl, rfl, ⟨trivial, fun _ => trivial, ?_⟩, ?_⟩
    · simp [hund]
    · exact fun h => ⟨h, by simp [MTree.toList], hund⟩
  | n + 1, ⟨ref, keys, childs, len⟩, lo, fuel + 1, s, hfuel, hlo1, hlo, ho, hf, hs, hund => by
    obtain ⟨ks₁, ks₂, rfl, hpos, hlt, hge⟩ := exists_position s.currentItem keys
    obtain ⟨cs₁, c, cs₂, rfl, h₁, h₂⟩ := exists_zoom len
    obtain ⟨hne, hk, hr, -⟩ := rep_node.mp ho.rep
    have hroot : root (n + 1) (node ref (ks₁ ++ ks₂) (cs₁ ++ c :: cs₂) len) = ref := rfl
    have hcount : (s.mem ref.addr).count = (ks₁ ++ ks₂).length := by rw [← NodeInstance.length_keyList, hk]
    have htl : MTree.toList (n + 1) (node ref (ks₁ ++ ks₂) (cs₁ ++ c :: cs₂) len) =
        before (MTree.toList n) cs₁ ks₁ ++ (MTree.toList n c ++ after (MTree.toList n) ks₂ cs₂) :=
      interleave_zoom h₁ h₂
    have hs' := hs
    rw [htl] at hs'
    obtain ⟨hsA, hs'', -⟩ := List.pairwise_append.mp hs'
    obtain ⟨hsC, hsB, -⟩ := List.pairwise_append.mp hs''
    have hA := route_before hsA hlt
    obtain ⟨hw, hw', hfc⟩ := id hf
    rw [hroot, removeItemRecursive, if_neg (by simp [hne])]
    simp only [findPos_eq, refnode, hk, hpos]
    split
    · -- the entry is in this node
      rename_i hfound
      obtain ⟨hlt', heq⟩ := hfound
      obtain ⟨k, ks₂, rfl⟩ : ∃ k ks, ks₂ = k :: ks := by
        refine List.exists_cons_of_length_pos ?_
        rw [hcount] at hlt'
        simpa using hlt'
      obtain ⟨r, cs₂, rfl⟩ : ∃ r cs, cs₂ = r :: cs := List.exists_cons_of_length_pos (by simp [h₂])
      obtain rfl : s.currentItem = k := by
        rw [compareNodeKeyUnsafe_eq_zero, NodeInstance.key_eq hk (by simp), List.getElem_append_right (le_refl _)]
          at heq
        simpa using heq
      have hchild : (s.mem ref.addr).child (ks₁.length + 1) = root n r := by
        rw [NodeInstance.child_eq hr (by simp [h₁])]
        simp [h₁, List.getElem_append_right]
      rw [hchild]
      cases n with
      | zero => exact ⟨_, rfl, removed_trgt h₁ ho hlo hf hs⟩
      | succ n =>
        exact removed_successor h₁ ho hlo hf hs hfuel hund fun ho hf hs hund =>
          removeItemRecursive_spec fuel (by omega) (by omega) (le_refl 2) ho hf hs hund
    · -- the entry belongs below the child `c`
      rename_i hfound
      have hnext : ∀ k ks', ks₂ = k :: ks' → s.currentItem < k := by
        rintro k ks' rfl
        refine lt_of_le_of_ne (hge k ks' rfl) fun e => hfound ⟨by rw [hcount]; simp, ?_⟩
        rw [compareNodeKeyUnsafe_eq_zero, NodeInstance.key_eq hk (by simp),
          List.getElem_append_right (le_refl _)]
        simpa using e
      have hB := route_after hsB hnext
      have hchild : (s.mem ref.addr).child ks₁.length = root n c := by
        rw [NodeInstance.child_eq hr (by simp [h₁])]
        simp [h₁]
      rw [hchild]
      obtain ⟨s', hok, c', freed, hre, htc, hocc, hdel⟩ := removeItemRecursive_spec fuel (by omega)
        (by omega) (le_refl 2) ho.zoom.1 (hfc c (by simp)) hsC hund
      rw [hok]
      have hplug : Rearranged s s' (n + 1) (node ref (ks₁ ++ ks₂) (cs₁ ++ c :: cs₂) len)
          (node ref (ks₁ ++ ks₂) (cs₁ ++ c' :: cs₂) (by simpa using len)) freed := hre.plug ho rfl rfl
      obtain ⟨t', freed', hre', htl', hdel', hocc'⟩ := restored_of_undersize (hplug.owned ho) rfl hlo hw
        (by simp at hw ⊢; omega) hw'
        (fun d hd => hfc d (by simp only [List.mem_append, List.mem_cons]; exact hd.imp_right Or.inr)) hocc
      refine ⟨if s'.undersize then s'.removeItemRestore ref ks₁.length else s', ?_, ?_⟩
      · simp only [bind, Except.bind]
        split <;> rfl
      rw [← h₁]
      refine ⟨t', _, hplug.trans hre', ?_, hocc', fun h => ?_⟩
      · rw [htl', htl, show MTree.toList (n + 1) (node ref (ks₁ ++ ks₂) (cs₁ ++ c' :: cs₂) _) = _ from
          interleave_zoom h₁ h₂, htc]
        rw [List.filter_append, List.filter_append, filter_of_lt hA, filter_of_gt hB]
      · obtain ⟨hd1, hd2, hd3⟩ := hdel (by rw [← hdel']; exact h)
        refine ⟨hd1, ?_, by simp [hd3]⟩
        rw [htl]
        simp only [List.mem_append, not_or]
        exact ⟨fun hx => lt_irrefl _ (hA _ hx), hd2, fun hx => lt_irrefl _ (hB _ hx)⟩

/-- What is freed is no longer in the tree. -/
theorem Rearranged.live_eq {s s' : CategoryTree} {n : Nat} {t t' : KeyTree n} {freed : List Nat}
    (h : Rearranged s s' n t t' freed) (ho : s.Owned n t) (hl : s.live = (blocks n t).toFinset) :
    s'.live = (blocks n t').toFinset := by
  have hn := h.perm.nodup_iff.mpr ho.nodup
  ext a
  rw [h.live, hl, Finset.mem_sdiff, List.mem_toFinset, List.mem_toFinset, List.mem_toFinset, ← h.perm.mem_iff,
    List.mem_append]
  constructor
  · rintro ⟨h1, h2⟩
    exact h1.resolve_left h2
  · intro ha
    exact ⟨.inr ha, fun hf => (List.nodup_append.mp hn).2.2 a hf a ha rfl⟩

/-- `remove_tree_safe` takes its entry out of the tree of the category, and a root without keys gives way to its
child. No block is lost. -/
theorem removeTree_spec {s : CategoryTree} {n : Nat} {t : KeyTree n} (h : s.Holds n t) (x : NodeKey) :
    ∃ s', s.removeTree x = .ok s' ∧ s'.answers = s.answers ∧ ∃ (n' : Nat) (t' : KeyTree n'), s'.Holds n' t' ∧
      MTree.toList n' t' = (MTree.toList n t).filter (· ≠ x) ∧
      (s.live = (blocks n t).toFinset → s'.live = (blocks n' t').toFinset) := by
  have ho : ({ s with deleted := false, undersize := false, currentItem := x } : CategoryTree).Owned n t :=
    ⟨h.owned.rep, h.owned.nodup, h.owned.live⟩
  obtain ⟨s', hok, t', freed, hre, htl, hocc, hdel⟩ := removeItemRecursive_spec s.depthBound
    h.owned.lt_depthBound (le_refl 1) (by omega) ho h.filled h.increasing rfl
  have ho' := hre.owned ho
  have hrooti : s'.rooti = root n t' := by rw [hre.rooti, hre.root_eq]; exact h.rooti
  have hs' : Increasing (MTree.toList n t') := by rw [htl]; exact h.increasing.filter _
  have hb' : ∀ a ∈ blocks n t', a < pageCnt * pageSize := fun a ha =>
    h.bounded a (hre.perm.mem_iff.mp (List.mem_append_right _ ha))
  simp only [← h.rooti, depthBound] at hok
  simp only [removeTree, depthBound, hok, bind, Except.bind]
  cases n with
  | zero =>
    have hs'' : s' = { s with deleted := false, undersize := false, currentItem := x } := by
      have hempty : s.rooti.isEmpty = true := by rw [h.rooti]; rfl
      rw [removeItemRecursive, if_pos hempty] at hok
      exact (Except.ok.inj hok).symm
    refine ⟨s', if_neg (by simp [hs'']), hre.answers, 0, t', ⟨ho', hb', hrooti, trivial, hs'⟩, htl, hre.live_eq ho⟩
  | succ n =>
    split
    · obtain ⟨ref, keys, childs, len⟩ := t'
      have hcount := hre.rep.count_eq
      rw [← hrooti] at hcount
      rw [refnode, hcount]
      split
      · -- the root is left with one child and no key
        rename_i h0
        obtain rfl : keys = [] := by simpa [MTree.width] using h0
        obtain ⟨c, rfl⟩ : ∃ c, childs = [c] := List.length_eq_one_iff.mp len
        obtain ⟨-, -, hcs, -⟩ := rep_node.mp hre.rep
        have hchild : (s'.mem s'.rooti.addr).child 0 = root n c := by
          rw [hrooti]
          exact NodeInstance.child_eq hcs (by simp)
        have hoc := ho'.child (c := c) (by simp)
        refine ⟨_, rfl, hre.answers, n, c, ⟨⟨hoc.rep, hoc.nodup, fun a ha => ?_⟩, fun a ha => ?_, hchild, ?_,
          hs'⟩, htl, fun hl => ?_⟩
        · refine Finset.mem_erase.mpr ⟨?_, hoc.live a ha⟩
          have hn := ho'.nodup
          rw [blocks_node] at hn
          rintro rfl
          refine (List.nodup_cons.mp hn).1 (List.mem_flatMap.mpr ⟨c, by simp, ?_⟩)
          rw [hrooti] at ha
          exact ha
        · exact hb' a (by simp [blocks_node, ha])
        · exact (hocc.least.2.2 c (by simp)).mono (by simp)
        · have hn := ho'.nodup
          rw [blocks_node, List.flatMap_cons, List.flatMap_nil, List.append_nil] at hn
          simp only [shmfree]
          rw [hre.live_eq ho hl, blocks_node, List.flatMap_cons, List.flatMap_nil, List.append_nil, List.toFinset_cons,
            hrooti, root_node]
          exact Finset.erase_insert fun h1 => (List.nodup_cons.mp hn).1 (List.mem_toFinset.mp h1)
      · rename_i h0
        exact ⟨_, rfl, hre.answers, n + 1, _, ⟨ho', hb', hrooti, ⟨Nat.pos_of_ne_zero h0, hocc.least.2⟩, hs'⟩, htl,
          hre.live_eq ho⟩
    · rename_i hd
      have hund := (hdel (by simpa using hd)).2.2
      exact ⟨s', rfl, hre.answers, n + 1, t', ⟨ho', hb', hrooti, hocc.full hund, hs'⟩, htl, hre.live_eq ho⟩

end CategoryTree
end NetworkBfd.Smmr
