import NetworkBfd.Smmr.Tree.Guarded
import NetworkBfd.Smmr.Tree.Insert
import NetworkBfd.Smmr.Tree.Remove

/-!
# The operations access live blocks only

On a tree whose blocks are live the guarded operations do what the operations do, so no access is refused:
`addTreeGuarded_eq`, `removeTreeGuarded_eq`, and the same of the searches and the count.
-/

namespace NetworkBfd.Smmr

open Lib KeyTree

/-! ## Slots -/

namespace NodeInstance

variable {nd : NodeInstance} {pos : Nat}

theorem slot_key (h : pos < nd.count) : slot nd.view.keys pos = .ok (nd.key pos) := by
  rw [slot, view, keyList, List.getElem?_map, List.getElem?_range h]
  rfl

theorem slot_child (h : pos ≤ nd.count) : slot nd.view.childs pos = .ok (nd.child pos) := by
  rw [slot, view, childList, List.getElem?_map, List.getElem?_range (by omega)]
  rfl

theorem length_view : nd.view.keys.length = nd.count := length_keyList nd

/-- The test for the entry at a position. -/
theorem view_found {itm : NodeKey} : nd.view.keys[pos]? = some itm ↔ pos < nd.count ∧ nd.key pos = itm := by
  rw [view, keyList, List.getElem?_map]
  by_cases h : pos < nd.count
  · rw [List.getElem?_range h]
    simp [h]
  · rw [List.getElem?_eq_none (by simpa using h)]
    simp [h]

end NodeInstance

namespace CategoryTree

variable {s : CategoryTree} {nodei : NodeInstanceOffset} {n : Nat} {ref : NodeInstanceOffset} {keys : List NodeKey}
  {childs : List (KeyTree n)} {len : childs.length = keys.length + 1}

theorem fetch_eq (h : nodei.addr ∈ s.live) : s.fetch nodei = .ok (s.refnode nodei).view := by
  unfold fetch check
  rw [if_pos h]
  rfl

theorem edit_eq {p : Nat → Prop} [DecidablePred p] {f : NodeInstance → NodeInstance} (h : nodei.addr ∈ s.live)
    (hp : p (s.refnode nodei).count) : s.edit nodei p f = .ok (s.modify nodei f) := by
  unfold edit check
  rw [if_pos ⟨h, hp⟩]
  rfl

theorem position_view (nd : NodeInstance) (itm : NodeKey) : position itm nd.view.keys = findPos nd itm :=
  (findPos_eq nd itm).symm

theorem findPos_le (nd : NodeInstance) (itm : NodeKey) : findPos nd itm ≤ nd.count := by
  rw [findPos, advance]
  exact (List.takeWhile_sublist _).length_le.trans (List.length_range).le

theorem Owned.root_live (h : s.Owned (n + 1) (node ref keys childs len)) : ref.addr ∈ s.live :=
  h.live _ (by simp [blocks_node])

/-- The child at a position. -/
theorem Owned.child_at {pos : Nat} (h : s.Owned (n + 1) (node ref keys childs len))
    (hp : pos ≤ (s.refnode ref).count) : ∃ cs₁ c cs₂, childs = cs₁ ++ c :: cs₂ ∧ cs₁.length = pos ∧
      (s.refnode ref).child pos = root n c := by
  obtain ⟨-, hk, hcs, -⟩ := rep_node.mp h.rep
  have hlt : pos < childs.length := by
    rw [len, ← hk, NodeInstance.length_keyList]
    exact Nat.lt_succ_of_le hp
  refine ⟨childs.take pos, childs[pos], childs.drop (pos + 1), ?_, by simp; omega, ?_⟩
  · rw [← List.drop_eq_getElem_cons hlt, List.take_append_drop]
  · rw [refnode, NodeInstance.child_eq hcs (by simpa using hlt)]
    simp

theorem Owned.count_eq (h : s.Owned (n + 1) (node ref keys childs len)) : (s.refnode ref).count = keys.length :=
  h.rep.count_eq

/-! ## Insertion -/

/-- The recursion writes to live blocks and reads what their counts cover. -/
theorem insertGuarded_eq : ∀ {n : Nat} {t : KeyTree n} {lo : Nat} (fuel : Nat) {s : CategoryTree}, n < fuel → lo ≤ 2 →
    s.Owned n t → MTree.Filled 2 4 lo n t → Increasing (MTree.toList n t) →
    (∀ q ∈ s.answers, q.isBlock = true) →
    insertGuarded fuel s (root n t) = insertItemRecurcive fuel s (root n t)
  | 0, _, _, _ + 1, _, _, _, _, _, _, _ => rfl
  | n + 1, ⟨ref, keys, childs, len⟩, lo, fuel + 1, s, hfuel, hlo, ho, hf, hs, hb => by
    have hroot : root (n + 1) (node ref keys childs len) = ref := rfl
    have hne := (rep_node.mp ho.rep).1
    have hlive := ho.root_live
    have hle := findPos_le (s.refnode ref) s.currentItem
    obtain ⟨cs₁, c, cs₂, rfl, hcs, hchild⟩ := ho.child_at hle
    obtain ⟨hoc, haround, -⟩ := ho.zoom
    have hsc := hs.sublist (sublist_interleave len (by simp : c ∈ cs₁ ++ c :: cs₂))
    have hhi : keys.length ≤ 4 := hf.2.1
    have hfc := hf.2.2
    rw [hroot, insertGuarded, insertItemRecurcive, if_neg (by simp [hne]), if_neg (by simp [hne]), fetch_eq hlive]
    simp only [bind, Except.bind, position_view, NodeInstance.view_found, compareNodeKeyUnsafe_eq_zero]
    split
    · rfl
    rw [NodeInstance.slot_child hle, hchild]
    simp only
    rw [insertGuarded_eq fuel (by omega) (le_refl 2) hoc (hfc c (by simp)) hsc hb]
    refine (insertItemRecurcive_spec fuel (by omega) (le_refl 2) hoc (hfc c (by simp)) hsc hb).bind_congr ?_
    rintro s' ⟨new, hg, -⟩
    -- the node is as it was
    obtain ⟨hal, han⟩ := haround ref.addr (by simp [around])
    have href : s'.refnode ref = s.refnode ref := hg.frame _ hal han
    have hlive' : ref.addr ∈ s'.live := by
      rw [hg.live]
      exact Finset.mem_union_left _ hal
    split
    · rfl
    simp only [fetch_eq hlive', href, NodeInstance.length_view]
    split
    · rename_i hroom
      rw [edit_eq hlive' (by rw [href]; exact ⟨hle, hroom⟩), addItemToFreeNode, if_neg (by simp [hne])]
    · rename_i hroom
      have hfull : (s.refnode ref).count = treeNodecount := by
        rw [ho.count_eq] at hroom ⊢
        simp only [treeNodecount] at hroom ⊢
        omega
      rw [splitNodeGuarded, check, if_pos ⟨hlive', by rw [href, hfull], by rw [← hfull]; exact hle⟩]
      rfl

theorem addTreeGuarded_eq {t : KeyTree n} (h : s.Holds n t) (hb : ∀ q ∈ s.answers, q.isBlock = true) (x : NodeKey) :
    s.addTreeGuarded x = s.addTree x := by
  have ho : ({ s with currentItem := x } : CategoryTree).Owned n t := ⟨h.owned.rep, h.owned.nodup, h.owned.live⟩
  have hrec := insertGuarded_eq s.depthBound h.owned.lt_depthBound (by omega) ho h.filled h.increasing hb
  rw [← h.rooti] at hrec
  exact congrArg (fun m : Except Fault CategoryTree => m >>= fun s => if s.done then .ok s else do
    let x ← s.callocNewNode
    .ok { x.2 with rooti := x.1 }) hrec

/-! ## Removal -/

/-- Two neighbouring children of a node, before and after the separator at `pos - 1`. -/
structure Neighbours (s : CategoryTree) (ref : NodeInstanceOffset) (pos : Nat) (refl refr : NodeInstanceOffset) :
    Prop where
  live : ref.addr ∈ s.live
  live_l : refl.addr ∈ s.live
  live_r : refr.addr ∈ s.live
  apart_l : refl.addr ≠ ref.addr
  apart_r : refr.addr ≠ ref.addr
  apart : refr.addr ≠ refl.addr
  child_l : (s.refnode ref).child (pos - 1) = refl
  child_r : (s.refnode ref).child pos = refr
  pos_pos : 0 < pos
  pos_le : pos ≤ (s.refnode ref).count
  count_le : (s.refnode ref).count ≤ treeNodecount

theorem refnode_modify_of_ne {f : NodeInstance → NodeInstance} (h : nodei.addr ≠ ref.addr) :
    (s.modify ref f).refnode nodei = s.refnode nodei := by
  rw [refnode, refnode, modify]
  exact Function.update_of_ne h _ _

section Neighbours

variable {pos : Nat} {refl refr : NodeInstanceOffset}

theorem moverightGuarded_eq (h : Neighbours s ref pos refl refr) (hl : 0 < (s.refnode refl).count)
    (hr : (s.refnode refr).count < treeNodecount) :
    s.moverightGuarded ref pos = .ok (s.removeItemMoveright ref pos) := by
  have hpos : pos - 1 < (s.refnode ref).count := by
    have h1 := h.pos_pos
    have h2 := h.pos_le
    omega
  rw [moverightGuarded, fetch_eq h.live]
  simp only [bind, Except.bind, NodeInstance.slot_child h.pos_le, NodeInstance.slot_child (Nat.le_of_lt hpos),
    NodeInstance.slot_key hpos, h.child_l, h.child_r, fetch_eq h.live_l, NodeInstance.length_view]
  rw [NodeInstance.slot_child (le_refl _), NodeInstance.slot_key (Nat.sub_lt hl Nat.one_pos)]
  simp only
  rw [edit_eq h.live_r hr]
  simp only
  rw [edit_eq (s := s.modify _ _) h.live (by rw [refnode_modify_of_ne h.apart_r.symm]; exact ⟨hpos, h.count_le⟩)]
  simp only
  rw [edit_eq (s := (s.modify _ _).modify _ _) h.live_l (by
    rw [refnode_modify_of_ne h.apart_l, refnode_modify_of_ne h.apart.symm]
    exact hl), removeItemMoveright]
  simp only [h.child_l, h.child_r]

theorem moveleftGuarded_eq (h : Neighbours s ref pos refl refr) (hl : (s.refnode refl).count < treeNodecount)
    (hr : 0 < (s.refnode refr).count) (hr' : (s.refnode refr).count ≤ treeNodecount) :
    s.moveleftGuarded ref pos = .ok (s.removeItemMoveleft ref pos) := by
  have hpos : pos - 1 < (s.refnode ref).count := by
    have h1 := h.pos_pos
    have h2 := h.pos_le
    omega
  rw [moveleftGuarded, fetch_eq h.live]
  simp only [bind, Except.bind, NodeInstance.slot_child h.pos_le, NodeInstance.slot_child (Nat.le_of_lt hpos),
    NodeInstance.slot_key hpos, h.child_l, h.child_r, fetch_eq h.live_r]
  rw [NodeInstance.slot_child (Nat.zero_le _), NodeInstance.slot_key hr]
  simp only
  rw [edit_eq h.live_l hl]
  simp only
  rw [edit_eq (s := s.modify _ _) h.live (by rw [refnode_modify_of_ne h.apart_l.symm]; exact ⟨hpos, h.count_le⟩)]
  simp only
  rw [edit_eq (s := (s.modify _ _).modify _ _) h.live_r (by
    rw [refnode_modify_of_ne h.apart_r, refnode_modify_of_ne h.apart]
    exact ⟨hr, hr'⟩), removeItemMoveleft]
  simp only [h.child_l, h.child_r]

theorem trgtGuarded_eq (h : ref.addr ∈ s.live) (hpos : pos < (s.refnode ref).count)
    (hc : (s.refnode ref).count ≤ treeNodecount) : s.trgtGuarded ref pos = .ok (s.removeItemTrgt ref pos) := by
  rw [trgtGuarded, edit_eq h ⟨hpos, hc⟩]
  simp only [bind, Except.bind]
  rw [fetch_eq (s := s.modify _ _) h, removeItemTrgt]
  simp only [NodeInstance.length_view]

theorem combineGuarded_eq (h : Neighbours s ref pos refl refr)
    (hc : (s.refnode refl).count + 1 + (s.refnode refr).count ≤ treeNodecount) :
    s.combineGuarded ref pos = .ok (s.removeItemCombine ref pos) := by
  have hpos : pos - 1 < (s.refnode ref).count := by
    have h1 := h.pos_pos
    have h2 := h.pos_le
    omega
  rw [combineGuarded, fetch_eq h.live]
  simp only [bind, Except.bind, NodeInstance.slot_child h.pos_le, NodeInstance.slot_child (Nat.le_of_lt hpos),
    NodeInstance.slot_key hpos, h.child_l, h.child_r, fetch_eq h.live_r]
  rw [NodeInstance.slot_child (Nat.zero_le _)]
  simp only
  rw [edit_eq h.live_l hc]
  simp only
  have hnode : (s.modify refl fun left => NodeInstance.appendItems (s.refnode refr) (s.refnode refr).count 1
      (left.pushBack ((s.refnode ref).key (pos - 1)) ((s.refnode refr).child 0))).refnode ref = s.refnode ref :=
    refnode_modify_of_ne h.apart_l.symm
  rw [trgtGuarded_eq (s := s.modify _ _) h.live (by rw [hnode]; exact hpos) (by rw [hnode]; exact h.count_le),
    removeItemCombine]
  simp only [h.child_l, h.child_r]

end Neighbours

section Restore

variable {ks₁ ks₂ : List NodeKey} {k : NodeKey} {cs₁ cs₂ : List (KeyTree (n + 1))} {l r : KeyTree (n + 1)}
  {len : cs₁.length = ks₁.length ∧ cs₂.length = ks₂.length}

theorem neighbours_of_owned (ho : s.Owned (n + 2) (pairNode ref ks₁ ks₂ k cs₁ cs₂ l r len))
    (hw : (ks₁ ++ k :: ks₂).length ≤ 4) :
    Neighbours s ref (ks₁.length + 1) (root (n + 1) l) (root (n + 1) r) := by
  have hl := ho.child (c := l) (by simp)
  have hr := ho.child (c := r) (by simp)
  obtain ⟨refl, kl, cl, ll⟩ := l
  obtain ⟨refr, kr, cr, lr⟩ := r
  obtain ⟨h1, h2, h3, -⟩ := pair_apart ho
  obtain ⟨h4, h5, -, h6⟩ := pair_read ho
  refine ⟨ho.root_live, hl.root_live, hr.root_live, h1, h2, h3, h4, h5, Nat.succ_pos _, ?_, ?_⟩
  · rw [refnode, h6]
    omega
  · rw [ho.count_eq]
    exact hw

theorem count_child (ho : s.Owned (n + 2) (pairNode ref ks₁ ks₂ k cs₁ cs₂ l r len)) :
    (s.refnode (root (n + 1) l)).count = MTree.width (n + 1) l ∧
      (s.refnode (root (n + 1) r)).count = MTree.width (n + 1) r :=
  ⟨(ho.child (c := l) (by simp)).rep.count_eq, (ho.child (c := r) (by simp)).rep.count_eq⟩

theorem restoreGuarded_eq {keys : List NodeKey} {childs : List (KeyTree (n + 1))} {c : KeyTree (n + 1)}
    {len : childs.length = keys.length + 1} (ho : s.Owned (n + 2) (node ref keys childs len))
    (hch : childs = cs₁ ++ c :: cs₂) (h1 : 1 ≤ keys.length) (hw : keys.length ≤ 4)
    (hf : ∀ d, d ∈ cs₁ ∨ d ∈ cs₂ → MTree.Filled 2 4 2 (n + 1) d) (hc : MTree.width (n + 1) c ≤ 1) :
    s.restoreGuarded ref cs₁.length = .ok (s.removeItemRestore ref cs₁.length) := by
  have hne := (rep_node.mp ho.rep).1
  have ho' : ({ s with undersize := false } : CategoryTree).Owned (n + 2) (node ref keys childs len) :=
    ⟨ho.rep, ho.nodup, ho.live⟩
  have hcount := ho.count_eq
  rw [restoreGuarded, removeItemRestore, if_neg (by simp [hne]), if_neg (by simp [hne])]
  dsimp only
  rw [fetch_eq (s := { s with undersize := false }) ho.root_live]
  simp only [bind, Except.bind]
  rcases List.eq_nil_or_concat' cs₁ with rfl | ⟨cs₁, l, rfl⟩
  · -- the first child: its right neighbour helps
    obtain ⟨k, ks₂, rfl⟩ : ∃ k ks₂, keys = k :: ks₂ := List.exists_cons_of_length_pos h1
    obtain ⟨r, cs₂, rfl⟩ : ∃ r cs₂', cs₂ = r :: cs₂' := by
      refine List.exists_cons_of_length_pos ?_
      rw [hch] at len
      simp at len
      omega
    subst hch
    have hlen : ([] : List (KeyTree (n + 1))).length = ([] : List NodeKey).length ∧ cs₂.length = ks₂.length :=
      ⟨rfl, by simpa using len⟩
    replace ho' : ({ s with undersize := false } : CategoryTree).Owned (n + 2)
      (pairNode ref [] ks₂ k [] cs₂ c r hlen) :=
      ho'
    have hpair := neighbours_of_owned ho' hw
    obtain ⟨hcl, hcr⟩ := count_child ho'
    have hr2 : MTree.width (n + 1) r ≤ 4 := (hf r (by simp)).2.1
    have hchild : (({ s with undersize := false } : CategoryTree).refnode ref).child 1 = root (n + 1) r := hpair.child_r
    simp only [List.length_nil, lt_irrefl, if_false]
    rw [NodeInstance.slot_child (show 1 ≤ (({ s with undersize := false } : CategoryTree).refnode ref).count from
      hpair.pos_le), hchild]
    simp only
    rw [fetch_eq hpair.live_r]
    simp only [NodeInstance.length_view, hcr]
    split
    · rename_i hlt
      simp only [treeNodemin] at hlt
      exact moveleftGuarded_eq hpair (by rw [hcl, treeNodecount]; omega) (by rw [hcr]; omega) (by rw [hcr]; exact hr2)
    · rename_i hlt
      simp only [treeNodemin, treeNodecount] at hlt
      exact combineGuarded_eq hpair (by rw [hcl, hcr, treeNodecount]; omega)
  · -- the left neighbour helps
    obtain ⟨ks₁, ks₂', rfl, hks⟩ : ∃ ks₁ ks₂', keys = ks₁ ++ ks₂' ∧ ks₁.length = cs₁.length := by
      refine ⟨keys.take cs₁.length, keys.drop cs₁.length, (List.take_append_drop _ _).symm, ?_⟩
      rw [hch] at len
      simp at len ⊢
      omega
    rw [hch] at len
    obtain ⟨k, ks₂, rfl⟩ : ∃ k ks₂, ks₂' = k :: ks₂ := by
      refine List.exists_cons_of_length_pos ?_
      simp at len
      omega
    obtain rfl : childs = cs₁ ++ l :: c :: cs₂ := by simpa using hch
    have hlen : cs₁.length = ks₁.length ∧ cs₂.length = ks₂.length := ⟨hks.symm, by simp at len; omega⟩
    replace ho' : ({ s with undersize := false } : CategoryTree).Owned (n + 2)
        (pairNode ref ks₁ ks₂ k cs₁ cs₂ l c hlen) := ho'
    have hpair := neighbours_of_owned ho' hw
    rw [hks] at hpair
    obtain ⟨hcl, hcr⟩ := count_child ho'
    have hl2 : MTree.width (n + 1) l ≤ 4 := (hf l (by simp)).2.1
    have hchild : (({ s with undersize := false } : CategoryTree).refnode ref).child cs₁.length = root (n + 1) l :=
      hpair.child_l
    have hle : cs₁.length ≤ (({ s with undersize := false } : CategoryTree).refnode ref).count :=
      (Nat.le_succ _).trans hpair.pos_le
    simp only [List.length_append, List.length_singleton, Nat.succ_pos, if_true, Nat.add_sub_cancel]
    rw [NodeInstance.slot_child hle, hchild]
    simp only
    rw [fetch_eq hpair.live_l]
    simp only [NodeInstance.length_view, hcl]
    split
    · rename_i hlt
      simp only [treeNodemin] at hlt
      exact moverightGuarded_eq hpair (by rw [hcl]; omega) (by rw [hcr, treeNodecount]; omega)
    · rename_i hlt
      simp only [treeNodemin, treeNodecount] at hlt
      exact combineGuarded_eq hpair (by rw [hcl, hcr, treeNodecount]; omega)

/-- The step after the recursion. -/
theorem restoreGuarded_of_undersize {n : Nat} {keys : List NodeKey} {childs cs₁ cs₂ : List (KeyTree n)} {c : KeyTree n}
    {len : childs.length = keys.length + 1} (ho : s.Owned (n + 1) (node ref keys childs len))
    (hch : childs = cs₁ ++ c :: cs₂) (h1 : 1 ≤ keys.length) (hw : keys.length ≤ 4)
    (hf : ∀ d, d ∈ cs₁ ∨ d ∈ cs₂ → MTree.Filled 2 4 2 n d) (hc : Occupied 2 s.undersize n c) :
    (if s.undersize then s.restoreGuarded ref cs₁.length else .ok s) =
      if s.undersize then .ok (s.removeItemRestore ref cs₁.length) else .ok s := by
  split
  · rename_i hund
    obtain ⟨hn, hthin⟩ := hc.thin hund
    obtain ⟨n, rfl⟩ : ∃ m, n = m + 1 := ⟨n - 1, by omega⟩
    exact restoreGuarded_eq ho hch h1 hw hf hthin
  · rfl

end Restore

/-- The way to the leftmost block. -/
theorem leftmostGuarded_eq : ∀ {n : Nat} {t : KeyTree (n + 1)} (fuel : Nat), n < fuel → s.Owned (n + 1) t →
    MTree.Filled 2 4 1 (n + 1) t →
    ∃ nd, s.leftmost fuel (root (n + 1) t) = .ok nd ∧ 0 < nd.count ∧
      s.leftmostGuarded fuel (root (n + 1) t) = .ok nd.view
  | n, ⟨ref, keys, childs, len⟩, fuel + 1, hfuel, ho, hf => by
    have hroot : root (n + 1) (node ref keys childs len) = ref := rfl
    have hcount := ho.count_eq
    have h1 : 1 ≤ keys.length := hf.1
    obtain ⟨cs₁, c, cs₂, rfl, -, hchild⟩ := ho.child_at (Nat.zero_le _)
    have hoc := ho.child (c := c) (by simp)
    have hfc := hf.2.2 c (by simp)
    rw [hroot, leftmost, leftmostGuarded, fetch_eq ho.root_live]
    simp only [bind, Except.bind]
    rw [NodeInstance.slot_child (Nat.zero_le _), hchild]
    simp only
    rw [hoc.rep.isEmpty_root]
    cases n with
    | zero => exact ⟨_, rfl, by omega, rfl⟩
    | succ m =>
      obtain ⟨nd, h2, h3, h4⟩ := leftmostGuarded_eq (n := m) fuel (by omega) hoc (hfc.mono (by omega))
      exact ⟨nd, h2, h3, h4⟩

/-- The entry is found above other nodes. -/
theorem removeGuarded_successor {cs₁ cs₂ : List (KeyTree (n + 1))} {r : KeyTree (n + 1)} {fuel pos : Nat}
    {len : (cs₁ ++ r :: cs₂).length = keys.length + 1} (ho : s.Owned (n + 2) (node ref keys (cs₁ ++ r :: cs₂) len))
    (hhi : keys.length ≤ 4) (hcs : cs₁.length = pos + 1) (hfuel : n + 1 < fuel)
    (hfc : ∀ d ∈ cs₁ ++ r :: cs₂, MTree.Filled 2 4 2 (n + 1) d) (hs : Increasing (MTree.toList (n + 1) r))
    (hund : s.undersize = false) (ih : ∀ {s : CategoryTree}, s.Owned (n + 1) r → s.undersize = false →
      removeGuarded fuel s (root (n + 1) r) = removeItemRecursive fuel s (root (n + 1) r)) :
    (if (!(root (n + 1) r).isEmpty) = true then do
        let tmpnode ← ({ s with deleted := true } : CategoryTree).leftmostGuarded fuel (root (n + 1) r)
        let key ← slot tmpnode.keys 0
        let s ← ({ s with deleted := true } : CategoryTree).edit ref (fun count => pos < count ∧ count ≤ treeNodecount)
          fun node => node.setKey pos key
        let s := { s with currentItem := key }
        let node ← s.fetch ref
        let child ← slot node.childs (pos + 1)
        let s ← removeGuarded fuel s child
        if s.undersize then s.restoreGuarded ref (pos + 1) else .ok s
      else ({ s with deleted := true } : CategoryTree).trgtGuarded ref pos) =
    (if (!(root (n + 1) r).isEmpty) = true then do
        let tmpnode ← ({ s with deleted := true } : CategoryTree).leftmost fuel (root (n + 1) r)
        let s := ({ s with deleted := true } : CategoryTree).modify ref fun node => node.setKey pos (tmpnode.key 0)
        let s := { s with currentItem := tmpnode.key 0 }
        let s ← removeItemRecursive fuel s ((s.refnode ref).child (pos + 1))
        if s.undersize then .ok (s.removeItemRestore ref (pos + 1)) else .ok s
      else .ok (({ s with deleted := true } : CategoryTree).removeItemTrgt ref pos)) := by
  have hlive := ho.root_live
  have hcount := ho.count_eq
  have hpos : pos < keys.length := by
    simp at len
    omega
  obtain ⟨ks₁, k, ks₂, rfl, rfl⟩ : ∃ ks₁ k ks₂, keys = ks₁ ++ k :: ks₂ ∧ ks₁.length = pos :=
    ⟨keys.take pos, keys[pos], keys.drop (pos + 1), by rw [← List.drop_eq_getElem_cons hpos, List.take_append_drop],
      by simp; omega⟩
  have hor := ho.child (c := r) (by simp)
  obtain ⟨nd, hleft, hnd, hleft'⟩ := leftmostGuarded_eq (s := { s with deleted := true }) (t := r) fuel (by omega)
    ⟨hor.rep, hor.nodup, hor.live⟩ ((hfc r (by simp)).mono (by omega))
  have hroot : (!(root (n + 1) r).isEmpty) = true := by simp [hor.rep.isEmpty_root]
  rw [if_pos hroot, if_pos hroot, hleft, hleft', ok_bind, ok_bind, NodeInstance.slot_key hnd, ok_bind]
  generalize nd.key 0 = m
  rw [edit_eq (s := { s with deleted := true }) hlive ⟨by
      rw [show (({ s with deleted := true } : CategoryTree).refnode ref).count = _ from hcount]
      exact hpos, by
      rw [show (({ s with deleted := true } : CategoryTree).refnode ref).count = _ from hcount]
      exact hhi⟩, ok_bind]
  simp only
  generalize hs₁ : ({ ({ s with deleted := true } : CategoryTree).modify ref (fun node => node.setKey ks₁.length m) with
    currentItem := m } : CategoryTree) = s₁
  have hmem : s₁.mem = Function.update s.mem ref.addr ((s.mem ref.addr).setKey ks₁.length m) := by rw [← hs₁]; rfl
  have hset : Rearranged s s₁ (n + 2) (node ref (ks₁ ++ k :: ks₂) (cs₁ ++ r :: cs₂) len)
      (node ref (ks₁ ++ m :: ks₂) (cs₁ ++ r :: cs₂) (by simpa using len)) [] :=
    Rearranged.setKey ho (by rw [← refnode, hcount]; exact hhi) hmem (by rw [← hs₁]; rfl) (by rw [← hs₁]; rfl)
      (by rw [← hs₁]; rfl)
  have ho₁ := hset.owned ho
  have hund₁ : s₁.undersize = false := by rw [← hs₁]; exact hund
  have hchild : (s₁.refnode ref).child (ks₁.length + 1) = root (n + 1) r := by
    rw [refnode, NodeInstance.child_eq (rep_node.mp hset.rep).2.2.1 (by simp [hcs])]
    simp [hcs]
  rw [fetch_eq ho₁.root_live, ok_bind, NodeInstance.slot_child (by rw [ho₁.count_eq]; simp), hchild, ok_bind]
  have hor₁ := ho₁.child (c := r) (by simp)
  obtain ⟨s', hok, r', freed, hre, -, hocc, -⟩ := removeItemRecursive_spec fuel hfuel (by omega) (le_refl 2) hor₁
    (hfc r (by simp)) hs hund₁
  have hplug : Rearranged s₁ s' (n + 2) (node ref (ks₁ ++ m :: ks₂) (cs₁ ++ r :: cs₂) (by simpa using len))
      (node ref (ks₁ ++ m :: ks₂) (cs₁ ++ r' :: cs₂) (by simpa using len)) freed := hre.plug ho₁ rfl rfl
  rw [ih hor₁ hund₁, hok, ok_bind, ok_bind, ← hcs]
  exact restoreGuarded_of_undersize (hplug.owned ho₁) rfl (by simp; omega) (by simpa using hhi) (fun d hd => hfc d (by
    simp only [List.mem_append, List.mem_cons]
    exact hd.imp_right Or.inr)) hocc

/-- The recursion writes to live blocks and reads what their counts cover. -/
theorem removeGuarded_eq : ∀ {n : Nat} {t : KeyTree n} {lo : Nat} (fuel : Nat) {s : CategoryTree}, n < fuel → 1 ≤ lo →
    lo ≤ 2 → s.Owned n t → MTree.Filled 2 4 lo n t → Increasing (MTree.toList n t) → s.undersize = false →
    removeGuarded fuel s (root n t) = removeItemRecursive fuel s (root n t)
  | 0, _, _, _ + 1, _, _, _, _, _, _, _, _ => rfl
  | n + 1, ⟨ref, keys, childs, len⟩, lo, fuel + 1, s, hfuel, hlo1, hlo, ho, hf, hs, hund => by
    have hroot : root (n + 1) (node ref keys childs len) = ref := rfl
    have hne := (rep_node.mp ho.rep).1
    have hlive := ho.root_live
    have hcount := ho.count_eq
    have h1 : 1 ≤ keys.length := hlo1.trans hf.1
    have hhi : keys.length ≤ 4 := hf.2.1
    have hfc := hf.2.2
    have hle := findPos_le (s.refnode ref) s.currentItem
    rw [hroot, removeGuarded, removeItemRecursive, if_neg (by simp [hne]), if_neg (by simp [hne]), fetch_eq hlive]
    simp only [bind, Except.bind, position_view, NodeInstance.view_found, compareNodeKeyUnsafe_eq_zero]
    have hfound : (findPos (s.refnode ref) s.currentItem < (s.refnode ref).count ∧
        (s.refnode ref).key (findPos (s.refnode ref) s.currentItem) = s.currentItem) ↔
        (findPos (s.refnode ref) s.currentItem < (s.refnode ref).count ∧
        s.currentItem = (s.refnode ref).key (findPos (s.refnode ref) s.currentItem)) := by
      rw [eq_comm (a := s.currentItem)]
    generalize hp : findPos (s.refnode ref) s.currentItem = pos at hle hfound ⊢
    by_cases hf : pos < (s.refnode ref).count ∧ (s.refnode ref).key pos = s.currentItem
    · rw [if_pos hf, if_pos (hfound.mp hf)]
      obtain ⟨hlt, hkey⟩ := hf
      obtain ⟨cs₁, r, cs₂, rfl, hcs, hchild⟩ := ho.child_at (Nat.succ_le_of_lt hlt)
      rw [NodeInstance.slot_child hlt, hchild]
      simp only
      cases n with
      | zero => exact trgtGuarded_eq (s := { s with deleted := true }) hlive hlt (by
          rw [show (({ s with deleted := true } : CategoryTree).refnode ref).count = keys.length from hcount]
          exact hhi)
      | succ n =>
        have hsr := hs.sublist (sublist_interleave len (by simp : r ∈ cs₁ ++ r :: cs₂))
        exact removeGuarded_successor ho hhi hcs (by omega) hfc hsr hund fun ho hund =>
          removeGuarded_eq fuel (by omega) (by omega) (le_refl 2) ho (hfc r (by simp)) hsr hund
    · rw [if_neg hf, if_neg fun h => hf (hfound.mpr h)]
      obtain ⟨cs₁, c, cs₂, rfl, rfl, hchild⟩ := ho.child_at hle
      have hsc := hs.sublist (sublist_interleave len (by simp : c ∈ cs₁ ++ c :: cs₂))
      obtain ⟨s', hok, c', freed, hre, -, hocc, -⟩ := removeItemRecursive_spec fuel (by omega) (by omega) (le_refl 2)
        ho.zoom.1 (hfc c (by simp)) hsc hund
      rw [NodeInstance.slot_child hle, hchild]
      simp only
      rw [removeGuarded_eq fuel (by omega) (by omega) (le_refl 2) ho.zoom.1 (hfc c (by simp)) hsc hund, hok]
      have hplug : Rearranged s s' (n + 1) (node ref keys (cs₁ ++ c :: cs₂) len)
          (node ref keys (cs₁ ++ c' :: cs₂) (by simpa using len)) freed := hre.plug ho rfl rfl
      exact restoreGuarded_of_undersize (hplug.owned ho) rfl h1 hhi (fun d hd => hfc d (by
        simp only [List.mem_append, List.mem_cons]
        exact hd.imp_right Or.inr)) hocc

theorem removeTreeGuarded_eq {t : KeyTree n} (h : s.Holds n t) (x : NodeKey) :
    s.removeTreeGuarded x = s.removeTree x := by
  have ho : ({ s with deleted := false, undersize := false, currentItem := x } : CategoryTree).Owned n t :=
    ⟨h.owned.rep, h.owned.nodup, h.owned.live⟩
  have hrec := removeGuarded_eq s.depthBound h.owned.lt_depthBound (le_refl 1) (by omega) ho h.filled h.increasing rfl
  obtain ⟨s', hok, t', freed, hre, -, -, hdel⟩ := removeItemRecursive_spec s.depthBound h.owned.lt_depthBound
    (le_refl 1) (by omega) ho h.filled h.increasing rfl
  have ho' := hre.owned ho
  have hrooti : s'.rooti = root n t' := by rw [hre.rooti, hre.root_eq]; exact h.rooti
  rw [hok] at hrec
  simp only [← h.rooti, depthBound] at hok hrec
  simp only [removeTree, removeTreeGuarded, depthBound, hok, hrec, bind, Except.bind]
  split
  · cases n with
    | zero =>
      rename_i hd
      have hempty : s.rooti.isEmpty = true := by rw [h.rooti]; rfl
      rw [removeItemRecursive, if_pos hempty] at hok
      rw [← Except.ok.inj hok] at hd
      exact absurd hd Bool.false_ne_true
    | succ n =>
      obtain ⟨ref, keys, childs, len⟩ := t'
      have hlive : s'.rooti.addr ∈ s'.live := by
        rw [hrooti]
        exact ho'.root_live
      rw [fetch_eq hlive]
      simp only [NodeInstance.length_view]
      split
      · rw [NodeInstance.slot_child (Nat.zero_le _)]
      · rfl
  · rfl

/-! ## Search and count -/

section Search

variable {σ : Type} {func : NodeKey → σ → Ret × σ}

theorem searchGuarded_eq (itm : NodeKey) : ∀ {n : Nat} {t : KeyTree n} (fuel : Nat) (u : σ), s.Owned n t →
    s.searchGuarded itm func fuel (root n t) u = s.searchItemRecurcive itm func fuel (root n t) u
  | _, _, 0, _, _ => rfl
  | 0, _, _ + 1, _, _ => rfl
  | n + 1, ⟨ref, keys, childs, len⟩, fuel + 1, u, ho => by
    have hroot : root (n + 1) (node ref keys childs len) = ref := rfl
    have hne := (rep_node.mp ho.rep).1
    have hle := findPos_le (s.refnode ref) itm
    obtain ⟨cs₁, c, cs₂, rfl, -, hchild⟩ := ho.child_at hle
    rw [hroot, searchGuarded, searchItemRecurcive, if_neg (by simp [hne]), if_neg (by simp [hne]),
      fetch_eq ho.root_live]
    simp only [bind, Except.bind, position_view, NodeInstance.view_found, compareNodeKeyUnsafe_eq_zero,
      eq_comm (a := itm)]
    split
    · rename_i hfound
      rw [hfound.2]
    · rw [NodeInstance.slot_child hle, hchild]
      exact searchGuarded_eq itm fuel u (ho.child (by simp))

theorem scanLevelGuarded_eq {nd : NodeInstance} {keyhash : BitVec 32}
    {rec rec' : NodeInstanceOffset → σ → Except Fault (Ret × σ)} (prevPos : Nat) : ∀ (ps : List Nat) (u : σ),
    (∀ pos ∈ ps, pos < nd.count ∧ rec (nd.child pos) = rec' (nd.child pos)) →
    scanLevelGuarded nd.view keyhash func rec prevPos ps u = scanLevel nd keyhash func rec' prevPos ps u
  | [], _, _ => rfl
  | pos :: ps, u, h => by
    obtain ⟨hlt, hrec⟩ := h pos (by simp)
    have ih : ∀ u, scanLevelGuarded nd.view keyhash func rec prevPos ps u =
        scanLevel nd keyhash func rec' prevPos ps u := fun u =>
      scanLevelGuarded_eq prevPos ps u fun p hp => h p (by simp [hp])
    rw [scanLevelGuarded, scanLevel, NodeInstance.slot_key hlt]
    simp only [bind, Except.bind, NodeInstance.slot_child (Nat.le_of_lt hlt), hrec, ih]

theorem searchKeyhashGuarded_eq (keyhash : BitVec 32) : ∀ {n : Nat} {t : KeyTree n} (fuel : Nat) (u : σ), s.Owned n t →
    s.searchKeyhashGuarded keyhash func fuel (root n t) u =
      s.searchItemOnlyKeyhashRecurcive keyhash func fuel (root n t) u
  | _, _, 0, _, _ => rfl
  | 0, _, _ + 1, _, _ => rfl
  | n + 1, ⟨ref, keys, childs, len⟩, fuel + 1, u, ho => by
    have hroot : root (n + 1) (node ref keys childs len) = ref := rfl
    have hne := (rep_node.mp ho.rep).1
    have ih : ∀ pos, pos ≤ (s.refnode ref).count →
        s.searchKeyhashGuarded keyhash func fuel ((s.refnode ref).child pos) =
          s.searchItemOnlyKeyhashRecurcive keyhash func fuel ((s.refnode ref).child pos) := fun pos hpos => by
      obtain ⟨cs₁, c, cs₂, rfl, -, hchild⟩ := ho.child_at hpos
      rw [hchild]
      exact funext fun u => searchKeyhashGuarded_eq keyhash fuel u (ho.child (by simp))
    have hadv : ((s.refnode ref).view.keys.takeWhile fun k => k.keyhash < keyhash).length =
        advance (s.refnode ref) fun k => k.keyhash < keyhash := (advance_eq _ _).symm
    have hle : advance (s.refnode ref) (fun k => k.keyhash < keyhash) ≤ (s.refnode ref).count := by
      rw [advance]
      exact (List.takeWhile_sublist _).length_le.trans (List.length_range).le
    have hhead : (∃ k ∈ (s.refnode ref).view.keys.head?, keyhash < k.keyhash) ↔
        0 < (s.refnode ref).count ∧ keyhash < ((s.refnode ref).key 0).keyhash := by
      rw [List.head?_eq_getElem?]
      constructor
      · rintro ⟨k, hk, hlt⟩
        obtain ⟨h0, rfl⟩ := NodeInstance.view_found.mp hk
        exact ⟨h0, hlt⟩
      · rintro ⟨h0, hlt⟩
        exact ⟨_, NodeInstance.view_found.mpr ⟨h0, rfl⟩, hlt⟩
    rw [hroot, searchKeyhashGuarded, searchItemOnlyKeyhashRecurcive, if_neg (by simp [hne]), if_neg (by simp [hne]),
      fetch_eq ho.root_live]
    simp only [bind, Except.bind, hadv, hhead, NodeInstance.length_view]
    split
    · rw [NodeInstance.slot_child (Nat.zero_le _)]
      exact congrFun (ih 0 (Nat.zero_le _)) u
    · rw [@scanLevelGuarded_eq _ _ _ _ _ (s.searchItemOnlyKeyhashRecurcive keyhash func fuel) _ _ u fun pos hpos => by
        obtain ⟨-, hlt⟩ := List.mem_range'_1.mp hpos
        have hlt' : pos < (s.refnode ref).count := by omega
        exact ⟨hlt', ih pos (Nat.le_of_lt hlt')⟩]
      simp only [NodeInstance.slot_child (le_refl _), NodeInstance.slot_child hle, ih _ (le_refl _), ih _ hle]

end Search

theorem countGuarded_eq : ∀ {n : Nat} {t : KeyTree n} (fuel : Nat), s.Owned n t →
    s.countGuarded fuel (root n t) = s.countNodeRecursiveUnsafe fuel (root n t)
  | _, _, 0, _ => rfl
  | 0, _, _ + 1, _ => rfl
  | n + 1, ⟨ref, keys, childs, len⟩, fuel + 1, ho => by
    have hroot : root (n + 1) (node ref keys childs len) = ref := rfl
    have hne := (rep_node.mp ho.rep).1
    have ih : ∀ pos, pos ≤ (s.refnode ref).count → s.countGuarded fuel ((s.refnode ref).child pos) =
        s.countNodeRecursiveUnsafe fuel ((s.refnode ref).child pos) := fun pos hpos => by
      obtain ⟨cs₁, c, cs₂, rfl, -, hchild⟩ := ho.child_at hpos
      rw [hchild]
      exact countGuarded_eq fuel (ho.child (by simp))
    rw [hroot, countGuarded, countNodeRecursiveUnsafe, if_neg (by simp [hne]), if_neg (by simp [hne]),
      fetch_eq ho.root_live]
    have hloop := foldlM_congr (f := fun (count : BitVec 32) n => do
        let child ← slot (s.refnode ref).view.childs n
        let c ← s.countGuarded fuel child
        .ok (count + c + 1)) (g := fun count n => do
        let c ← s.countNodeRecursiveUnsafe fuel ((s.refnode ref).child n)
        .ok (count + c + 1)) (List.range (s.refnode ref).count) 0 fun pos hpos count => by
      have hle := Nat.le_of_lt (List.mem_range.mp hpos)
      simp only [bind, Except.bind, NodeInstance.slot_child hle, ih pos hle]
    simp only [bind, Except.bind, NodeInstance.length_view, NodeInstance.slot_child (le_refl _),
      ih _ (le_refl _)] at hloop ⊢
    rw [hloop]

end CategoryTree
end NetworkBfd.Smmr
