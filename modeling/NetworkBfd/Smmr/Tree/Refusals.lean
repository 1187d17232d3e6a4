import Mathlib.Algebra.Order.BigOperators.Group.Finset
import NetworkBfd.Smmr.Tree.Ownership

/-!
# Insertions where `shmalloc` fails

How many blocks an insertion asks for is known before it starts: one for each full node at the end of the path of its
entry, and one for a new root if all of the path is full (`demand`). An insertion below takes exactly these answers
(`insertItemRecurcive_course`) and looks at no later one (`addTree_prefix`), so a call whose answers are blocks adds its
entry. A null pointer among them is dereferenced by `_split_node`, or returned by `_calloc_new_node` as whatever the
out-parameters held: then the entry moved up for the new root is in no block (`length_toList_le_live`).
`addTreeSafe_survives_iff` is the equivalence.
-/

namespace NetworkBfd.Smmr

open Lib KeyTree CategoryTree

namespace KeyTree

/-- How many nodes an insertion of `x` splits in the tree, and whether it leaves an entry for its caller to place. -/
def splits (x : NodeKey) : (n : Nat) → KeyTree n → Nat × Bool
  | 0, _ => (0, true)
  | n + 1, t =>
    let pos := position x (MNode.keys t)
    if (MNode.keys t)[pos]? = some x then (0, false)
    else
      let below := ((MNode.childs t)[pos]?.map (splits x n)).getD (0, false)
      if below.2 = true ∧ treeNodecount ≤ (MNode.keys t).length then (below.1 + 1, true)
      else (below.1, false)

/-- How many blocks an insertion of `x` asks for: one for each split, and one for a new root. -/
def demand (x : NodeKey) (n : Nat) (t : KeyTree n) : Nat :=
  (splits x n t).1 + if (splits x n t).2 then 1 else 0

theorem splits_node {x : NodeKey} {n : Nat} {ref : NodeInstanceOffset} {ks₁ ks₂ : List NodeKey}
    {cs₁ cs₂ : List (KeyTree n)}
    {c : KeyTree n} {len : (cs₁ ++ c :: cs₂).length = (ks₁ ++ ks₂).length + 1}
    (hpos : position x (ks₁ ++ ks₂) = ks₁.length) (h₁ : cs₁.length = ks₁.length) :
    splits x (n + 1) (node ref (ks₁ ++ ks₂) (cs₁ ++ c :: cs₂) len) = if ks₂.head? = some x then (0, false)
      else if (splits x n c).2 = true ∧ treeNodecount ≤ (ks₁ ++ ks₂).length then ((splits x n c).1 + 1, true)
      else ((splits x n c).1, false) := by
  rw [splits]
  simp only [hpos]
  rw [List.getElem?_append_right (le_refl _), Nat.sub_self, ← List.head?_eq_getElem?,
    List.getElem?_append_right (le_of_eq h₁), h₁, Nat.sub_self, List.getElem?_cons_zero, Option.map_some,
    Option.getD_some]

/-- The entries of a tree are counted in its blocks. -/
theorem length_toList_eq_sum {mem : Nat → NodeInstance} : ∀ {n : Nat} {t : KeyTree n}, Rep mem n t →
    (MTree.toList n t).length = ((blocks n t).map fun a => (mem a).count).sum
  | 0, _, _ => rfl
  | n + 1, ⟨ref, keys, childs, len⟩, h => by
    obtain ⟨-, h2, -, h4⟩ := rep_node.mp h
    have hroot : (mem ref.addr).count = keys.length := by rw [← NodeInstance.length_keyList, h2]
    have hbelow : (childs.map fun c => (MTree.toList n c).length) =
        childs.map fun c => ((blocks n c).map fun a => (mem a).count).sum :=
      List.map_congr_left fun c hc => length_toList_eq_sum (h4 c hc)
    have hlen : (MTree.toList (n + 1) (node ref keys childs len)).length = _ := (interleave_perm len).length_eq
    rw [hlen, blocks_node, List.length_append, List.length_flatMap, hbelow, List.map_cons, List.sum_cons, hroot]
    rw [List.map_flatMap, List.flatMap_def, List.sum_flatten, List.map_map]
    rfl

end KeyTree

namespace CategoryTree

variable {s s' s'' : CategoryTree}

/-! ## The answers an insertion takes -/

/-- `k` answers were taken, blocks all of them. -/
def Took (k : Nat) (s s' : CategoryTree) : Prop :=
  ∃ used, s.answers = used ++ s'.answers ∧ used.length = k ∧ ∀ q ∈ used, q.isBlock = true

theorem Took.zero (h : s'.answers = s.answers) : Took 0 s s' := ⟨[], h.symm, rfl, by simp⟩

theorem Took.trans {j k : Nat} (h : Took j s s') (h' : Took k s' s'') : Took (j + k) s s'' := by
  obtain ⟨used, hans, hlen, hb⟩ := h
  obtain ⟨used', hans', hlen', hb'⟩ := h'
  refine ⟨used ++ used', by rw [hans, hans', List.append_assoc], by rw [List.length_append, hlen, hlen'], ?_⟩
  exact fun q hq => (List.mem_append.mp hq).elim (hb q) (hb' q)

theorem Took.take {j k : Nat} (h : Took j s s') : s.answers.take (j + k) = s.answers.take j ++ s'.answers.take k := by
  obtain ⟨used, hans, rfl, -⟩ := h
  rw [hans, List.take_length_add_append, List.take_left]

theorem Took.isBlock {k : Nat} (h : Took k s s') : ∀ q ∈ s.answers.take k, q.isBlock = true := by
  obtain ⟨used, hans, rfl, hb⟩ := h
  rwa [hans, List.take_left]

/-- The ways to fail: a broken promise, or a null pointer among the first `k` answers. -/
def Refused (k : Nat) (s : CategoryTree) (e : Fault) : Prop :=
  e = .contract ∨ e = .segv ∧ ∃ q ∈ s.answers.take k, q.isBlock = false

theorem Refused.mono {j k : Nat} (hk : j ≤ k) {e : Fault} (h : Refused j s e) : Refused k s e :=
  h.imp_right fun ⟨he, q, hq, hb⟩ => ⟨he, q, (List.take_sublist_take_left hk).mem hq, hb⟩

theorem Refused.after {j k : Nat} {e : Fault} (ht : Took j s s') (h : Refused k s' e) : Refused (j + k) s e :=
  h.imp_right fun ⟨he, q, hq, hb⟩ => ⟨he, q, by rw [ht.take]; exact List.mem_append_right _ hq, hb⟩

/-- `k` blocks were taken, and of the old ones only those in `own` were written. -/
structure Course (own : List Nat) (k : Nat) (s s' : CategoryTree) : Prop where
  took : Took k s s'
  live : s.live ⊆ s'.live
  frame : ∀ a ∈ s.live, a ∉ own → s'.mem a = s.mem a

/-- An answer is a block, or a null pointer that changes nothing. -/
theorem shmalloc_course : Yields Contract s.shmalloc fun r => r.2.1 = true ∧ Course [] 1 s r.2.2 ∧ r.1.addr ∉ s.live ∨
    r.2.1 = false ∧ s.answers = .null r.1 :: r.2.2.answers ∧ r.2.2 = { s with answers := r.2.2.answers } := by
  rw [shmalloc]
  split
  · rename_i ref junk rest hans
    split
    · rename_i hfresh
      refine .inl ⟨rfl, ⟨⟨[.block ref junk], hans, rfl, by simp [ShmAnswer.isBlock]⟩, ?_, ?_⟩, hfresh.2.2.2⟩
      · exact Finset.subset_insert _ _
      · exact fun a ha _ => Function.update_of_ne (fun e : a = ref.addr => hfresh.2.2.2 (e ▸ ha)) _ _
    · rfl
  · rename_i ref rest hans
    exact .inr ⟨rfl, hans, rfl⟩
  · rfl

theorem splitNode_course {nodei : NodeInstanceOffset} (hne : nodei.isEmpty = false) (pos : Nat) :
    Yields (Refused 1 s) (s.splitNode nodei pos) fun s' => Course [nodei.addr] 1 s s' := by
  rw [splitNode, if_neg (by simp [hne])]
  rcases shmalloc_course.cases with ⟨⟨newnodei, notnull, s₁⟩, hrun, ⟨hnn, hc, hfresh⟩ | ⟨hnn, hans, -⟩⟩ | ⟨e, hrun, he⟩
  · obtain rfl : notnull = true := hnn
    rw [hrun]
    refine ⟨hc.took, hc.live, fun a ha hn => ?_⟩
    have hnew : a ≠ newnodei.addr := fun e => hfresh (e ▸ ha)
    simp only [modify, Function.update_of_ne hnew, Function.update_of_ne (show a ≠ nodei.addr by simpa using hn)]
    exact hc.frame a ha (by simp)
  · obtain rfl : notnull = false := hnn
    rw [hrun]
    exact .inr ⟨rfl, .null newnodei, by rw [hans]; simp, rfl⟩
  · rw [hrun]
    exact .inl he

/-- An insertion below takes one block for each node it splits. -/
theorem insertItemRecurcive_course : ∀ {n : Nat} {t : KeyTree n} (fuel : Nat) {s : CategoryTree}, n < fuel →
    s.Owned n t →
    Yields (Refused (splits s.currentItem n t).1 s) (insertItemRecurcive fuel s (root n t)) fun s' =>
      Course (blocks n t) (splits s.currentItem n t).1 s s' ∧ s'.done = !(splits s.currentItem n t).2
  | 0, t, fuel + 1, s, _, _ => ⟨⟨Took.zero rfl, Finset.Subset.refl _, fun _ _ _ => rfl⟩, rfl⟩
  | n + 1, ⟨ref, keys, childs, len⟩, fuel + 1, s, hfuel, ho => by
    obtain ⟨ks₁, ks₂, rfl, hpos, -, -⟩ := exists_position s.currentItem keys
    obtain ⟨cs₁, c, cs₂, rfl, h₁, h₂⟩ := exists_zoom len
    obtain ⟨hne, hk, hr, -⟩ := rep_node.mp ho.rep
    obtain ⟨hoc, haround, -⟩ := ho.zoom
    have hcount : (s.mem ref.addr).count = (ks₁ ++ ks₂).length := by rw [← NodeInstance.length_keyList, hk]
    have hfound : (ks₁.length < (s.mem ref.addr).count ∧
        compareNodeKeyUnsafe ((s.mem ref.addr).key ks₁.length) s.currentItem = 0) ↔ ks₂.head? = some s.currentItem := by
      rw [compareNodeKeyUnsafe_eq_zero, hcount]
      cases ks₂ with
      | nil => simp
      | cons k ks =>
        rw [NodeInstance.key_eq hk (by simp), List.getElem_append_right (le_refl _)]
        simp
    have hchild : (s.mem ref.addr).child ks₁.length = root n c := by
      rw [NodeInstance.child_eq hr (by simp [h₁])]
      simp [h₁]
    have hroot : root (n + 1) (node ref (ks₁ ++ ks₂) (cs₁ ++ c :: cs₂) len) = ref := rfl
    have hown : ∀ a, a ∉ blocks (n + 1) (node ref (ks₁ ++ ks₂) (cs₁ ++ c :: cs₂) len) →
      a ∉ blocks n c ∧ a ≠ ref.addr := by
      refine fun a ha => ⟨fun h => ha (blocks_zoom.mem_iff.mpr (List.mem_append_right _ h)), ?_⟩
      rintro rfl
      exact ha (by rw [blocks_node]; exact List.mem_cons_self)
    rw [insertItemRecurcive, hroot, if_neg (by simp [hne]), splits_node hpos h₁]
    simp only [findPos_eq, refnode, hk, hpos, hfound]
    by_cases hx : ks₂.head? = some s.currentItem
    · simp only [if_pos hx]
      exact ⟨⟨Took.zero rfl, Finset.Subset.refl _, fun _ _ _ => rfl⟩, rfl⟩
    · simp only [if_neg hx, hchild]
      rcases (insertItemRecurcive_course fuel (by omega) hoc).cases with ⟨s', hrun, hc, hdone⟩ | ⟨e, hrun, he⟩
      · have hroom : (s'.mem ref.addr).count = (ks₁ ++ ks₂).length := by
          obtain ⟨hl, hn⟩ := haround ref.addr (by simp [around])
          rw [hc.frame _ hl hn, hcount]
        have hframe : ∀ a ∈ s.live, a ∉ blocks (n + 1) (node ref (ks₁ ++ ks₂) (cs₁ ++ c :: cs₂) len) →
            s'.mem a = s.mem a := fun a ha hn => hc.frame a ha (hown a hn).1
        rw [hrun]
        change Yields _ (if s'.done = true then _ else _) _
        cases hup : (splits s.currentItem n c).2 with
        | false =>
          rw [hup] at hdone
          simp only [hdone, Bool.not_false, if_true, Bool.false_eq_true, false_and, if_false]
          exact ⟨⟨hc.took, hc.live, hframe⟩, hdone⟩
        | true =>
          rw [hup] at hdone
          simp only [hdone, Bool.not_true, Bool.false_eq_true, if_false, true_and, hroom]
          by_cases hfull : treeNodecount ≤ (ks₁ ++ ks₂).length
          · -- the node is split
            simp only [if_neg (Nat.not_lt.mpr hfull), if_pos hfull]
            rcases (splitNode_course (s := s') hne ks₁.length).cases with ⟨s'', hrun', hc'⟩ | ⟨e, hrun', he⟩
            · rw [hrun']
              refine ⟨⟨hc.took.trans hc'.took, hc.live.trans hc'.live, fun a ha hn => ?_⟩, rfl⟩
              rw [← hframe a ha hn]
              exact hc'.frame a (hc.live ha) (by simpa using (hown a hn).2)
            · rw [hrun']
              exact he.after hc.took
          · -- there is room in the node
            simp only [if_pos (Nat.lt_of_not_le hfull), if_neg hfull]
            refine ⟨⟨?_, ?_, fun a ha hn => ?_⟩, rfl⟩
            · obtain ⟨used, hans, hlen, hb⟩ := hc.took
              exact ⟨used, by simpa [addItemToFreeNode, hne, modify] using hans, hlen, hb⟩
            · simpa [addItemToFreeNode, hne, modify] using hc.live
            · rw [← hframe a ha hn]
              simp [addItemToFreeNode, hne, modify, Function.update_of_ne (hown a hn).2]
      · rw [hrun]
        refine Refused.mono ?_ he
        split
        · exact Nat.le_succ _
        · exact le_refl _

/-! ## The answers after those -/

/-- `s` with other answers to come. -/
def given (s : CategoryTree) (answers : List ShmAnswer) : CategoryTree := { s with answers := answers }

theorem shmalloc_prefix {ref : NodeInstanceOffset} {notnull : Bool} (h : s.shmalloc = .ok (ref, notnull, s')) :
    ∃ used, s.answers = used ++ s'.answers ∧
      ∀ rest, (s.given (used ++ rest)).shmalloc = .ok (ref, notnull, s'.given rest) := by
  rw [shmalloc] at h
  split at h
  · rename_i ref' junk rest hans
    split at h
    · rename_i hfresh
      obtain ⟨rfl, hr⟩ := Prod.mk.inj (Except.ok.inj h)
      obtain ⟨rfl, rfl⟩ := Prod.mk.inj hr
      exact ⟨[.block ref' junk], hans, fun rest => if_pos hfresh⟩
    · cases h
  · rename_i ref' rest hans
    obtain ⟨rfl, hr⟩ := Prod.mk.inj (Except.ok.inj h)
    obtain ⟨rfl, rfl⟩ := Prod.mk.inj hr
    exact ⟨[.null ref'], hans, fun rest => rfl⟩
  · cases h

theorem splitNode_prefix {nodei : NodeInstanceOffset} {pos : Nat} (h : s.splitNode nodei pos = .ok s') :
    ∃ used, s.answers = used ++ s'.answers ∧
      ∀ rest, (s.given (used ++ rest)).splitNode nodei pos = .ok (s'.given rest) := by
  rw [splitNode] at h
  split at h
  · rename_i hne
    cases h
    exact ⟨[], rfl, fun rest => if_pos hne⟩
  · rename_i hne
    obtain ⟨⟨newnodei, notnull, s₁⟩, hrun, h⟩ := bind_eq_ok.mp h
    obtain ⟨used, hans, hlater⟩ := shmalloc_prefix hrun
    cases notnull with
    | false => cases h
    | true =>
      cases h
      refine ⟨used, hans, fun rest => ?_⟩
      rw [splitNode, if_neg hne, hlater]
      rfl

theorem insertItemRecurcive_prefix : ∀ (fuel : Nat) {s s' : CategoryTree} {nodei : NodeInstanceOffset},
    insertItemRecurcive fuel s nodei = .ok s' → ∃ used, s.answers = used ++ s'.answers ∧
      ∀ rest, insertItemRecurcive fuel (s.given (used ++ rest)) nodei = .ok (s'.given rest)
  | fuel + 1, s, s', nodei, h => by
    rw [insertItemRecurcive] at h
    split at h
    · rename_i hne
      cases h
      exact ⟨[], rfl, fun rest => if_pos hne⟩
    · rename_i hne
      dsimp only at h
      split at h
      · rename_i hfound
        cases h
        refine ⟨[], rfl, fun rest => ?_⟩
        rw [insertItemRecurcive, if_neg hne]
        exact if_pos hfound
      · rename_i hfound
        obtain ⟨s₁, hrun, h⟩ := bind_eq_ok.mp h
        obtain ⟨used, hans, hlater⟩ := insertItemRecurcive_prefix fuel hrun
        split at h
        · rename_i hdone
          cases h
          refine ⟨used, hans, fun rest => ?_⟩
          rw [insertItemRecurcive, if_neg hne]
          exact (if_neg hfound).trans (bind_eq_ok.mpr ⟨_, hlater rest, if_pos hdone⟩)
        · rename_i hdone
          split at h
          · rename_i hroom
            cases h
            refine ⟨used, ?_, fun rest => ?_⟩
            · simpa [addItemToFreeNode, hne, modify] using hans
            · rw [insertItemRecurcive, if_neg hne]
              refine (if_neg hfound).trans
                (bind_eq_ok.mpr ⟨_, hlater rest, (if_neg hdone).trans ((if_pos hroom).trans ?_)⟩)
              simp only [addItemToFreeNode, if_neg hne]
              rfl
          · rename_i hroom
            obtain ⟨s₂, hsplit, h⟩ := bind_eq_ok.mp h
            cases h
            obtain ⟨used', hans', hlater'⟩ := splitNode_prefix hsplit
            refine ⟨used ++ used', by rw [hans, hans', List.append_assoc], fun rest => ?_⟩
            rw [insertItemRecurcive, if_neg hne, List.append_assoc]
            exact (if_neg hfound).trans (bind_eq_ok.mpr ⟨_, hlater (used' ++ rest), (if_neg hdone).trans
              ((if_neg hroom).trans (bind_eq_ok.mpr ⟨_, hlater' rest, rfl⟩))⟩)

/-- The insertion of an entry looks at the answers it takes only. -/
theorem addTree_prefix {x : NodeKey} (h : s.addTree x = .ok s') : ∃ used, s.answers = used ++ s'.answers ∧
    ∀ rest, (s.given (used ++ rest)).addTree x = .ok (s'.given rest) := by
  rw [addTree] at h
  obtain ⟨s₁, hrun, h⟩ := bind_eq_ok.mp h
  obtain ⟨used, hans, hlater⟩ := insertItemRecurcive_prefix _ hrun
  split at h
  · rename_i hdone
    cases h
    exact ⟨used, hans, fun rest => bind_eq_ok.mpr ⟨_, hlater rest, if_pos hdone⟩⟩
  · rename_i hdone
    obtain ⟨⟨rooti, s₂⟩, hroot, h⟩ := bind_eq_ok.mp h
    cases h
    rw [callocNewNode] at hroot
    obtain ⟨⟨newnodei, notnull, s₃⟩, hnew, hroot⟩ := bind_eq_ok.mp hroot
    obtain ⟨used', hans', hlater'⟩ := shmalloc_prefix hnew
    have hroot' : ∀ rest, (s₁.given (used' ++ rest)).callocNewNode = .ok (rooti, s₂.given rest) ∧
        s₂.answers = s₃.answers := by
      intro rest
      rw [callocNewNode, hlater']
      cases notnull <;> cases hroot <;> exact ⟨rfl, rfl⟩
    refine ⟨used ++ used', ?_, fun rest => ?_⟩
    · rw [List.append_assoc, (hroot' []).2, ← hans']
      exact hans
    · rw [List.append_assoc]
      exact bind_eq_ok.mpr ⟨_, hlater _, (if_neg hdone).trans (bind_eq_ok.mpr ⟨_, (hroot' rest).1, rfl⟩)⟩

/-! ## Where the entry goes -/

/-- A tree in live blocks has no more entries than these count. -/
theorem length_toList_le_live {n : Nat} {t : KeyTree n} (ho : s.Owned n t) :
    (MTree.toList n t).length ≤ ∑ a ∈ s.live, (s.mem a).count := by
  rw [length_toList_eq_sum ho.rep, ← List.sum_toFinset _ ho.nodup]
  exact Finset.sum_le_sum_of_subset fun a ha => ho.live a (List.mem_toFinset.mp ha)

theorem length_eq_of_adds {x : NodeKey} {L L₁ L₂ : List NodeKey} (h : Adds x L L₁) (h' : Adds x L L₂) :
    L₁.length = L₂.length :=
  ((List.perm_ext_iff_of_nodup h.1.nodup h'.1.nodup).mpr fun y => (h.2 y).trans (h'.2 y).symm).length_eq

theorem Holds.given {n : Nat} {t : KeyTree n} (h : s.Holds n t) (answers : List ShmAnswer) :
    (s.given answers).Holds n t :=
  ⟨⟨h.owned.rep, h.owned.nodup, h.owned.live⟩, h.bounded, h.rooti, h.filled, h.increasing⟩

/-- The new root is an answer, or whatever a null pointer leaves. -/
theorem callocNewNode_course : Yields Contract s.callocNewNode fun p => Took 1 s p.2 ∨
    (∃ ref, s.answers = .null ref :: p.2.answers) ∧ p.2.mem = s.mem ∧ p.2.live = s.live := by
  rw [callocNewNode]
  refine shmalloc_course.bind ?_
  rintro ⟨ref, notnull, s₁⟩ (⟨hnn, hc, -⟩ | ⟨hnn, hans, hs⟩)
  · obtain rfl : notnull = true := hnn
    exact .inl hc.took
  · obtain rfl : notnull = false := hnn
    refine .inr ⟨⟨ref, hans⟩, ?_, ?_⟩ <;> exact hs ▸ rfl

/-- `s` with an entry to place. -/
def placing (s : CategoryTree) (x : NodeKey) : CategoryTree := { s with currentItem := x }

theorem addTree_eq (x : NodeKey) : s.addTree x = insertItemRecurcive s.depthBound (s.placing x) s.rooti >>= fun s₁ =>
    if s₁.done then .ok s₁ else s₁.callocNewNode >>= fun p => .ok { p.2 with rooti := p.1 } := rfl

theorem Holds.placing {n : Nat} {t : KeyTree n} (h : s.Holds n t) (x : NodeKey) : (s.placing x).Owned n t :=
  ⟨h.owned.rep, h.owned.nodup, h.owned.live⟩

theorem insert_placing_course {n : Nat} {t : KeyTree n} (h : s.Holds n t) (x : NodeKey) :
    Yields (Refused (splits x n t).1 s) (insertItemRecurcive s.depthBound (s.placing x) s.rooti) fun s₁ =>
      Took (splits x n t).1 s s₁ ∧ s₁.done = !(splits x n t).2 := by
  have hcourse := insertItemRecurcive_course s.depthBound h.owned.lt_depthBound (h.placing x)
  rw [← h.rooti] at hcourse
  exact hcourse.mono fun s₁ hs₁ => ⟨hs₁.1.took, hs₁.2⟩

/-- Where the answers that a call asks for are blocks, it takes them and returns. -/
theorem addTree_course {n : Nat} {t : KeyTree n} (h : s.Holds n t) (x : NodeKey)
    (hb : ∀ q ∈ s.answers.take (demand x n t), q.isBlock = true) (hpromise : s.addTree x ≠ .error .contract) :
    ∃ s', s.addTree x = .ok s' ∧ Took (demand x n t) s s' := by
  rw [demand] at hb ⊢
  rw [addTree_eq] at hpromise ⊢
  rcases (insert_placing_course h x).cases with ⟨s₁, hrun, htook, hdone⟩ | ⟨e, hrun, rfl | ⟨-, q, hq, hnull⟩⟩
  · rw [hrun] at hpromise ⊢
    change (if s₁.done = true then _ else _) ≠ _ at hpromise
    change ∃ s', (if s₁.done = true then _ else _) = _ ∧ _
    cases hup : (splits x n t).2 with
    | false =>
      rw [hup] at hdone
      exact ⟨s₁, if_pos hdone, htook⟩
    | true =>
      rw [hup] at hb hdone
      rw [if_neg (by simp [hdone])] at hpromise ⊢
      rcases callocNewNode_course.cases with ⟨p, hroot, htook' | ⟨⟨ref, hnull⟩, -⟩⟩ | ⟨e, hroot, rfl⟩
      · rw [hroot]
        exact ⟨_, rfl, htook.trans htook'⟩
      · have hfirst : ShmAnswer.null ref ∈ s.answers.take ((splits x n t).1 + 1) := by
          rw [htook.take, hnull]
          exact List.mem_append_right _ List.mem_cons_self
        exact absurd (hb _ hfirst) Bool.false_ne_true
      · exact absurd (congrArg (· >>= _) hroot) hpromise
  · exact absurd (congrArg (· >>= _) hrun) hpromise
  · refine absurd (hb q ?_) (by simp [hnull])
    exact (List.take_sublist_take_left (Nat.le_add_right _ _)).mem hq

/-- A call whose answers are blocks adds its entry. -/
theorem addTree_of_blocks {n : Nat} {t : KeyTree n} (h : s.Holds n t) (x : NodeKey)
    (hb : ∀ q ∈ s.answers.take (demand x n t), q.isBlock = true) (hpromise : s.addTree x ≠ .error .contract) :
    ∃ (s' : CategoryTree) (n' : Nat) (t' : KeyTree n'), s.addTree x = .ok s' ∧ s'.Holds n' t' ∧
      Adds x (MTree.toList n t) (MTree.toList n' t') := by
  obtain ⟨s', hrun, used, hans, -, hused⟩ := addTree_course h x hb hpromise
  obtain ⟨used', hans', hlater⟩ := addTree_prefix hrun
  obtain rfl : used = used' := List.append_cancel_right (hans.symm.trans hans')
  have hspec := addTree_spec (h.given (used ++ [])) (by simpa [CategoryTree.given] using hused) x
  rw [hlater] at hspec
  obtain ⟨n', t', ht', hadds, -⟩ := hspec
  exact ⟨s', n', t', hrun, ht'.given s'.answers, hadds⟩

/-- A call after which the entry is in a tree of live blocks has got the blocks it asks for. -/
theorem blocks_of_addTree {n n' : Nat} {t : KeyTree n} {t' : KeyTree n'} (h : s.Holds n t) {x : NodeKey}
    (hlive : s.live = (blocks n t).toFinset) (hrun : s.addTree x = .ok s') (h' : s'.Owned n' t')
    (hadds : Adds x (MTree.toList n t) (MTree.toList n' t')) :
    ∀ q ∈ s.answers.take (demand x n t), q.isBlock = true := by
  rw [addTree_eq] at hrun
  obtain ⟨s₁, hinsert, hrun⟩ := bind_eq_ok.mp hrun
  have hcourse := insert_placing_course h x
  rw [hinsert] at hcourse
  obtain ⟨⟨used, hans, hlen, hused⟩, hdone⟩ := hcourse
  have htook : Took (splits x n t).1 s s₁ := ⟨used, hans, hlen, hused⟩
  rw [demand]
  cases hup : (splits x n t).2 with
  | false => exact htook.isBlock
  | true =>
    rw [hup] at hdone
    rw [if_neg (by simp [hdone])] at hrun
    obtain ⟨p, hroot, hp⟩ := bind_eq_ok.mp hrun
    cases hp
    have hnew := @callocNewNode_course s₁
    rw [hroot] at hnew
    rcases hnew with htook' | ⟨-, hmem, hlive'⟩
    · exact (htook.trans htook').isBlock
    · -- the entry that was moved up is in no live block
      obtain ⟨used', hans', hlater⟩ := insertItemRecurcive_prefix _ hinsert
      obtain rfl : used = used' := List.append_cancel_right (hans.symm.trans hans')
      have hspec := insertItemRecurcive_spec (s := (s.placing x).given (used ++ [])) s.depthBound
        h.owned.lt_depthBound (by omega)
        ⟨h.owned.rep, h.owned.nodup, h.owned.live⟩ h.filled h.increasing (by simpa [CategoryTree.given] using hused)
      rw [← h.rooti, hlater] at hspec
      obtain ⟨new, hg, hins⟩ := hspec
      cases hins with
      | kept t₁ hdone' => exact absurd (hdone'.symm.trans hdone) (by simp)
      | split l r _ _ _ hrepl hrepr hperm _ _ hadds' =>
        have hall : s₁.live = (blocks n l ++ blocks n r).toFinset := by
          have := hg.live
          rw [List.toFinset_eq_of_perm _ _ hperm, List.toFinset_append, Finset.union_comm, ← hlive]
          exact this
        have hnodup : (blocks n l ++ blocks n r).Nodup :=
          hperm.nodup_iff.mpr (hg.owned ⟨h.owned.rep, h.owned.nodup, h.owned.live⟩).1
        have hle := length_toList_le_live h'
        have hlen := length_eq_of_adds hadds hadds'
        simp only [hmem, hlive', hall] at hle
        rw [List.sum_toFinset _ hnodup, List.map_append, List.sum_append] at hle
        have hl := length_toList_eq_sum hrepl
        have hr := length_toList_eq_sum hrepr
        simp only [List.length_append, List.length_cons] at hlen
        simp only [CategoryTree.given] at hl hr
        omega

end CategoryTree

namespace TreeInstance

/-- The call adds the entry and returns `RET_OK`, or returns an error and leaves the tree; either way `rooti` and the
child offsets refer to live blocks. -/
def SurvivesAdd (inst : TreeInstance) (c : Fin categoryCnt) {n : Nat} (t : KeyTree n) (itm : NodeKey) : Prop :=
  ∃ r inst', inst.addTreeSafe itm = .ok (r, inst') ∧
    (r = .ok ∧ (∃ (n' : Nat) (t' : KeyTree n'), (inst' c).Holds n' t' ∧
        Adds itm (MTree.toList n t) (MTree.toList n' t')) ∨
      r ≠ .ok ∧ (inst' c).Holds n t)

variable {inst : TreeInstance} {itm : NodeKey} {c : Fin categoryCnt} {n : Nat} {t : KeyTree n}

/-- The call survives exactly if the answers it asks for are blocks. -/
theorem addTreeSafe_survives_iff (hc : getCategoryId itm.keyhash = some c) (h : (inst c).Holds n t)
    (hlive : (inst c).live = (blocks n t).toFinset) (hpromise : inst.addTreeSafe itm ≠ .error .contract) :
    inst.SurvivesAdd c t itm ↔ ∀ q ∈ (inst c).answers.take (demand itm n t), q.isBlock = true := by
  have hcall : inst.addTreeSafe itm = (inst c).addTree itm >>= fun s => .ok (.ok, Function.update inst c s) := by
    rw [addTreeSafe, hc]
  rw [SurvivesAdd, hcall]
  constructor
  · rintro ⟨r, inst', hrun, hleft⟩
    obtain ⟨s', hadd, hret⟩ := bind_eq_ok.mp hrun
    cases hret
    rcases hleft with ⟨-, n', t', h', hadds⟩ | ⟨hr, -⟩
    · rw [Function.update_self] at h'
      exact blocks_of_addTree h hlive hadd h'.owned hadds
    · exact absurd rfl hr
  · intro hb
    obtain ⟨s', n', t', hadd, h', hadds⟩ := addTree_of_blocks h itm hb fun he => hpromise (by rw [hcall, he]; rfl)
    refine ⟨.ok, Function.update inst c s', by rw [hadd]; rfl, .inl ⟨rfl, n', t', ?_, hadds⟩⟩
    rw [Function.update_self]
    exact h'

/-- The root that four entries fill. -/
def fullRoot : KeyTree 1 :=
  KeyTree.node ⟨0, 1, 168⟩ [⟨4, 1, 1⟩, ⟨4, 1, 2⟩, ⟨4, 1, 3⟩, ⟨4, 1, 4⟩] [(), (), (), (), ()] rfl

/-- Trees of a full root, where `shmalloc` answers as given. -/
def fullRootsWith (answers : List ShmAnswer) : TreeInstance := fun _ =>
  ⟨fun _ => ⟨4, Vector.replicate _ default, #v[⟨4, 1, 1⟩, ⟨4, 1, 2⟩, ⟨4, 1, 3⟩, ⟨4, 1, 4⟩]⟩, {131240}, answers,
    ⟨0, 1, 168⟩, default, default, false, false, false⟩

theorem blocks_fullRoot : blocks 1 fullRoot = [131240] := by decide +kernel

theorem fullRootsWith_holds (answers : List ShmAnswer) : (fullRootsWith answers 0).Holds 1 fullRoot := by
  have hrep : Rep (fullRootsWith answers 0).mem 1 fullRoot := rep_node.mpr ⟨rfl, rfl, rfl, fun _ _ => trivial⟩
  refine ⟨⟨hrep, by decide +kernel, fun a ha => ?_⟩, by decide +kernel, rfl, ?_, by decide +kernel⟩
  · rwa [blocks_fullRoot, ← List.mem_toFinset] at ha
  · exact ⟨by decide, by decide, fun _ _ => trivial⟩

/-- A fifth entry asks for a block for the split and for one for the new root. -/
theorem addTreeSafe_survives_iff_full :
    (fullRootsWith [.block ⟨0, 1, 328⟩ default, .block ⟨0, 1, 488⟩ default]).SurvivesAdd 0 fullRoot ⟨4, 1, 5⟩ ∧
      ¬ (fullRootsWith [.block ⟨0, 1, 328⟩ default, .null default]).SurvivesAdd 0 fullRoot ⟨4, 1, 5⟩ := by
  have hdemand : demand ⟨4, 1, 5⟩ 1 fullRoot = 2 := by decide +kernel
  have hlive : ∀ answers, (fullRootsWith answers 0).live = (blocks 1 fullRoot).toFinset := fun answers => by
    rw [blocks_fullRoot]
    rfl
  have hiff := fun answers => @addTreeSafe_survives_iff (fullRootsWith answers) ⟨4, 1, 5⟩ 0 1 fullRoot rfl
    (fullRootsWith_holds answers) (hlive answers)
  rw [hdemand] at hiff
  have hok : ∀ q ∈ [ShmAnswer.block ⟨0, 1, 488⟩ default, .null default],
      ((fullRootsWith [.block ⟨0, 1, 328⟩ default, q]).addTreeSafe ⟨4, 1, 5⟩).isOk = true := by decide +kernel
  refine ⟨(hiff _ fun herr => ?_).mpr (by decide), fun hsurvives => ?_⟩
  · have hblock := hok _ (.head _)
    rw [herr] at hblock
    cases hblock
  · have hblocks := (hiff _ fun herr => ?_).mp hsurvives
    · exact absurd (hblocks (.null default) (.tail _ (.head _))) (by decide)
    · have hnull := hok _ (.tail _ (.head _))
      rw [herr] at hnull
      cases hnull

/-- Trees without nodes, where `shmalloc` fails. -/
def noBlock : TreeInstance := fun _ =>
  ⟨fun _ => default, ∅, [.null default], default, default, default, false, false, false⟩

/-- Trees of a full root, where `shmalloc` fails. -/
def fullRoots : TreeInstance := fullRootsWith [.null default]

/-- Where the block for the first entry is refused the call returns `RET_OK` and the entry is nowhere; where the block
for a split is refused the null pointer is used. -/
theorem addTreeSafe_refused : ((noBlock 0).Holds 0 KeyTree.nil ∧ ¬ noBlock.SurvivesAdd 0 KeyTree.nil ⟨4, 1, 1⟩) ∧
    (fullRoots 0).Holds 1 fullRoot ∧ ¬ fullRoots.SurvivesAdd 0 fullRoot ⟨4, 1, 5⟩ := by
  refine ⟨⟨holds_nil rfl, ?_⟩, fullRootsWith_holds _, ?_⟩
  · rintro ⟨r, inst', hrun, hleft⟩
    have hcall : (noBlock.addTreeSafe ⟨4, 1, 1⟩).map (fun p => (p.1, (p.2 0).live)) = .ok (.ok, ∅) := by decide +kernel
    rw [hrun] at hcall
    obtain ⟨hr, hlive⟩ := Prod.mk.inj (Except.ok.inj hcall)
    rcases hleft with ⟨-, n', t', h', hadds⟩ | ⟨hne, -⟩
    · have hle := length_toList_le_live h'.owned
      rw [hlive, Finset.sum_empty, Nat.le_zero, List.length_eq_zero_iff] at hle
      exact absurd ((hadds.2 ⟨4, 1, 1⟩).mpr (.inl rfl)) (by simp [hle])
    · exact absurd hr hne
  · rintro ⟨r, inst', hrun, -⟩
    have hcall : (fullRoots.addTreeSafe ⟨4, 1, 5⟩).isOk = false := by decide +kernel
    rw [hrun] at hcall
    cases hcall

end TreeInstance
end NetworkBfd.Smmr
