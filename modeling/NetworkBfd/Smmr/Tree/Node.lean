import Mathlib.Tactic.IntervalCases
import NetworkBfd.Smmr.Basic

/-!
# Node blocks and the edits of one node

A node block holds a count and two arrays of fixed size, of which the first `count` keys and `count + 1` children
mean something. `keyList` and `childList` read these off; every edit that insertion and removal make to the arrays of
one node is an edit of the two lists:

* `addItem_keyList`, `addItem_childList`: a key and the child after it are inserted;
* `dropItem_keyList`, `dropItem_childList`: a key and the child after it are erased;
* `pushFront_keyList`, `dropFront_keyList`, `pushBack_keyList`, `dropBack_keyList` and their `childList` twins:
rotations;
* `appendItems_lists`: merges;
* `splitPair_lists`: a full node and a new key are dealt out over two nodes.
-/

namespace NetworkBfd.Smmr

/-- `node_instance_t`. -/
structure NodeInstance where
  count : Nat
  childsi : Vector NodeInstanceOffset (treeNodecount + 1)
  keys : Vector NodeKey treeNodecount

namespace NodeInstance

instance : Inhabited NodeInstance := ⟨⟨0, Vector.replicate _ default, Vector.replicate _ default⟩⟩

def key (nd : NodeInstance) (i : Nat) : NodeKey := nd.keys[i]?.getD default

def child (nd : NodeInstance) (i : Nat) : NodeInstanceOffset := nd.childsi[i]?.getD default

def setKey (nd : NodeInstance) (i : Nat) (k : NodeKey) : NodeInstance :=
  { nd with keys := nd.keys.setIfInBounds i k }

def setChild (nd : NodeInstance) (i : Nat) (r : NodeInstanceOffset) : NodeInstance :=
  { nd with childsi := nd.childsi.setIfInBounds i r }

section Access

variable (nd : NodeInstance) (i j : Nat) (k : NodeKey) (r : NodeInstanceOffset) (c : Nat)

@[simp] theorem setKey_count : (nd.setKey i k).count = nd.count := rfl
@[simp] theorem setChild_count : (nd.setChild i r).count = nd.count := rfl
@[simp] theorem setKey_child : (nd.setKey i k).child j = nd.child j := rfl
@[simp] theorem setChild_key : (nd.setChild i r).key j = nd.key j := rfl
@[simp] theorem withCount_key : ({ nd with count := c } : NodeInstance).key j = nd.key j := rfl
@[simp] theorem withCount_child : ({ nd with count := c } : NodeInstance).child j = nd.child j := rfl

theorem setKey_key (h : i < 4) : (nd.setKey i k).key j = if i = j then k else nd.key j := by
  have h' : i < treeNodecount := h
  simp only [setKey, key, Vector.getElem?_setIfInBounds, h', if_true]
  split_ifs <;> rfl

theorem setChild_child (h : i < 5) : (nd.setChild i r).child j = if i = j then r else nd.child j := by
  have h' : i < treeNodecount + 1 := h
  simp only [setChild, child, Vector.getElem?_setIfInBounds, h', if_true]
  split_ifs <;> rfl

end Access

/-- The keys of the node. -/
def keyList (nd : NodeInstance) : List NodeKey := (List.range nd.count).map nd.key

/-- The children of the node. -/
def childList (nd : NodeInstance) : List NodeInstanceOffset := (List.range (nd.count + 1)).map nd.child

@[simp] theorem length_keyList (nd : NodeInstance) : nd.keyList.length = nd.count := by simp [keyList]

@[simp] theorem length_childList (nd : NodeInstance) : nd.childList.length = nd.count + 1 := by simp [childList]

theorem keyList_ext {nd : NodeInstance} {ks : List NodeKey} (hc : nd.count = ks.length)
    (h : ∀ i (hi : i < ks.length), nd.key i = ks[i]) : nd.keyList = ks :=
  List.ext_getElem (by simpa using hc) fun i _ h₂ => by simpa [keyList] using h i h₂

theorem childList_ext {nd : NodeInstance} {rs : List NodeInstanceOffset} (hc : nd.count + 1 = rs.length)
    (h : ∀ i (hi : i < rs.length), nd.child i = rs[i]) : nd.childList = rs :=
  List.ext_getElem (by simpa using hc) fun i _ h₂ => by simpa [childList] using h i h₂

theorem key_eq {nd : NodeInstance} {ks : List NodeKey} (h : nd.keyList = ks) {i : Nat} (hi : i < ks.length) :
    nd.key i = ks[i] := by
  subst h; simp [keyList]

theorem child_eq {nd : NodeInstance} {rs : List NodeInstanceOffset} (h : nd.childList = rs) {i : Nat}
    (hi : i < rs.length) : nd.child i = rs[i] := by
  subst h; simp [childList]

/-! ## The shift loops -/

/-- `for(; counter > pos; counter--)`: each key moves up by one, with the child after it. -/
def shiftItemsRight (pos : Nat) : Nat → NodeInstance → NodeInstance
  | 0, nd => nd
  | counter + 1, nd =>
    if pos < counter + 1 then
      shiftItemsRight pos counter
        ((nd.setKey (counter + 1) (nd.key counter)).setChild (counter + 2) (nd.child (counter + 1)))
    else nd

/-- `steps` rounds from `pos` on: each key moves down by one, with the child after it. -/
def shiftItemsLeft : Nat → Nat → NodeInstance → NodeInstance
  | 0, _, nd => nd
  | steps + 1, pos, nd =>
    shiftItemsLeft steps (pos + 1) ((nd.setKey pos (nd.key (pos + 1))).setChild (pos + 1) (nd.child (pos + 2)))

@[simp] theorem shiftItemsRight_count (pos : Nat) : ∀ (n : Nat) (nd : NodeInstance),
    (shiftItemsRight pos n nd).count = nd.count
  | 0, _ => rfl
  | n + 1, nd => by
    rw [shiftItemsRight]
    split
    · rw [shiftItemsRight_count pos n]; rfl
    · rfl

@[simp] theorem shiftItemsLeft_count : ∀ (n pos : Nat) (nd : NodeInstance),
    (shiftItemsLeft n pos nd).count = nd.count
  | 0, _, _ => rfl
  | n + 1, pos, nd => by rw [shiftItemsLeft, shiftItemsLeft_count n]; rfl

theorem shiftItemsRight_key (pos j : Nat) : ∀ (n : Nat) (nd : NodeInstance), n < 4 →
    (shiftItemsRight pos n nd).key j = if pos < j ∧ j ≤ n then nd.key (j - 1) else nd.key j
  | 0, nd, _ => by
    rw [shiftItemsRight, if_neg (by omega)]
  | n + 1, nd, h => by
    rw [shiftItemsRight]
    split
    · rw [shiftItemsRight_key pos j n _ (by omega)]
      simp only [setChild_key, setKey_key _ _ _ _ h]
      split_ifs <;> first | rfl | omega | (congr 1; omega)
    · rw [if_neg (by omega)]

theorem shiftItemsRight_child (pos j : Nat) : ∀ (n : Nat) (nd : NodeInstance), n < 4 →
    (shiftItemsRight pos n nd).child j = if pos + 1 < j ∧ j ≤ n + 1 then nd.child (j - 1) else nd.child j
  | 0, nd, _ => by
    rw [shiftItemsRight, if_neg (by omega)]
  | n + 1, nd, h => by
    rw [shiftItemsRight]
    split
    · rw [shiftItemsRight_child pos j n _ (by omega)]
      simp only [setChild_child _ (n + 2) _ _ (by omega), setKey_child]
      split_ifs <;> first | rfl | omega | (congr 1; omega)
    · rw [if_neg (by omega)]

theorem shiftItemsLeft_key (j : Nat) : ∀ (n pos : Nat) (nd : NodeInstance), pos + n < 4 →
    (shiftItemsLeft n pos nd).key j = if pos ≤ j ∧ j < pos + n then nd.key (j + 1) else nd.key j
  | 0, pos, nd, _ => by
    rw [shiftItemsLeft, if_neg (by omega)]
  | n + 1, pos, nd, h => by
    rw [shiftItemsLeft, shiftItemsLeft_key j n _ _ (by omega)]
    simp only [setChild_key, setKey_key _ pos _ _ (by omega)]
    split_ifs <;> first | rfl | omega | (congr 1; omega)

theorem shiftItemsLeft_child (j : Nat) : ∀ (n pos : Nat) (nd : NodeInstance), pos + n < 4 →
    (shiftItemsLeft n pos nd).child j = if pos < j ∧ j ≤ pos + n then nd.child (j + 1) else nd.child j
  | 0, pos, nd, _ => by
    rw [shiftItemsLeft, if_neg (by omega)]
  | n + 1, pos, nd, h => by
    rw [shiftItemsLeft, shiftItemsLeft_child j n _ _ (by omega)]
    simp only [setChild_child _ (pos + 1) _ _ (by omega), setKey_child]
    split_ifs <;> first | rfl | omega | (congr 1; omega)

/-! ## Inserting and erasing -/

/-- The body of `_add_item_to_free_node`. -/
def addItem (nd : NodeInstance) (pos : Nat) (item : NodeKey) (newnodei : NodeInstanceOffset) : NodeInstance :=
  let nd := shiftItemsRight pos nd.count nd
  let nd := (nd.setKey pos item).setChild (pos + 1) newnodei
  { nd with count := nd.count + 1 }

/-- The loop of `_remove_item_trgt` and the decrement after it. -/
def dropItem (nd : NodeInstance) (pos : Nat) : NodeInstance :=
  let nd := shiftItemsLeft (nd.count - 1 - pos) pos nd
  { nd with count := nd.count - 1 }

section Edit

variable {nd : NodeInstance} {ks₁ ks₂ : List NodeKey} {rs₁ rs₂ : List NodeInstanceOffset}
  {k : NodeKey} {r : NodeInstanceOffset}

theorem addItem_keyList (h : nd.keyList = ks₁ ++ ks₂) (hc : nd.count < 4) :
    (nd.addItem ks₁.length k r).keyList = ks₁ ++ k :: ks₂ := by
  have hlen : nd.count = ks₁.length + ks₂.length := by rw [← length_keyList, h, List.length_append]
  refine keyList_ext (by simp [addItem, hlen]; omega) fun i hi => ?_
  simp only [List.length_append, List.length_cons] at hi
  simp only [addItem, withCount_key, setChild_key, setKey_key _ ks₁.length _ _ (by omega),
    shiftItemsRight_key _ _ _ _ hc]
  rcases lt_trichotomy i ks₁.length with hlt | rfl | hgt
  · rw [if_neg (by omega), if_neg (by omega), key_eq h (by simp; omega), List.getElem_append_left hlt,
      List.getElem_append_left hlt]
  · simp
  · rw [if_neg (by omega), if_pos (by omega), key_eq h (by simp; omega), List.getElem_append_right (by omega),
      List.getElem_append_right (by omega), List.getElem_cons, dif_neg (by omega)]
    congr 1
    omega

theorem addItem_childList (h : nd.childList = rs₁ ++ rs₂) (hp : rs₁.length = pos + 1) (hc : nd.count < 4) :
    (nd.addItem pos k r).childList = rs₁ ++ r :: rs₂ := by
  have hlen : nd.count + 1 = rs₁.length + rs₂.length := by rw [← length_childList, h, List.length_append]
  refine childList_ext (by simp [addItem]; omega) fun i hi => ?_
  simp only [List.length_append, List.length_cons] at hi
  simp only [addItem, withCount_child, setChild_child _ (pos + 1) _ _ (by omega), setKey_child,
    shiftItemsRight_child _ _ _ _ hc]
  rcases lt_trichotomy i rs₁.length with hlt | rfl | hgt
  · rw [if_neg (by omega), if_neg (by omega), child_eq h (by simp; omega), List.getElem_append_left hlt,
      List.getElem_append_left hlt]
  · simp [hp]
  · rw [if_neg (by omega), if_pos (by omega), child_eq h (by simp; omega), List.getElem_append_right (by omega),
      List.getElem_append_right (by omega), List.getElem_cons, dif_neg (by omega)]
    congr 1
    omega

theorem dropItem_keyList (h : nd.keyList = ks₁ ++ k :: ks₂) (hc : nd.count ≤ 4) :
    (nd.dropItem ks₁.length).keyList = ks₁ ++ ks₂ := by
  have hlen : nd.count = ks₁.length + (ks₂.length + 1) := by rw [← length_keyList, h]; simp
  refine keyList_ext (by simp [dropItem, hlen]) fun i hi => ?_
  simp only [List.length_append] at hi
  simp only [dropItem, withCount_key]
  rw [shiftItemsLeft_key i _ ks₁.length nd (by omega)]
  rcases lt_or_ge i ks₁.length with hlt | hge
  · rw [if_neg (by omega), key_eq h (by simp; omega), List.getElem_append_left hlt, List.getElem_append_left hlt]
  · rw [if_pos (by omega), key_eq h (by simp; omega), List.getElem_append_right (by omega),
      List.getElem_append_right hge, List.getElem_cons, dif_neg (by omega)]
    congr 1
    omega

theorem dropItem_childList (h : nd.childList = rs₁ ++ r :: rs₂) (hp : rs₁.length = pos + 1) (hc : nd.count ≤ 4)
    (h0 : 0 < nd.count) : (nd.dropItem pos).childList = rs₁ ++ rs₂ := by
  have hlen : nd.count + 1 = rs₁.length + (rs₂.length + 1) := by rw [← length_childList, h]; simp
  refine childList_ext (by simp [dropItem]; omega) fun i hi => ?_
  simp only [List.length_append] at hi
  simp only [dropItem, withCount_child]
  rw [shiftItemsLeft_child i _ pos nd (by omega)]
  rcases lt_or_ge i rs₁.length with hlt | hge
  · rw [if_neg (by omega), child_eq h (by simp; omega), List.getElem_append_left hlt, List.getElem_append_left hlt]
  · rw [if_pos (by omega), child_eq h (by simp; omega), List.getElem_append_right (by omega),
      List.getElem_append_right hge, List.getElem_cons, dif_neg (by omega)]
    congr 1
    omega

end Edit

/-! ## Rotating and merging -/

/-- What `_remove_item_moveright` does to the right node: a key and the child before it come in front. -/
def pushFront (nd : NodeInstance) (item : NodeKey) (first : NodeInstanceOffset) : NodeInstance :=
  let nd := shiftItemsRight 0 nd.count nd
  let nd := nd.setChild 1 (nd.child 0)
  let nd := (nd.setKey 0 item).setChild 0 first
  { nd with count := nd.count + 1 }

/-- What `_remove_item_moveleft` does to the right node: the first key and the child before it go. -/
def dropFront (nd : NodeInstance) : NodeInstance :=
  let nd := nd.setChild 0 (nd.child 1)
  let nd := { nd with count := nd.count - 1 }
  shiftItemsLeft nd.count 0 nd

/-- A key and the child after it come last. -/
def pushBack (nd : NodeInstance) (item : NodeKey) (last : NodeInstanceOffset) : NodeInstance :=
  let nd := { nd with count := nd.count + 1 }
  (nd.setKey (nd.count - 1) item).setChild nd.count last

/-- The last key and the child after it go. -/
def dropBack (nd : NodeInstance) : NodeInstance := { nd with count := nd.count - 1 }

/-- The loop of `_remove_item_combine`: the keys of the right node and the children after them, from `n` on. -/
def appendItems (right : NodeInstance) : Nat → Nat → NodeInstance → NodeInstance
  | 0, _, left => left
  | steps + 1, n, left => appendItems right steps (n + 1) (left.pushBack (right.key (n - 1)) (right.child n))

section Rotate

variable {nd : NodeInstance} {ks : List NodeKey} {rs : List NodeInstanceOffset} {k : NodeKey}
  {r : NodeInstanceOffset}

theorem pushFront_keyList (hk : nd.keyList = ks) (hc : nd.count < 4) : (nd.pushFront k r).keyList = k :: ks := by
  have hlen : nd.count = ks.length := by rw [← length_keyList, hk]
  refine keyList_ext (by simp [pushFront, hlen]) fun i hi => ?_
  simp only [pushFront, withCount_key, setChild_key, setKey_key _ 0 _ _ (by omega : 0 < 4)]
  rw [shiftItemsRight_key _ _ _ nd hc]
  simp only [List.length_cons] at hi
  rcases Nat.eq_zero_or_pos i with rfl | h
  · simp
  · rw [if_neg (by omega), if_pos (by omega), key_eq hk (by omega), List.getElem_cons, dif_neg (by omega)]

theorem pushFront_childList (hr : nd.childList = rs) (hc : nd.count < 4) :
    (nd.pushFront k r).childList = r :: rs := by
  have hlen : nd.count + 1 = rs.length := by rw [← length_childList, hr]
  refine childList_ext (by simp [pushFront, hlen]) fun i hi => ?_
  simp only [pushFront, withCount_child, setKey_child, setChild_child _ 0 _ _ (by omega : 0 < 5),
    setChild_child _ 1 _ _ (by omega : 1 < 5)]
  rw [shiftItemsRight_child _ _ _ nd hc, shiftItemsRight_child _ _ _ nd hc]
  simp only [List.length_cons] at hi
  match i, hi with
  | 0, _ => simp
  | 1, hi => rw [if_neg (by omega), if_pos rfl, if_neg (by omega)]; exact child_eq hr (by omega)
  | i + 2, hi =>
    rw [if_neg (by omega), if_neg (by omega), if_pos (by omega)]
    exact child_eq hr (by omega)

theorem dropFront_keyList (hk : nd.keyList = k :: ks) (hc : nd.count ≤ 4) : nd.dropFront.keyList = ks := by
  have hlen : nd.count = ks.length + 1 := by rw [← length_keyList, hk]; rfl
  refine keyList_ext (by simp [dropFront, hlen]) fun i hi => ?_
  simp only [dropFront, setChild_count]
  rw [shiftItemsLeft_key _ _ _ _ (by omega), if_pos (by omega)]
  simp only [withCount_key, setChild_key]
  rw [key_eq hk (by simp; omega)]
  rfl

theorem dropFront_childList (hr : nd.childList = r :: rs) (hc : nd.count ≤ 4) (h0 : 0 < nd.count) :
    nd.dropFront.childList = rs := by
  have hlen : nd.count + 1 = rs.length + 1 := by rw [← length_childList, hr]; rfl
  refine childList_ext (by simp [dropFront]; omega) fun i hi => ?_
  simp only [dropFront, setChild_count]
  rw [shiftItemsLeft_child _ _ _ _ (by omega)]
  simp only [withCount_child, setChild_child _ 0 _ _ (by omega : 0 < 5)]
  rcases Nat.eq_zero_or_pos i with rfl | h
  · rw [if_neg (by omega), if_pos rfl, child_eq hr (by simp; omega)]; rfl
  · rw [if_pos (by omega), if_neg (by omega), child_eq hr (by simp; omega)]; rfl

theorem pushBack_keyList (hk : nd.keyList = ks) (hc : nd.count < 4) : (nd.pushBack k r).keyList = ks ++ [k] := by
  have hlen : nd.count = ks.length := by rw [← length_keyList, hk]
  refine keyList_ext (by simp [pushBack, hlen]) fun i hi => ?_
  simp only [pushBack, setChild_key, Nat.add_sub_cancel, setKey_key _ nd.count _ _ hc, withCount_key]
  simp only [List.length_append, List.length_singleton] at hi
  rcases Nat.lt_or_ge i ks.length with h | h
  · rw [if_neg (by omega), key_eq hk h, List.getElem_append_left h]
  · have hi' : i = ks.length := by omega
    subst hi'
    rw [if_pos (by omega)]
    simp

theorem pushBack_childList (hr : nd.childList = rs) (hc : nd.count < 4) :
    (nd.pushBack k r).childList = rs ++ [r] := by
  have hlen : nd.count + 1 = rs.length := by rw [← length_childList, hr]
  refine childList_ext (by simp [pushBack, hlen]) fun i hi => ?_
  simp only [pushBack, setChild_child _ (nd.count + 1) _ _ (by omega : nd.count + 1 < 5), setKey_child,
    withCount_child]
  simp only [List.length_append, List.length_singleton] at hi
  rcases Nat.lt_or_ge i rs.length with h | h
  · rw [if_neg (by omega), child_eq hr h, List.getElem_append_left h]
  · have hi' : i = rs.length := by omega
    subst hi'
    rw [if_pos hlen]
    simp

theorem dropBack_keyList (hk : nd.keyList = ks ++ [k]) : nd.dropBack.keyList = ks := by
  have hlen : nd.count = ks.length + 1 := by rw [← length_keyList, hk]; simp
  refine keyList_ext (by simp [dropBack, hlen]) fun i hi => ?_
  simp only [dropBack, withCount_key]
  rw [key_eq hk (by simp; omega), List.getElem_append_left hi]

theorem dropBack_childList (hr : nd.childList = rs ++ [r]) (h0 : 0 < nd.count) : nd.dropBack.childList = rs := by
  have hlen : nd.count + 1 = rs.length + 1 := by rw [← length_childList, hr]; simp
  refine childList_ext (by simp [dropBack]; omega) fun i hi => ?_
  simp only [dropBack, withCount_child]
  rw [child_eq hr (by simp; omega), List.getElem_append_left hi]

theorem setKey_keyList {ks₁ ks₂ : List NodeKey} {k' : NodeKey} (hk : nd.keyList = ks₁ ++ k :: ks₂)
    (hc : nd.count ≤ 4) : (nd.setKey ks₁.length k').keyList = ks₁ ++ k' :: ks₂ := by
  have hlen : nd.count = ks₁.length + (ks₂.length + 1) := by rw [← length_keyList, hk]; simp
  refine keyList_ext (by simp [hlen]) fun i hi => ?_
  simp only [List.length_append, List.length_cons] at hi
  rw [setKey_key _ _ _ _ (by omega)]
  rcases lt_trichotomy i ks₁.length with h | rfl | h
  · rw [if_neg (by omega), key_eq hk (by simp; omega), List.getElem_append_left h, List.getElem_append_left h]
  · simp
  · rw [if_neg (by omega), key_eq hk (by simp; omega), List.getElem_append_right (by omega),
      List.getElem_append_right (by omega), List.getElem_cons, List.getElem_cons, dif_neg (by omega),
      dif_neg (by omega)]

@[simp] theorem setKey_childList (i : Nat) : (nd.setKey i k).childList = nd.childList := rfl

@[simp] theorem setChild_keyList (i : Nat) : (nd.setChild i r).keyList = nd.keyList := rfl

theorem appendItems_lists (right : NodeInstance) : ∀ (steps n : Nat) {left : NodeInstance} {ks : List NodeKey}
    {rs : List NodeInstanceOffset}, left.keyList = ks → left.childList = rs → steps + n = right.count + 1 → 0 < n →
    left.count + steps ≤ 4 →
    (appendItems right steps n left).keyList = ks ++ right.keyList.drop (n - 1) ∧
      (appendItems right steps n left).childList = rs ++ right.childList.drop n
  | 0, n, left, ks, rs, hk, hr, hn, _, _ => by
    have h1 : right.keyList.drop (n - 1) = [] := List.drop_eq_nil_of_le (by simp; omega)
    have h2 : right.childList.drop n = [] := List.drop_eq_nil_of_le (by simp; omega)
    rw [h1, h2, List.append_nil, List.append_nil]
    exact ⟨hk, hr⟩
  | steps + 1, n, left, ks, rs, hk, hr, hn, h0, hc => by
    have hk' := pushBack_keyList (k := right.key (n - 1)) (r := right.child n) hk (by omega)
    have hr' := pushBack_childList (k := right.key (n - 1)) (r := right.child n) hr (by omega)
    have hcount : (left.pushBack (right.key (n - 1)) (right.child n)).count = left.count + 1 := rfl
    obtain ⟨h1, h2⟩ := appendItems_lists right steps (n + 1) hk' hr' (by omega) (by omega) (by omega)
    have e1 : right.keyList.drop (n - 1) = right.key (n - 1) :: right.keyList.drop n := by
      have hlt : n - 1 < right.keyList.length := by simp; omega
      rw [List.drop_eq_getElem_cons hlt, key_eq rfl hlt, Nat.sub_add_cancel h0]
    have e2 : right.childList.drop n = right.child n :: right.childList.drop (n + 1) := by
      have hlt : n < right.childList.length := by simp; omega
      rw [List.drop_eq_getElem_cons hlt, child_eq rfl hlt]
    rw [appendItems, h1, h2, e1, e2]
    simp

end Rotate

/-! ## Splitting a full node -/

/-- `for(n = newpos + 1; n <= TREE_NODECOUNT; n++)`: the upper part of the node is copied to the new one. -/
def copyUpper (newpos : Nat) (node : NodeInstance) : Nat → Nat → NodeInstance → NodeInstance
  | 0, _, tmp => tmp
  | steps + 1, n, tmp =>
    copyUpper newpos node steps (n + 1)
      ((tmp.setKey (n - newpos - 1) (node.key (n - 1))).setChild (n - newpos) (node.child n))

/-- The two nodes that `_split_node` leaves, and the key that goes up between them. -/
def splitPair (node nodetmp : NodeInstance) (pos : Nat) (item : NodeKey) (newnodei : NodeInstanceOffset) :
    NodeInstance × NodeInstance × NodeKey :=
  let newpos := if pos ≤ treeNodemin then treeNodemin else treeNodemin + 1
  let nodetmp := copyUpper newpos node (treeNodecount - newpos) (newpos + 1) nodetmp
  let nodetmp := { nodetmp with count := treeNodecount - newpos }
  let node := { node with count := newpos }
  let (node, nodetmp) :=
    if pos ≤ treeNodemin then (node.addItem pos item newnodei, nodetmp)
    else (node, nodetmp.addItem (pos - newpos) item newnodei)
  let up := node.key (node.count - 1)
  let nodetmp := nodetmp.setChild 0 (node.child node.count)
  ({ node with count := node.count - 1 }, nodetmp, up)

/-- The five keys and six children of an overfull node are dealt out two and three to each side. -/
theorem splitPair_lists {node : NodeInstance} (nodetmp : NodeInstance) (hc : node.count = 4) (pos : Nat)
    (hp : pos ≤ 4) (item : NodeKey) (newnodei : NodeInstanceOffset) :
    let keys := node.keyList.take pos ++ item :: node.keyList.drop pos
    let childs := node.childList.take (pos + 1) ++ newnodei :: node.childList.drop (pos + 1)
    let s := splitPair node nodetmp pos item newnodei
    s.1.keyList = keys.take 2 ∧ s.1.childList = childs.take 3 ∧ keys.drop 2 = s.2.2 :: s.2.1.keyList ∧
      s.2.1.childList = childs.drop 3 := by
  have hk : node.keyList = [node.key 0, node.key 1, node.key 2, node.key 3] := by
    simp [keyList, hc, List.range_succ]
  have hr : node.childList = [node.child 0, node.child 1, node.child 2, node.child 3, node.child 4] := by
    simp [childList, hc, List.range_succ]
  intro keys childs s
  simp only [keys, childs, s, hk, hr]
  interval_cases pos <;>
    simp [splitPair, copyUpper, addItem, shiftItemsRight, keyList, childList, List.range_succ, setKey_key,
      setChild_child]

end NodeInstance
end NetworkBfd.Smmr
