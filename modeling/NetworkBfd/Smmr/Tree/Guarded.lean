import NetworkBfd.Smmr.Tree.Rep

/-!
# Accesses to live blocks only

The tree operations once more, with every access checked: a block that is read or written is live, and of a node only
the keys and children that its count covers are read. An access that is not allowed faults. The guarded operations read
the meaning of a block only (`fetch`), and the edits of a node see nothing else of it either (`view_addItem` and the
like). `Tree/Similar.lean` compares runs of them, `Tree/Access.lean` shows that the operations access nothing else.
-/

namespace NetworkBfd.Smmr

open Lib

/-- What a node block means. -/
structure View where
  keys : List NodeKey
  childs : List NodeInstanceOffset

def NodeInstance.view (nd : NodeInstance) : View := ⟨nd.keyList, nd.childList⟩

/-- An access that is allowed if `p`. -/
def check (p : Prop) [Decidable p] : Except Fault Unit := if p then .ok () else .error .segv

/-- A slot that the count covers. -/
def slot {α : Type} (l : List α) (i : Nat) : Except Fault α :=
  match l[i]? with
  | some a => .ok a
  | none => .error .segv

namespace CategoryTree

/-- A read of a block, which has to be live. -/
def fetch (s : CategoryTree) (nodei : NodeInstanceOffset) : Except Fault View := do
  check (nodei.addr ∈ s.live)
  .ok (s.refnode nodei).view

/-- A write to a block, which has to be live and to have a count that allows it. -/
def edit (s : CategoryTree) (nodei : NodeInstanceOffset) (p : Nat → Prop) [DecidablePred p]
    (f : NodeInstance → NodeInstance) : Except Fault CategoryTree := do
  check (nodei.addr ∈ s.live ∧ p (s.refnode nodei).count)
  .ok (s.modify nodei f)

/-! ## Insertion -/

/-- `_split_node` accesses the block at `nodei` and one that it allocates. -/
def splitNodeGuarded (s : CategoryTree) (nodei : NodeInstanceOffset) (pos : Nat) : Except Fault CategoryTree := do
  check (nodei.addr ∈ s.live ∧ (s.refnode nodei).count = treeNodecount ∧ pos ≤ treeNodecount)
  s.splitNode nodei pos

def insertGuarded : Nat → CategoryTree → NodeInstanceOffset → Except Fault CategoryTree
  | 0, _, _ => .error .fuel
  | fuel + 1, s, nodei =>
    if nodei.isEmpty then .ok { s with done := false, newnodei := default }
    else do
      let node ← s.fetch nodei
      let pos := position s.currentItem node.keys
      if node.keys[pos]? = some s.currentItem then .ok { s with done := true }
      else do
        let child ← slot node.childs pos
        let s ← insertGuarded fuel s child
        if s.done then .ok s
        else do
          let node ← s.fetch nodei
          if node.keys.length < treeNodecount then do
            let s ← s.edit nodei (fun count => pos ≤ count ∧ count < treeNodecount) fun nd =>
              nd.addItem pos s.currentItem s.newnodei
            .ok { s with done := true }
          else do
            let s ← s.splitNodeGuarded nodei pos
            .ok { s with done := false }

/-- `_calloc_new_node` accesses the block that it allocates. -/
def addTreeGuarded (s : CategoryTree) (itm : NodeKey) : Except Fault CategoryTree := do
  let s := { s with currentItem := itm }
  let s ← insertGuarded s.depthBound s s.rooti
  if s.done then .ok s
  else do
    let (rooti, s) ← s.callocNewNode
    .ok { s with rooti := rooti }

/-! ## Removal -/

def moverightGuarded (s : CategoryTree) (nodei : NodeInstanceOffset) (pos : Nat) : Except Fault CategoryTree := do
  let node ← s.fetch nodei
  let righti ← slot node.childs pos
  let lefti ← slot node.childs (pos - 1)
  let separator ← slot node.keys (pos - 1)
  let left ← s.fetch lefti
  let last ← slot left.childs left.keys.length
  let up ← slot left.keys (left.keys.length - 1)
  let s ← s.edit righti (· < treeNodecount) fun right => right.pushFront separator last
  let s ← s.edit nodei (fun count => pos - 1 < count ∧ count ≤ treeNodecount) fun node => node.setKey (pos - 1) up
  s.edit lefti (0 < ·) NodeInstance.dropBack

def moveleftGuarded (s : CategoryTree) (nodei : NodeInstanceOffset) (pos : Nat) : Except Fault CategoryTree := do
  let node ← s.fetch nodei
  let righti ← slot node.childs pos
  let lefti ← slot node.childs (pos - 1)
  let separator ← slot node.keys (pos - 1)
  let right ← s.fetch righti
  let first ← slot right.childs 0
  let up ← slot right.keys 0
  let s ← s.edit lefti (· < treeNodecount) fun left => left.pushBack separator first
  let s ← s.edit nodei (fun count => pos - 1 < count ∧ count ≤ treeNodecount) fun node => node.setKey (pos - 1) up
  s.edit righti (fun count => 0 < count ∧ count ≤ treeNodecount) NodeInstance.dropFront

def trgtGuarded (s : CategoryTree) (nodei : NodeInstanceOffset) (pos : Nat) : Except Fault CategoryTree := do
  let s ← s.edit nodei (fun count => pos < count ∧ count ≤ treeNodecount) fun node => node.dropItem pos
  let node ← s.fetch nodei
  .ok { s with undersize := node.keys.length < treeNodemin }

def combineGuarded (s : CategoryTree) (nodei : NodeInstanceOffset) (pos : Nat) : Except Fault CategoryTree := do
  let node ← s.fetch nodei
  let righti ← slot node.childs pos
  let lefti ← slot node.childs (pos - 1)
  let separator ← slot node.keys (pos - 1)
  let right ← s.fetch righti
  let first ← slot right.childs 0
  let right := s.refnode righti
  let s ← s.edit lefti (· + 1 + right.count ≤ treeNodecount) fun left =>
    NodeInstance.appendItems right right.count 1 (left.pushBack separator first)
  let s ← s.trgtGuarded nodei (pos - 1)
  .ok (s.shmfree righti)

def restoreGuarded (s : CategoryTree) (nodei : NodeInstanceOffset) (pos : Nat) : Except Fault CategoryTree :=
  if nodei.isEmpty then .ok s
  else do
    let s := { s with undersize := false }
    let node ← s.fetch nodei
    if 0 < pos then do
      let lefti ← slot node.childs (pos - 1)
      let left ← s.fetch lefti
      if treeNodemin < left.keys.length then s.moverightGuarded nodei pos else s.combineGuarded nodei pos
    else do
      let righti ← slot node.childs 1
      let right ← s.fetch righti
      if treeNodemin < right.keys.length then s.moveleftGuarded nodei 1 else s.combineGuarded nodei 1

def leftmostGuarded (s : CategoryTree) : Nat → NodeInstanceOffset → Except Fault View
  | 0, _ => .error .fuel
  | fuel + 1, tmpnodei => do
    let tmpnode ← s.fetch tmpnodei
    let first ← slot tmpnode.childs 0
    if first.isEmpty then .ok tmpnode else leftmostGuarded s fuel first

def removeGuarded : Nat → CategoryTree → NodeInstanceOffset → Except Fault CategoryTree
  | 0, _, _ => .error .fuel
  | fuel + 1, s, nodei =>
    if nodei.isEmpty then .ok s
    else do
      let node ← s.fetch nodei
      let pos := position s.currentItem node.keys
      if node.keys[pos]? = some s.currentItem then do
        let s := { s with deleted := true }
        let tmpnodei ← slot node.childs (pos + 1)
        if !tmpnodei.isEmpty then do
          let tmpnode ← s.leftmostGuarded fuel tmpnodei
          let key ← slot tmpnode.keys 0
          let s ← s.edit nodei (fun count => pos < count ∧ count ≤ treeNodecount) fun node => node.setKey pos key
          let s := { s with currentItem := key }
          let node ← s.fetch nodei
          let child ← slot node.childs (pos + 1)
          let s ← removeGuarded fuel s child
          if s.undersize then s.restoreGuarded nodei (pos + 1) else .ok s
        else s.trgtGuarded nodei pos
      else do
        let child ← slot node.childs pos
        let s ← removeGuarded fuel s child
        if s.undersize then s.restoreGuarded nodei pos else .ok s

def removeTreeGuarded (s : CategoryTree) (itm : NodeKey) : Except Fault CategoryTree := do
  let s := { s with deleted := false, undersize := false, currentItem := itm }
  let s ← removeGuarded s.depthBound s s.rooti
  if s.deleted then do
    let rootnode ← s.fetch s.rooti
    if rootnode.keys.length = 0 then do
      let child ← slot rootnode.childs 0
      .ok (({ s with rooti := child } : CategoryTree).shmfree s.rooti)
    else .ok s
  else .ok s

/-! ## Search and count -/

section Search

variable {σ : Type}

def searchGuarded (s : CategoryTree) (itm : NodeKey) (func : NodeKey → σ → Ret × σ) :
    Nat → NodeInstanceOffset → σ → Except Fault (Ret × σ)
  | 0, _, _ => .error .fuel
  | fuel + 1, nodei, u =>
    if nodei.isEmpty then .ok (.ng, u)
    else do
      let findnode ← s.fetch nodei
      let pos := position itm findnode.keys
      if findnode.keys[pos]? = some itm then .ok (func itm u)
      else do
        let child ← slot findnode.childs pos
        searchGuarded s itm func fuel child u

def scanLevelGuarded (nd : View) (keyhash : BitVec 32) (func : NodeKey → σ → Ret × σ)
    (rec : NodeInstanceOffset → σ → Except Fault (Ret × σ)) (prevPos : Nat) : List Nat → σ → Except Fault (Bool × σ)
  | [], u => .ok (false, u)
  | pos :: ps, u => do
    let key ← slot nd.keys pos
    let (result, u) := if keyhash = key.keyhash then func key u else (.ok, u)
    if keyhash = key.keyhash ∧ result = .ng then .ok (true, u)
    else if prevPos ≠ pos then do
      let child ← slot nd.childs pos
      let (_, u) ← rec child u
      scanLevelGuarded nd keyhash func rec prevPos ps u
    else scanLevelGuarded nd keyhash func rec prevPos ps u

def searchKeyhashGuarded (s : CategoryTree) (keyhash : BitVec 32) (func : NodeKey → σ → Ret × σ) :
    Nat → NodeInstanceOffset → σ → Except Fault (Ret × σ)
  | 0, _, _ => .error .fuel
  | fuel + 1, nodei, u =>
    if nodei.isEmpty then .ok (.ng, u)
    else do
      let findnode ← s.fetch nodei
      let pos := (findnode.keys.takeWhile fun k => k.keyhash < keyhash).length
      if pos = 0 ∧ ∃ k ∈ findnode.keys.head?, keyhash < k.keyhash then do
        let child ← slot findnode.childs 0
        searchKeyhashGuarded s keyhash func fuel child u
      else do
        let (stop, u) ← scanLevelGuarded findnode keyhash func (searchKeyhashGuarded s keyhash func fuel) pos
          (List.range' pos (findnode.keys.length - pos)) u
        if stop then .ok (.ok, u)
        else do
          let (_, u) ← if findnode.keys.length ≠ pos then do
              let child ← slot findnode.childs findnode.keys.length
              searchKeyhashGuarded s keyhash func fuel child u
            else .ok (.ng, u)
          let child ← slot findnode.childs pos
          searchKeyhashGuarded s keyhash func fuel child u

end Search

def countGuarded (s : CategoryTree) : Nat → NodeInstanceOffset → Except Fault (BitVec 32)
  | 0, _ => .error .fuel
  | fuel + 1, nodei =>
    if nodei.isEmpty then .ok 0
    else do
      let node ← s.fetch nodei
      let count ← (List.range node.keys.length).foldlM (fun count n => do
        let child ← slot node.childs n
        let c ← countGuarded s fuel child
        .ok (count + c + 1)) 0
      let child ← slot node.childs node.keys.length
      let c ← countGuarded s fuel child
      .ok (count + c)

end CategoryTree

/-! ## The safe operations -/

namespace TreeInstance

/-- `add_tree_safe` and `remove_tree_safe`: `op` changes the tree of the category of `itm`. -/
def changeGuarded (inst : TreeInstance) (op : CategoryTree → NodeKey → Except Fault CategoryTree) (itm : NodeKey) :
    Except Fault (Ret × TreeInstance) :=
  match getCategoryId itm.keyhash with
  | none => .ok (.ng, inst)
  | some c => do
    let s ← op (inst c) itm
    .ok (.ok, Function.update inst c s)

def addTreeSafeGuarded (inst : TreeInstance) (itm : NodeKey) : Except Fault (Ret × TreeInstance) :=
  inst.changeGuarded CategoryTree.addTreeGuarded itm

def removeTreeSafeGuarded (inst : TreeInstance) (itm : NodeKey) : Except Fault (Ret × TreeInstance) :=
  inst.changeGuarded CategoryTree.removeTreeGuarded itm

section Search

variable {σ : Type}

def findTreeSafeGuarded (inst : TreeInstance) (itm : NodeKey) (func : NodeKey → σ → Ret × σ) (u : σ) :
    Except Fault (Ret × σ) :=
  match getCategoryId itm.keyhash with
  | none => .ok (.ng, u)
  | some c => (inst c).searchGuarded itm func (inst c).depthBound (inst c).rooti u

def findTreeOnlyKeyhashSafeGuarded (inst : TreeInstance) (keyhash : BitVec 32) (func : NodeKey → σ → Ret × σ) (u : σ) :
    Except Fault (Ret × σ) :=
  match getCategoryId keyhash with
  | none => .ok (.ng, u)
  | some c => (inst c).searchKeyhashGuarded keyhash func (inst c).depthBound (inst c).rooti u

end Search

def countTreeSafeGuarded (inst : TreeInstance) : Except Fault (BitVec 32) :=
  (List.finRange categoryCnt).foldlM (fun count n => do
    let c ← (inst n).countGuarded (inst n).depthBound (inst n).rooti
    .ok (count + c)) 0

end TreeInstance

/-! ## Edits see the meaning of a node only -/

namespace NodeInstance

variable {nd nd' : NodeInstance} {pos : Nat} {k : NodeKey} {r : NodeInstanceOffset}

theorem count_view (h : nd'.view = nd.view) : nd'.count = nd.count := by
  rw [← length_keyList, ← length_keyList]
  exact congrArg (fun v : View => v.keys.length) h

theorem view_ext (hk : nd'.keyList = nd.keyList) (hr : nd'.childList = nd.childList) : nd'.view = nd.view := by
  rw [view, view, hk, hr]

theorem view_addItem (h : nd'.view = nd.view) (hp : pos ≤ nd.count) (hc : nd.count < treeNodecount) :
    (nd'.addItem pos k r).view = (nd.addItem pos k r).view := by
  obtain ⟨hk, hr⟩ := View.mk.inj h
  have hc' : nd'.count < treeNodecount := by rwa [count_view h]
  have hlen : (nd.keyList.take pos).length = pos := by simp [hp]
  have hlen' : (nd.childList.take (pos + 1)).length = pos + 1 := by simp [hp]
  have hsplit := (List.take_append_drop pos nd.keyList).symm
  have hsplit' := (List.take_append_drop (pos + 1) nd.childList).symm
  have h₁ := addItem_keyList (k := k) (r := r) hsplit hc
  have h₂ := addItem_keyList (k := k) (r := r) (hk.trans hsplit) hc'
  rw [hlen] at h₁ h₂
  exact view_ext (h₂.trans h₁.symm) ((addItem_childList (hr.trans hsplit') hlen' hc').trans
    (addItem_childList hsplit' hlen' hc).symm)

theorem view_dropItem (h : nd'.view = nd.view) (hp : pos < nd.count) (hc : nd.count ≤ treeNodecount) :
    (nd'.dropItem pos).view = (nd.dropItem pos).view := by
  obtain ⟨hk, hr⟩ := View.mk.inj h
  have hcount := count_view h
  obtain ⟨x, ks, hks⟩ := List.exists_cons_of_length_pos (l := nd.keyList.drop pos) (by simp; omega)
  obtain ⟨y, rs, hrs⟩ := List.exists_cons_of_length_pos (l := nd.childList.drop (pos + 1)) (by simp; omega)
  have hlen : (nd.keyList.take pos).length = pos := by simp; omega
  have hlen' : (nd.childList.take (pos + 1)).length = pos + 1 := by simp; omega
  have hsplit := (List.take_append_drop pos nd.keyList).symm
  have hsplit' := (List.take_append_drop (pos + 1) nd.childList).symm
  rw [hks] at hsplit
  rw [hrs] at hsplit'
  have h₁ := dropItem_keyList hsplit hc
  have h₂ := dropItem_keyList (hk.trans hsplit) (by rw [hcount]; exact hc)
  rw [hlen] at h₁ h₂
  exact view_ext (h₂.trans h₁.symm) ((dropItem_childList (hr.trans hsplit') hlen' (by rw [hcount]; exact hc)
    (by omega)).trans (dropItem_childList hsplit' hlen' hc (by omega)).symm)

theorem view_setKey (h : nd'.view = nd.view) (hp : pos < nd.count) (hc : nd.count ≤ treeNodecount) :
    (nd'.setKey pos k).view = (nd.setKey pos k).view := by
  obtain ⟨hk, hr⟩ := View.mk.inj h
  obtain ⟨x, ks, hks⟩ := List.exists_cons_of_length_pos (l := nd.keyList.drop pos) (by simp; omega)
  have hlen : (nd.keyList.take pos).length = pos := by simp; omega
  have hsplit := (List.take_append_drop pos nd.keyList).symm
  rw [hks] at hsplit
  have h₁ := @setKey_keyList _ _ _ _ k hsplit hc
  have h₂ := @setKey_keyList _ _ _ _ k (hk.trans hsplit) (by rw [count_view h]; exact hc)
  rw [hlen] at h₁ h₂
  exact view_ext (h₂.trans h₁.symm) hr

theorem view_pushFront (h : nd'.view = nd.view) (hc : nd.count < treeNodecount) :
    (nd'.pushFront k r).view = (nd.pushFront k r).view := by
  obtain ⟨hk, hr⟩ := View.mk.inj h
  have hc' : nd'.count < treeNodecount := by rwa [count_view h]
  exact view_ext ((pushFront_keyList hk hc').trans (pushFront_keyList rfl hc).symm)
    ((pushFront_childList hr hc').trans (pushFront_childList rfl hc).symm)

theorem view_pushBack (h : nd'.view = nd.view) (hc : nd.count < treeNodecount) :
    (nd'.pushBack k r).view = (nd.pushBack k r).view := by
  obtain ⟨hk, hr⟩ := View.mk.inj h
  have hc' : nd'.count < treeNodecount := by rwa [count_view h]
  exact view_ext ((pushBack_keyList hk hc').trans (pushBack_keyList rfl hc).symm)
    ((pushBack_childList hr hc').trans (pushBack_childList rfl hc).symm)

theorem view_dropFront (h : nd'.view = nd.view) (h0 : 0 < nd.count) (hc : nd.count ≤ treeNodecount) :
    nd'.dropFront.view = nd.dropFront.view := by
  obtain ⟨hk, hr⟩ := View.mk.inj h
  have hcount := count_view h
  obtain ⟨x, ks, hks⟩ := List.exists_cons_of_length_pos (l := nd.keyList) (by simp; omega)
  obtain ⟨y, rs, hrs⟩ := List.exists_cons_of_length_pos (l := nd.childList) (by simp)
  exact view_ext ((dropFront_keyList (hk.trans hks) (by rw [hcount]; exact hc)).trans (dropFront_keyList hks hc).symm)
    ((dropFront_childList (hr.trans hrs) (by rw [hcount]; exact hc) (by omega)).trans
      (dropFront_childList hrs hc h0).symm)

theorem view_dropBack (h : nd'.view = nd.view) (h0 : 0 < nd.count) : nd'.dropBack.view = nd.dropBack.view := by
  obtain ⟨hk, hr⟩ := View.mk.inj h
  have hcount := count_view h
  have hks := (List.dropLast_append_getLast (l := nd.keyList) (fun hn => by
    have hlen := length_keyList nd
    rw [hn] at hlen
    simp at hlen
    omega)).symm
  have hrs := (List.dropLast_append_getLast (l := nd.childList) (fun hn => by
    have hlen := length_childList nd
    rw [hn] at hlen
    simp at hlen)).symm
  exact view_ext ((dropBack_keyList (hk.trans hks)).trans (dropBack_keyList hks).symm)
    ((dropBack_childList (hr.trans hrs) (by omega)).trans (dropBack_childList hrs h0).symm)

/-- Merging sees the meaning of both nodes only. -/
theorem view_appendItems {right right' left left' : NodeInstance} (hright : right'.view = right.view)
    (hleft : left'.view = left.view) (hc : left.count + right.count ≤ treeNodecount) :
    (appendItems right' right'.count 1 left').view = (appendItems right right.count 1 left).view := by
  obtain ⟨hk, hr⟩ := View.mk.inj hright
  obtain ⟨hk', hr'⟩ := View.mk.inj hleft
  have h₁ := appendItems_lists right right.count 1 rfl rfl rfl (by omega) (show left.count + right.count ≤ 4 from hc)
  have h₂ := appendItems_lists right' right'.count 1 hk' hr' rfl (by omega) (by
    rw [count_view hright, count_view hleft]
    exact hc)
  refine view_ext (h₂.1.trans ?_) (h₂.2.trans ?_)
  · rw [h₁.1, hk]
  · rw [h₁.2, hr]

/-- Splitting a full node does not see what the new block held before. -/
theorem view_splitPair {tmp tmp' : NodeInstance} (h : nd'.view = nd.view) (hc : nd.count = treeNodecount)
    (hp : pos ≤ treeNodecount) :
    (splitPair nd' tmp' pos k r).1.view = (splitPair nd tmp pos k r).1.view ∧
      (splitPair nd' tmp' pos k r).2.1.view = (splitPair nd tmp pos k r).2.1.view ∧
      (splitPair nd' tmp' pos k r).2.2 = (splitPair nd tmp pos k r).2.2 := by
  obtain ⟨hk, hr⟩ := View.mk.inj h
  obtain ⟨h₁, h₂, h₃, h₄⟩ := splitPair_lists tmp hc pos hp k r
  obtain ⟨h₁', h₂', h₃', h₄'⟩ := splitPair_lists tmp' ((count_view h).trans hc) pos hp k r
  rw [hk] at h₁' h₃'
  rw [hr] at h₂' h₄'
  obtain ⟨hup, hkeys⟩ := List.cons.inj (h₃'.symm.trans h₃)
  exact ⟨view_ext (h₁'.trans h₁.symm) (h₂'.trans h₂.symm), view_ext hkeys (h₄'.trans h₄.symm), hup⟩

end NodeInstance

end NetworkBfd.Smmr
