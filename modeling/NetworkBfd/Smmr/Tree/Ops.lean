import Mathlib.Data.Finset.Card
import NetworkBfd.Smmr.Tree.Node

/-!
# The index trees: insertion, removal, search and count

The functions of `smmr_tree.c` on the node blocks of one category (`CategoryTree`) and on the trees of all categories
(`TreeInstance`). Blocks come from `shmalloc`, whose answers are read from a list: a block that is not live, with
whatever bytes it held before, or a null pointer together with the garbage that is then left in the out-parameters.
Recursions carry a bound on their depth that the number of live blocks gives; `Tree/Insert.lean`, `Tree/Remove.lean`
and `Tree/Find.lean` show that no tree reaches it.
-/

namespace NetworkBfd.Smmr

/-! ## Blocks -/

/-- What `shmalloc` does next: hand out the block at `ref` with the contents `junk`, or fail and leave `ref`. -/
inductive ShmAnswer
  | block (ref : NodeInstanceOffset) (junk : NodeInstance)
  | null (ref : NodeInstanceOffset)

def ShmAnswer.isBlock : ShmAnswer → Bool
  | .block .. => true
  | .null _ => false

/-- One category: its blocks, `ipcshm_tree_instance_itm_t` (`rooti`, `newnodei`) and
`tree_instance_itm_on_process_t` (`currentItem`, `done`, `deleted`, `undersize`). -/
structure CategoryTree where
  mem : Nat → NodeInstance
  live : Finset Nat
  answers : List ShmAnswer
  rooti : NodeInstanceOffset
  newnodei : NodeInstanceOffset
  currentItem : NodeKey
  done : Bool
  deleted : Bool
  undersize : Bool

namespace CategoryTree

/-- `REFNODE`. -/
def refnode (s : CategoryTree) (nodei : NodeInstanceOffset) : NodeInstance := s.mem nodei.addr

/-- An update of the block at `nodei`. -/
def modify (s : CategoryTree) (nodei : NodeInstanceOffset) (f : NodeInstance → NodeInstance) : CategoryTree :=
  { s with mem := Function.update s.mem nodei.addr (f (s.mem nodei.addr)) }

/-- The depth that no tree of live blocks reaches. -/
def depthBound (s : CategoryTree) : Nat := s.live.card + 1

/-- A block of a user page that is not live. -/
def Fresh (s : CategoryTree) (ref : NodeInstanceOffset) : Prop :=
  1 ≤ ref.pageId.toNat ∧ ref.pageId.toNat < pageCnt ∧ ref.offset.toNat < pageSize ∧ ref.addr ∉ s.live

instance (s : CategoryTree) (ref : NodeInstanceOffset) : Decidable (s.Fresh ref) :=
  inferInstanceAs (Decidable (_ ∧ _ ∧ _ ∧ _))

/-- `SHMALLOC_NML`: the out-parameters, and whether the pointer is not null. -/
def shmalloc (s : CategoryTree) : Except Fault (NodeInstanceOffset × Bool × CategoryTree) :=
  match s.answers with
  | .block ref junk :: rest =>
    if s.Fresh ref then
      .ok (ref, true, { s with
        mem := Function.update s.mem ref.addr junk
        live := insert ref.addr s.live
        answers := rest })
    else .error .contract
  | .null ref :: rest => .ok (ref, false, { s with answers := rest })
  | [] => .error .contract

/-- `SHMFREE`: the contents stay. -/
def shmfree (s : CategoryTree) (nodei : NodeInstanceOffset) : CategoryTree :=
  { s with live := s.live.erase nodei.addr }

/-! ## Insertion -/

/-- `while(pos < count && p(keys[pos])) pos++`. -/
def advance (nd : NodeInstance) (p : NodeKey → Bool) : Nat :=
  ((List.range nd.count).takeWhile (fun pos => p (nd.key pos))).length

/-- The position of `itm` among the keys of a node. -/
def findPos (nd : NodeInstance) (itm : NodeKey) : Nat :=
  advance nd (fun k => compareNodeKeyUnsafe k itm < 0)

/-- `_add_item_to_free_node`. -/
def addItemToFreeNode (s : CategoryTree) (nodei : NodeInstanceOffset) (pos : Nat) : CategoryTree :=
  if nodei.isEmpty then s
  else s.modify nodei (fun nd => nd.addItem pos s.currentItem s.newnodei)

/-- `_split_node`. A null `nodetmp` is dereferenced. -/
def splitNode (s : CategoryTree) (nodei : NodeInstanceOffset) (pos : Nat) : Except Fault CategoryTree :=
  if nodei.isEmpty then .ok s
  else do
    let (newnodei, notnull, s) ← s.shmalloc
    if notnull then
      let (node, nodetmp, up) :=
        (s.refnode nodei).splitPair (s.refnode newnodei) pos s.currentItem s.newnodei
      let s := s.modify nodei (fun _ => node)
      let s := s.modify newnodei (fun _ => nodetmp)
      .ok { s with currentItem := up, newnodei := newnodei }
    else .error .segv

/-- `_insert_item_recurcive`. -/
def insertItemRecurcive : Nat → CategoryTree → NodeInstanceOffset → Except Fault CategoryTree
  | 0, _, _ => .error .fuel
  | fuel + 1, s, nodei =>
    if nodei.isEmpty then .ok { s with done := false, newnodei := default }
    else
      let node := s.refnode nodei
      let pos := findPos node s.currentItem
      if pos < node.count ∧ compareNodeKeyUnsafe (node.key pos) s.currentItem = 0 then .ok { s with done := true }
      else do
        let s ← insertItemRecurcive fuel s (node.child pos)
        if s.done then .ok s
        else if (s.refnode nodei).count < treeNodecount then
          .ok { s.addItemToFreeNode nodei pos with done := true }
        else do
          let s ← s.splitNode nodei pos
          .ok { s with done := false }

/-- `_calloc_new_node`. A null pointer is not dereferenced, and the garbage reference is returned. -/
def callocNewNode (s : CategoryTree) : Except Fault (NodeInstanceOffset × CategoryTree) := do
  let (newnodei, notnull, s) ← s.shmalloc
  if notnull then
    let s := s.modify newnodei (fun nd =>
      let nd := { nd with count := 1 }
      ((nd.setKey 0 s.currentItem).setChild 0 s.rooti).setChild 1 s.newnodei)
    .ok (newnodei, s)
  else .ok (newnodei, s)

/-- The critical section of `add_tree_safe`. -/
def addTree (s : CategoryTree) (itm : NodeKey) : Except Fault CategoryTree := do
  let s := { s with currentItem := itm }
  let s ← insertItemRecurcive s.depthBound s s.rooti
  if s.done then .ok s
  else do
    let (rooti, s) ← s.callocNewNode
    .ok { s with rooti := rooti }

/-! ## Removal -/

/-- `_remove_item_moveright`: the last key of the left sibling goes up, the separator comes down in front. -/
def removeItemMoveright (s : CategoryTree) (nodei : NodeInstanceOffset) (pos : Nat) : CategoryTree :=
  let node := s.refnode nodei
  let righti := node.child pos
  let lefti := node.child (pos - 1)
  let left := s.refnode lefti
  let s := s.modify righti (fun right => right.pushFront (node.key (pos - 1)) (left.child left.count))
  let s := s.modify nodei (fun node => node.setKey (pos - 1) (left.key (left.count - 1)))
  s.modify lefti NodeInstance.dropBack

/-- `_remove_item_moveleft`: the first key of the right sibling goes up, the separator comes down behind. -/
def removeItemMoveleft (s : CategoryTree) (nodei : NodeInstanceOffset) (pos : Nat) : CategoryTree :=
  let node := s.refnode nodei
  let righti := node.child pos
  let lefti := node.child (pos - 1)
  let right := s.refnode righti
  let s := s.modify lefti (fun left => left.pushBack (node.key (pos - 1)) (right.child 0))
  let s := s.modify nodei (fun node => node.setKey (pos - 1) (right.key 0))
  s.modify righti NodeInstance.dropFront

/-- `_remove_item_trgt`. -/
def removeItemTrgt (s : CategoryTree) (nodei : NodeInstanceOffset) (pos : Nat) : CategoryTree :=
  let s := s.modify nodei (fun node => node.dropItem pos)
  { s with undersize := (s.refnode nodei).count < treeNodemin }

/-- `_remove_item_combine`: the separator and the right sibling go to the left one, the right block is freed. -/
def removeItemCombine (s : CategoryTree) (nodei : NodeInstanceOffset) (pos : Nat) : CategoryTree :=
  let node := s.refnode nodei
  let righti := node.child pos
  let lefti := node.child (pos - 1)
  let right := s.refnode righti
  let s := s.modify lefti (fun left =>
    NodeInstance.appendItems right right.count 1 (left.pushBack (node.key (pos - 1)) (right.child 0)))
  let s := s.removeItemTrgt nodei (pos - 1)
  s.shmfree righti

/-- `_remove_item_restore`: the child at `pos` has too few keys. -/
def removeItemRestore (s : CategoryTree) (nodei : NodeInstanceOffset) (pos : Nat) : CategoryTree :=
  if nodei.isEmpty then s
  else
    let s := { s with undersize := false }
    let node := s.refnode nodei
    if 0 < pos then
      if treeNodemin < (s.refnode (node.child (pos - 1))).count then s.removeItemMoveright nodei pos
      else s.removeItemCombine nodei pos
    else
      if treeNodemin < (s.refnode (node.child 1)).count then s.removeItemMoveleft nodei 1
      else s.removeItemCombine nodei 1

/-- `while(!ISEMPTY_NODE(tmpnode->childsi[0]))`: the leftmost block below `tmpnodei`. -/
def leftmost (s : CategoryTree) : Nat → NodeInstanceOffset → Except Fault NodeInstance
  | 0, _ => .error .fuel
  | fuel + 1, tmpnodei =>
    let tmpnode := s.refnode tmpnodei
    if (tmpnode.child 0).isEmpty then .ok tmpnode
    else leftmost s fuel (tmpnode.child 0)

/-- `_remove_item_recursive`. -/
def removeItemRecursive : Nat → CategoryTree → NodeInstanceOffset → Except Fault CategoryTree
  | 0, _, _ => .error .fuel
  | fuel + 1, s, nodei =>
    if nodei.isEmpty then .ok s
    else
      let node := s.refnode nodei
      let pos := findPos node s.currentItem
      if pos < node.count ∧ compareNodeKeyUnsafe s.currentItem (node.key pos) = 0 then
        let s := { s with deleted := true }
        let tmpnodei := node.child (pos + 1)
        if !tmpnodei.isEmpty then do
          let tmpnode ← s.leftmost fuel tmpnodei
          let s := s.modify nodei (fun node => node.setKey pos (tmpnode.key 0))
          let s := { s with currentItem := tmpnode.key 0 }
          let s ← removeItemRecursive fuel s ((s.refnode nodei).child (pos + 1))
          if s.undersize then .ok (s.removeItemRestore nodei (pos + 1)) else .ok s
        else .ok (s.removeItemTrgt nodei pos)
      else do
        let s ← removeItemRecursive fuel s (node.child pos)
        if s.undersize then .ok (s.removeItemRestore nodei pos) else .ok s

/-- The critical section of `remove_tree_safe`, which is the body of `remove_tree_unsafe`. -/
def removeTree (s : CategoryTree) (itm : NodeKey) : Except Fault CategoryTree := do
  let s := { s with deleted := false, undersize := false, currentItem := itm }
  let s ← removeItemRecursive s.depthBound s s.rooti
  if s.deleted then
    let rootnode := s.refnode s.rooti
    if rootnode.count = 0 then
      let nodei := s.rooti
      let s := { s with rooti := rootnode.child 0 }
      .ok (s.shmfree nodei)
    else .ok s
  else .ok s

/-! ## Search and count -/

section Search

variable {σ : Type}

/-- `_search_item_recurcive`: the callback is made on the entry equal to `itm`. -/
def searchItemRecurcive (s : CategoryTree) (itm : NodeKey) (func : NodeKey → σ → Ret × σ) :
    Nat → NodeInstanceOffset → σ → Except Fault (Ret × σ)
  | 0, _, _ => .error .fuel
  | fuel + 1, nodei, u =>
    if nodei.isEmpty then .ok (.ng, u)
    else
      let findnode := s.refnode nodei
      let pos := findPos findnode itm
      if pos < findnode.count ∧ compareNodeKeyUnsafe itm (findnode.key pos) = 0 then
        .ok (func (findnode.key pos) u)
      else searchItemRecurcive s itm func fuel (findnode.child pos) u

/-- The loop over the entries of one level, from `prev_pos` on; `rec` searches a child. The result says whether the
callback asked to stop. -/
def scanLevel (nd : NodeInstance) (keyhash : BitVec 32) (func : NodeKey → σ → Ret × σ)
    (rec : NodeInstanceOffset → σ → Except Fault (Ret × σ)) (prevPos : Nat) :
    List Nat → σ → Except Fault (Bool × σ)
  | [], u => .ok (false, u)
  | pos :: ps, u =>
    let (result, u) := if keyhash = (nd.key pos).keyhash then func (nd.key pos) u else (.ok, u)
    if keyhash = (nd.key pos).keyhash ∧ result = .ng then .ok (true, u)
    else if prevPos ≠ pos then do
      let (_, u) ← rec (nd.child pos) u
      scanLevel nd keyhash func rec prevPos ps u
    else scanLevel nd keyhash func rec prevPos ps u

/-- `_search_item_only_keyhash_recurcive`: the callback is made on the entries with hash `keyhash`. The descent to the
left child is the next round of the `while` loop. -/
def searchItemOnlyKeyhashRecurcive (s : CategoryTree) (keyhash : BitVec 32) (func : NodeKey → σ → Ret × σ) :
    Nat → NodeInstanceOffset → σ → Except Fault (Ret × σ)
  | 0, _, _ => .error .fuel
  | fuel + 1, nodei, u =>
    if nodei.isEmpty then .ok (.ng, u)
    else
      let findnode := s.refnode nodei
      let pos := advance findnode (fun k => k.keyhash < keyhash)
      if pos = 0 ∧ 0 < findnode.count ∧ keyhash < (findnode.key 0).keyhash then
        searchItemOnlyKeyhashRecurcive s keyhash func fuel (findnode.child 0) u
      else do
        let (stop, u) ← scanLevel findnode keyhash func (searchItemOnlyKeyhashRecurcive s keyhash func fuel) pos
          (List.range' pos (findnode.count - pos)) u
        if stop then .ok (.ok, u)
        else do
          let (_, u) ← if findnode.count ≠ pos then
              searchItemOnlyKeyhashRecurcive s keyhash func fuel (findnode.child findnode.count) u
            else .ok (.ng, u)
          searchItemOnlyKeyhashRecurcive s keyhash func fuel (findnode.child pos) u

end Search

/-- `_count_node_recursive_unsafe`. -/
def countNodeRecursiveUnsafe (s : CategoryTree) : Nat → NodeInstanceOffset → Except Fault (BitVec 32)
  | 0, _ => .error .fuel
  | fuel + 1, nodei =>
    if nodei.isEmpty then .ok 0
    else do
      let node := s.refnode nodei
      let count ← (List.range node.count).foldlM (fun count n => do
        let c ← countNodeRecursiveUnsafe s fuel (node.child n)
        .ok (count + c + 1)) 0
      let c ← countNodeRecursiveUnsafe s fuel (node.child node.count)
      .ok (count + c)

/-! ## Teardown -/

/-- `_free_tree_node_unsafe`, with the blocks passed to `SHMFREE` so far. The child slots are visited by index, whatever
the count of the node. -/
def freeTreeNodeUnsafe : Nat → CategoryTree × List Nat → NodeInstanceOffset → Except Fault (CategoryTree × List Nat)
  | 0, _, _ => .error .fuel
  | fuel + 1, st, nodei =>
    if nodei.isEmpty then .ok st
    else do
      let (s, freed) ← (List.range treeNodecount).foldlM (fun st n =>
        freeTreeNodeUnsafe fuel st ((st.1.refnode nodei).child n)) st
      .ok (s.shmfree nodei, freed ++ [nodei.addr])

end CategoryTree

/-! ## All categories -/

/-- `tree_instance_t`, every category mapped. -/
abbrev TreeInstance := Fin categoryCnt → CategoryTree

namespace TreeInstance

/-- `get_category_id_by_hashkey_unsafe`. -/
def getCategoryId (hashedKey : BitVec 32) : Option (Fin categoryCnt) :=
  if hashedKey = 0 then none
  else some ⟨hashedKey.toNat % categoryCnt, Nat.mod_lt _ (by decide)⟩

/-- `add_tree_safe`. -/
def addTreeSafe (inst : TreeInstance) (itm : NodeKey) : Except Fault (Ret × TreeInstance) :=
  match getCategoryId itm.keyhash with
  | none => .ok (.ng, inst)
  | some c => do
    let s ← (inst c).addTree itm
    .ok (.ok, Function.update inst c s)

/-- `remove_tree_safe`. -/
def removeTreeSafe (inst : TreeInstance) (itm : NodeKey) : Except Fault (Ret × TreeInstance) :=
  match getCategoryId itm.keyhash with
  | none => .ok (.ng, inst)
  | some c => do
    let s ← (inst c).removeTree itm
    .ok (.ok, Function.update inst c s)

section Search

variable {σ : Type}

/-- `find_tree_safe`. -/
def findTreeSafe (inst : TreeInstance) (itm : NodeKey) (func : NodeKey → σ → Ret × σ) (u : σ) :
    Except Fault (Ret × σ) :=
  match getCategoryId itm.keyhash with
  | none => .ok (.ng, u)
  | some c => (inst c).searchItemRecurcive itm func (inst c).depthBound (inst c).rooti u

/-- `find_tree_only_keyhash_safe`. -/
def findTreeOnlyKeyhashSafe (inst : TreeInstance) (keyhash : BitVec 32) (func : NodeKey → σ → Ret × σ) (u : σ) :
    Except Fault (Ret × σ) :=
  match getCategoryId keyhash with
  | none => .ok (.ng, u)
  | some c => (inst c).searchItemOnlyKeyhashRecurcive keyhash func (inst c).depthBound (inst c).rooti u

end Search

/-- `count_tree_safe`. -/
def countTreeSafe (inst : TreeInstance) : Except Fault (BitVec 32) :=
  (List.finRange categoryCnt).foldlM (fun count n => do
    let c ← (inst n).countNodeRecursiveUnsafe (inst n).depthBound (inst n).rooti
    .ok (count + c)) 0

/-- `free_tree_unsafe`, with the blocks passed to `SHMFREE` in each category. -/
def freeTreeUnsafe (fuel : Nat) (inst : TreeInstance) :
    Except Fault (Ret × TreeInstance × (Fin categoryCnt → List Nat)) := do
  let (inst, freed) ← (List.finRange categoryCnt).foldlM (fun st n => do
    let (s, log) ← CategoryTree.freeTreeNodeUnsafe fuel (st.1 n, []) (st.1 n).rooti
    .ok (Function.update st.1 n s, Function.update st.2 n log)) (inst, fun _ => [])
  .ok (.ok, inst, freed)

end TreeInstance
end NetworkBfd.Smmr
