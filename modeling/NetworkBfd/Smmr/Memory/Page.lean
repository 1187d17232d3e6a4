import NetworkBfd.Lib.ByteMemory
import NetworkBfd.Lib.LinkedList
import NetworkBfd.Smmr.Basic

/-!
# One memory page

A page is seen from its first byte on, as `mempage_root` points to it. It starts with three root items, of the used
list, of the recycle list and of the bucket; behind them lie the items, each between a `memitem_head_t` and a
`memitem_foot_t`, and last the bucket, the space that was never handed out. `operateInsert` cuts an item off the bucket,
`operateRecycle` moves one from the recycle list to the used list, `releaseItem` moves one back, and `shrinkPage` makes
all of the page bucket again.

The `created` stamps are left out: no function of the source reads one.
-/

namespace NetworkBfd.Smmr.Memory

open Lib

/-! ## Layout -/

@[simp] def sizeofMemitemHead : Nat := 16
@[simp] def sizeofMemitemFoot : Nat := 16
@[simp] def mmposUsedRoot : Nat := 0
@[simp] def mmposFreeRoot : Nat := 56
@[simp] def mmposBcktRoot : Nat := 112
@[simp] def mmposBcktInit : Nat := 168
@[simp] def mmposMinOfst : Nat := 32
@[simp] def mmposRootSize : Nat := 56
@[simp] def mmposRootFoot : Nat := 40
@[simp] def mmposRootDtl : Nat := 16
@[simp] def mmsizHfSize : Nat := 32
@[simp] def mmsizAllRoot : Nat := 224
@[simp] def mmsizBcktInitSize : Nat := 130848

@[simp] def mmsigUsed : Nat := 0xDB00C0DE
@[simp] def mmsigFree : Nat := 0xDB55C0DE
@[simp] def mmsigBckt : Nat := 0xDB77C0DE
@[simp] def mmsigSufx : Nat := 0xDEADC0DE
@[simp] def mmflgClose : Nat := 0xFFFFFFFF
@[simp] def uintMax : Nat := 4294967295

section Fields

variable (p : Bytes) (x v : Nat)

/-! The fields of the `memitem_head_t` at `x`. -/

def signature : Nat := p.word x 4
def prevOffset : Nat := p.word (x + 4) 4
def nextOffset : Nat := p.word (x + 8) 4
def len : Nat := p.word (x + 12) 4

def setSignature : Bytes := p.putWord x 4 v
def setPrevOffset : Bytes := p.putWord (x + 4) 4 v
def setNextOffset : Bytes := p.putWord (x + 8) 4 v
def setLen : Bytes := p.putWord (x + 12) 4 v

/-! The fields of the `memitem_foot_t` at `x`. -/

def suffix : Nat := p.word (x + 4) 4
def footCategoryId : Nat := p.word (x + 8) 4

def setSuffix : Bytes := p.putWord (x + 4) 4 v
def setFootCategoryId : Bytes := p.putWord (x + 8) 4 v

/-! The fields of the `memitem_root_detail_t` of the root at `x`. -/

def lastOffset : Nat := p.word (x + mmposRootDtl + 4) 4
def freeSize : Nat := p.word (x + mmposRootDtl + 8) 4
def freeCnt : Nat := p.word (x + mmposRootDtl + 12) 4
def useSize : Nat := p.word (x + mmposRootDtl + 16) 4
def useCnt : Nat := p.word (x + mmposRootDtl + 20) 4

def setFirstOffset : Bytes := p.putWord (x + mmposRootDtl) 4 v
def setLastOffset : Bytes := p.putWord (x + mmposRootDtl + 4) 4 v
def setFreeSize : Bytes := p.putWord (x + mmposRootDtl + 8) 4 v
def setFreeCnt : Bytes := p.putWord (x + mmposRootDtl + 12) 4 v
def setUseSize : Bytes := p.putWord (x + mmposRootDtl + 16) 4 v
def setUseCnt : Bytes := p.putWord (x + mmposRootDtl + 20) 4 v

/-- The foot of the item at `x`, from the length in its head. -/
def footOf : Nat := x + (len p x - sizeofMemitemFoot)

end Fields

/-! ## Walks along the lists -/

/-- The checks of an item, or of a root: its place, its signature, its length and the suffix of its foot. -/
def validItem (p : Bytes) (sig minLen x foot : Nat) : Bool :=
  decide (x < pageSize) && signature p x == sig && decide (minLen ≤ len p x) && suffix p foot == mmsigSufx

/-- The items, the root first, that a loop along the list of `root` visits, and whether it reached `MMFLG_CLOSE`. The
loops differ in the signature and in the least length they accept. -/
def visited (p : Bytes) (sig minLen root : Nat) : List Nat × Bool :=
  follow (nextOffset p) mmflgClose (fun x => validItem p sig minLen x (footOf p x)) (uintMax + 2)
    (validItem p sig minLen root (root + mmposRootFoot)) root

/-- `_find_freeitem_over_size`. -/
def findFreeitemOverSize (p : Bytes) (size : Nat) : Nat :=
  if size = 0 then 0
  else
    let items := (visited p mmsigFree mmposMinOfst mmposFreeRoot).1
    (items.find? fun x => x ≠ mmposFreeRoot ∧ mmsizHfSize + size ≤ len p x).getD 0

/-! ## Items change lists -/

/-- The item at `x` leaves the list of `root`. -/
def detachItem (p : Bytes) (root x : Nat) : Bytes :=
  let p := setNextOffset p (prevOffset p x) (nextOffset p x)
  if nextOffset p x = mmflgClose then setLastOffset p root (prevOffset p x)
  else setPrevOffset p (nextOffset p x) (prevOffset p x)

/-- The item at `x` becomes the last of the list of `root`, under its signature `sig`. -/
def attachItem (p : Bytes) (root sig x : Nat) : Bytes :=
  let p := setSignature p x sig
  let last := lastOffset p root
  let p := setNextOffset p x mmflgClose
  let p := setPrevOffset p x (lastOffset p root)
  let p := setNextOffset p last x
  setLastOffset p root x

/-- `_operate_recycle`: the item found, or 0. -/
def operateRecycle (p : Bytes) (alignedSize : Nat) : Bytes × Nat :=
  if alignedSize = 0 then (p, 0)
  else
    let findedOffset := findFreeitemOverSize p alignedSize
    if findedOffset = 0 then (p, 0)
    else (attachItem (detachItem p mmposFreeRoot findedOffset) mmposUsedRoot mmsigUsed findedOffset, findedOffset)

/-- What `shmfree` does to the item that it found in the used list. -/
def releaseItem (p : Bytes) (offset : Nat) : Bytes :=
  attachItem (detachItem p mmposUsedRoot offset) mmposFreeRoot mmsigFree offset

/-! ## The bucket -/

/-- The head of an item. -/
def putHead (p : Bytes) (x sig prev next length : Nat) : Bytes :=
  setLen (setNextOffset (setPrevOffset (setSignature p x sig) x prev) x next) x length

/-- `_operate_insert`: the item cut off the bucket, or 0. -/
def operateInsert (categoryId : Nat) (p : Bytes) (alignedSize : Nat) : Bytes × Nat :=
  if alignedSize = 0 then (p, 0)
  else
    let usedLast := lastOffset p mmposUsedRoot
    let insertedOffset := nextOffset p mmposBcktRoot
    let backetLen := len p insertedOffset
    let need := alignedSize + mmsizHfSize
    if backetLen < need then (p, 0)
    else
      let p := setNextOffset p mmposBcktRoot (insertedOffset + need)
      let p := putHead p (nextOffset p mmposBcktRoot) mmsigBckt mmposBcktRoot mmflgClose (backetLen - need)
      let p := putHead p insertedOffset mmsigUsed (lastOffset p mmposUsedRoot) mmflgClose need
      let p := p.write (insertedOffset + sizeofMemitemHead) (List.replicate alignedSize 0)
      let foot := footOf p insertedOffset
      let p := setFootCategoryId (setSuffix p foot mmsigSufx) foot categoryId
      let p := setLastOffset p mmposUsedRoot insertedOffset
      (setNextOffset p usedLast insertedOffset, insertedOffset)

/-! ## Setting up a page -/

/-- The head, the details and the foot of a root. -/
def putRoot (p : Bytes) (root sig next first last : Nat) : Bytes :=
  let p := putHead p root sig 0 next mmposRootSize
  let p := setLastOffset (setFirstOffset p root first) root last
  let p := setFreeCnt (setFreeSize (setUseCnt (setUseSize p root 0) root 0) root 0) root 0
  setSuffix p (root + mmposRootFoot) mmsigSufx

/-- The part of `_shrink_backet_recycle` on the page: the recycle list is empty, and the bucket has all the space. -/
def shrinkPage (p : Bytes) : Bytes :=
  let p := putRoot p mmposFreeRoot mmsigFree mmflgClose mmposFreeRoot mmposFreeRoot
  let p := putRoot p mmposBcktRoot mmsigBckt mmposBcktInit mmposBcktRoot mmposBcktInit
  let p := putHead p mmposBcktInit mmsigBckt mmposBcktRoot mmflgClose mmsizBcktInitSize
  setSuffix p (mmposBcktInit + (mmsizBcktInitSize - sizeofMemitemFoot)) mmsigSufx

/-- The used root that `rebuild_pages_area` writes on a page without one. -/
def putUsedRoot (p : Bytes) : Bytes := putRoot p mmposUsedRoot mmsigUsed mmflgClose mmposUsedRoot mmposUsedRoot

/-- The checks that `rebuild_pages_area` makes of a root. -/
def validRoot (p : Bytes) (root sig : Nat) : Bool :=
  signature p root == sig && prevOffset p root == 0 && len p root == mmposRootSize &&
    suffix p (root + mmposRootFoot) == mmsigSufx

/-- The three roots of a page that was set up before. -/
def validRoots (p : Bytes) : Bool :=
  validRoot p mmposUsedRoot mmsigUsed && validRoot p mmposFreeRoot mmsigFree && validRoot p mmposBcktRoot mmsigBckt

end NetworkBfd.Smmr.Memory
