import NetworkBfd.Smmr.Memory.Page

/-!
# The memory of a category

A category is one mapped file: a system page with the sums of the category and its bitmaps, and the user pages.
`shmalloc` goes through the bitmaps of its size class and, at each, through the user pages; `shmfree` looks for the item
in the used lists; `rebuildPageStatics` and `rebuildPagesArea` set the bitmaps and the sums anew from the lists.
Pointers are counted from `data_pointer`, which is always mapped here.
-/

namespace NetworkBfd.Smmr.Memory

open Lib

/-- `IPCSHM_SYSPAGE_ENUM`: the bitmaps of the system page. -/
inductive SysPage
  | dc032
  | dc128
  | dc512
  | dc2k
  | free000
  | free032
  | free128
  | free512
  | free2k
  | err
deriving DecidableEq, Repr

/-- The number of a bitmap's part of the system page; part 0 holds the sums. -/
def SysPage.index : SysPage → Nat
  | dc032 => 1
  | dc128 => 2
  | dc512 => 3
  | dc2k => 4
  | free000 => 5
  | free032 => 6
  | free128 => 7
  | free512 => 8
  | free2k => 9
  | err => 10

@[simp] def syspageSize : Nat := 2048

def mmposSyspageBmp (b : SysPage) : Nat := b.index * syspageSize
def mmposUsrpage (n : Nat) : Nat := n * pageSize

/-- `category_on_process_t`. -/
structure Category where
  id : BitVec 32
  filesize : Nat
  data : Bytes

/-- The pages of the user area. -/
@[irreducible] def userPages : List Nat := List.range' 1 (pageCnt - 1)

/-! ## Pages and bits -/

/-- Page `n`, from its first byte on. -/
def page (data : Bytes) (n : Nat) : Bytes := fun i => data (mmposUsrpage n + i)

/-- The memory with `p` from the first byte of page `n` on. -/
def withPage (data : Bytes) (n : Nat) (p : Bytes) : Bytes := fun i =>
  if mmposUsrpage n ≤ i then p (i - mmposUsrpage n) else data i

/-- `ISPAGEBIT`. -/
def isPagebit (data : Bytes) (b : SysPage) (n : Nat) : Bool := data.bit (mmposSyspageBmp b) n

/-- `PAGEBIT_ON` and `PAGEBIT_OFF`. -/
def pagebit (data : Bytes) (n : Nat) (v : Bool) (b : SysPage) : Bytes := data.setBit (mmposSyspageBmp b) n v

/-- The bit of page `n` in several bitmaps. -/
def pagebits (data : Bytes) (n : Nat) (v : Bool) (bs : List SysPage) : Bytes :=
  bs.foldl (fun data b => pagebit data n v b) data

def dcBitmaps : List SysPage := [.dc032, .dc128, .dc512, .dc2k]
def freeBitmaps : List SysPage := [.free000, .free032, .free128, .free512, .free2k]

/-! ## Rebuilding a page -/

/-- `_shrink_backet_recycle`. -/
def shrinkBacketRecycle (pageid : Nat) (data : Bytes) : Bytes :=
  let data := pagebits data pageid true dcBitmaps
  let data := pagebits data pageid false freeBitmaps
  withPage data pageid (shrinkPage (page data pageid))

/-- The bitmaps for a recycled item with `remainSize` bytes between its head and its foot. -/
def freeClasses (remainSize : Nat) : List SysPage :=
  if remainSize > 0x0800 then [.free000, .free032, .free128, .free512, .free2k]
  else if remainSize > 0x0200 then [.free000, .free032, .free128, .free512]
  else if remainSize > 0x0080 then [.free000, .free032, .free128]
  else if remainSize > 0x0020 then [.free000, .free032]
  else [.free000]

/-- The bitmaps for a page with `remainSize` bytes left. -/
def dcClasses (remainSize : Nat) : List SysPage :=
  if remainSize > 0x0800 then [.dc032, .dc128, .dc512, .dc2k]
  else if remainSize > 0x0200 then [.dc032, .dc128, .dc512]
  else if remainSize > 0x0080 then [.dc032, .dc128]
  else if remainSize > 0x0020 then [.dc032]
  else []

/-- The visited items that count in a summary: not the root, and longer than a head and a foot. -/
def countedItems (p : Bytes) (root : Nat) (items : List Nat) : List Nat :=
  items.filter fun x => len p x - mmposMinOfst > 0 ∧ x ≠ root

/-- `used_size_summary` and `recycle_size_summary`. -/
def sizeSummary (p : Bytes) (root : Nat) (items : List Nat) : Nat :=
  ((countedItems p root items).map (len p)).sum % 2 ^ 32

/-- `used_count_summary` and `recycle_count_summary`. -/
def countSummary (p : Bytes) (root : Nat) (items : List Nat) : Nat := (countedItems p root items).length % 2 ^ 32

/-- `remain_size`, in 32 bits, from the summaries of the used list. -/
def remainSize (usedSizeSummary usedCountSummary : Nat) : Nat :=
  (((pageSize : Int) - mmsizAllRoot - usedSizeSummary - usedCountSummary * mmsizHfSize) % 2 ^ 32).toNat

/-- The bits of the recycled items of a page. -/
def recycleBits (data : Bytes) (pageid : Nat) (p : Bytes) (items : List Nat) : Bytes :=
  (countedItems p mmposFreeRoot items).foldl
    (fun data x => pagebits data pageid true (freeClasses (len p x - mmposMinOfst))) data

/-- `_rebuild_bitmap_and_pagesummary`. -/
def rebuildBitmapAndPagesummary (pageid : Nat) (data : Bytes) (onlyDc : Bool) : Bytes × Ret :=
  if pageid < 1 ∨ pageCnt ≤ pageid then (data, .ng)
  else
    let data := pagebits data pageid false dcBitmaps
    let data := if onlyDc then data else pagebits data pageid false freeBitmaps
    let p := page data pageid
    let recycled := visited p mmsigFree mmposMinOfst mmposFreeRoot
    let data := if onlyDc then data else recycleBits data pageid p recycled.1
    if !onlyDc && !recycled.2 then (data, .ng)
    else
      let used := visited p mmsigUsed mmposMinOfst mmposUsedRoot
      if !used.2 then (data, .ng)
      else
        let usedSizeSummary := sizeSummary p mmposUsedRoot used.1
        let usedCountSummary := countSummary p mmposUsedRoot used.1
        let recycleSizeSummary := sizeSummary p mmposFreeRoot recycled.1
        let recycleCountSummary := countSummary p mmposFreeRoot recycled.1
        let data := pagebits data pageid true (dcClasses (remainSize usedSizeSummary usedCountSummary))
        let p := setUseCnt (setUseSize p mmposUsedRoot usedSizeSummary) mmposUsedRoot usedCountSummary
        let p :=
          if onlyDc then p
          else setFreeCnt (setFreeSize p mmposFreeRoot recycleSizeSummary) mmposFreeRoot recycleCountSummary
        let data := withPage data pageid p
        (if !onlyDc && usedSizeSummary == 0 then shrinkBacketRecycle pageid data else data, .ok)

/-! ## Rebuilding a category -/

/-- The sums of `mempage_system_t` start from 0. -/
def clearSums (data : Bytes) : Bytes := (((data.putWord 12 4 0).putWord 16 4 0).putWord 20 4 0).putWord 24 4 0

/-- The sums of the used list of a page are added to those of the category. -/
def addUseSums (data : Bytes) (n : Nat) : Bytes :=
  let data := data.putWord 20 4 (data.word 20 4 + useSize (page data n) mmposUsedRoot)
  data.putWord 24 4 (data.word 24 4 + useCnt (page data n) mmposUsedRoot)

/-- The sums of the recycle list of a page are added to those of the category. -/
def addFreeSums (data : Bytes) (n : Nat) : Bytes :=
  let data := data.putWord 12 4 (data.word 12 4 + freeSize (page data n) mmposFreeRoot)
  data.putWord 16 4 (data.word 16 4 + freeCnt (page data n) mmposFreeRoot)

/-- What `rebuild_page_statics` does with page `m`. -/
def rebuildPage (data : Bytes) (m : Nat) : Bytes :=
  match rebuildBitmapAndPagesummary m data false with
  | (data, .ok) => addFreeSums (addUseSums (pagebit data m false .err) m) m
  | (data, _) => pagebit data m true .err

/-- `rebuild_page_statics`. -/
def rebuildPageStatics (c : Category) : Category :=
  { c with data := userPages.foldl rebuildPage (clearSums c.data) }

/-- What `rebuild_pages_area` does with a page whose roots are right. -/
def rebuildValidPage (data : Bytes) (m : Nat) : Bytes :=
  match rebuildBitmapAndPagesummary m data false with
  | (data, .ok) =>
    let data := pagebit data m false .err
    let data := if useSize (page data m) mmposUsedRoot ≠ 0 then addUseSums data m else data
    if freeSize (page data m) mmposFreeRoot ≠ 0 then addFreeSums data m else data
  | (data, _) => pagebit data m true .err

/-- What `rebuild_pages_area` does with page `m`. -/
def openPage (data : Bytes) (m : Nat) : Bytes :=
  if signature (page data m) mmposUsedRoot ≠ mmsigUsed then
    let data := withPage data m (putUsedRoot (page data m))
    let data := shrinkBacketRecycle m data
    let data := pagebit data m false .err
    rebuildValidPage (pagebits data m true dcBitmaps) m
  else if validRoots (page data m) then rebuildValidPage data m
  else pagebit data m true .err

/-- `rebuild_pages_area`, for the category of index `n`; the categories do not meet. -/
def rebuildPagesArea (n : Nat) (c : Category) : Category :=
  let data := ((c.data.putWord 0 4 n).putWord 4 4 pageSize).putWord 8 4 c.filesize
  { c with data := userPages.foldl openPage (clearSums data) }

/-! ## Blocks -/

/-- What `shmalloc` answers: where the block is. -/
structure Block where
  cateid : BitVec 16
  pageid : Nat
  offset : Nat
deriving DecidableEq, Repr

/-- The address of the block's user area. -/
def Block.pointer (b : Block) : Nat := mmposUsrpage b.pageid + b.offset + sizeofMemitemHead

/-- Sizes are rounded up to words. -/
def alignedSize (size : Nat) : Nat := if size % 4 = 0 then size else (size / 4 + 1) * 4

/-- `bitmapids`: the bitmaps of a size class, of the bucket and of the recycle list. -/
def bitmapids : List (SysPage × SysPage) :=
  [(.dc032, .free000), (.dc032, .free032), (.dc128, .free128), (.dc512, .free512), (.dc2k, .free2k)]

/-- `start_bmp_id`. -/
def startBmpId (alignedSize : Nat) : Nat :=
  if alignedSize > 0x0200 then 3 else if alignedSize > 0x0080 then 2 else if alignedSize > 0x0020 then 1 else 0

/-- The bitmaps and pages in the order in which `shmalloc` tries them. -/
def attempts (alignedSize : Nat) : List ((SysPage × SysPage) × Nat) :=
  (bitmapids.drop (startBmpId alignedSize)) ×ˢ userPages

/-- `op` on page `n` if its bit is on; an answer of 0 is none. -/
def attempt (data : Bytes) (b : SysPage) (n : Nat) (op : Bytes → Bytes × Nat) : Bytes × Nat :=
  if isPagebit data b n then
    let r := op (page data n)
    (withPage data n r.1, r.2)
  else (data, 0)

/-- The block found, unless it is not inside of its page. -/
def foundBlock (id : BitVec 32) (n findedOffset : Nat) : Option Block :=
  if findedOffset > pageSize then none else some ⟨id.setWidth 16, n, findedOffset⟩

/-- The loops of `shmalloc`. -/
def shmallocLoop (id : BitVec 32) (a : Nat) : List ((SysPage × SysPage) × Nat) → Bytes → Bytes × Option Block
  | [], data => (data, none)
  | ((dc, free), n) :: rest, data =>
    if isPagebit data .err n then shmallocLoop id a rest data
    else
      let r := attempt data free n fun p => operateRecycle p a
      if r.2 ≠ 0 then (r.1, foundBlock id n r.2)
      else
        let r := attempt r.1 dc n fun p => operateInsert id.toNat p a
        if r.2 ≠ 0 then (r.1, foundBlock id n r.2) else shmallocLoop id a rest r.1

/-- `shmalloc`. -/
def shmalloc (c : Category) (size : Nat) : Category × Option Block :=
  if size = 0 ∨ size > 2048 then (c, none)
  else
    let r := shmallocLoop c.id (alignedSize size) (attempts (alignedSize size)) c.data
    ({ c with data := r.1 }, r.2)

/-- The loop of `shmfree` over the pages. -/
def shmfreeLoop (head : Nat) : List Nat → Bytes → Bytes
  | [], data => data
  | n :: rest, data =>
    if isPagebit data .err n then shmfreeLoop head rest data
    else
      match (visited (page data n) mmsigUsed (mmposMinOfst + 1) mmposUsedRoot).1.find?
        fun x => mmposUsrpage n + x = head with
      | some x => withPage data n (releaseItem (page data n) x)
      | none => shmfreeLoop head rest data

/-- `shmfree`. -/
def shmfree (c : Category) (pointer : Nat) : Category :=
  if mmposBcktInit + sizeofMemitemHead > pointer then c
  else
    let head := pointer - sizeofMemitemHead
    let foot := head + len c.data head - sizeofMemitemFoot
    if signature c.data head ≠ mmsigUsed then c
    else if len c.data head = 0 then c
    else if len c.data head ≤ mmposMinOfst then c
    else if suffix c.data foot ≠ mmsigSufx then c
    else if footCategoryId c.data foot ≠ c.id.toNat then c
    else { c with data := shmfreeLoop head userPages c.data }

/-- `attach`: the user area of the first used item of the size whose first word is `itemid`. -/
def attach (c : Category) (size itemid : Nat) : Option Nat :=
  if size = 0 then none
  else
    userPages.findSome? fun n =>
      let p := page c.data n
      let items := (visited p mmsigUsed mmposMinOfst mmposUsedRoot).1
      let hit := items.find? fun x => x ≠ mmposUsedRoot ∧ len p x = mmsizHfSize + alignedSize size ∧
        p.word (x + sizeofMemitemHead) 4 = itemid
      hit.map fun x => mmposUsrpage n + x + sizeofMemitemHead

end NetworkBfd.Smmr.Memory
