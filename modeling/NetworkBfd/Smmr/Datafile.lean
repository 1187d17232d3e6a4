import NetworkBfd.Lib.ByteMemory
import NetworkBfd.Smmr.Basic
import Mathlib.Logic.Function.Basic

/-!
# Data files

The files that hold the items (`smmr_database.c`). A mapped file is a byte memory: `db_table_header_t` with its page
bitmap lies at its beginning, and the items behind it in pages of 128 bytes. Sizes and offsets are numbers, reduced
where the source's types reduce them. `used_count`, `last_updated` and `table_name`, which nothing reads, are left out.
-/

namespace NetworkBfd.Smmr

open Lib Lib.Bytes

abbrev ipcDatafileTtlsize : Nat := 134217728
abbrev ipcDatafileAligned : Nat := 128
abbrev sizeofDbTableHeader : Nat := 131200
abbrev sizeofDataitm : Nat := 24
abbrev ipcDatafilePagecnt : Nat := (ipcDatafileTtlsize - sizeofDbTableHeader) / ipcDatafileAligned
abbrev dataitemSignatureId : Nat := 0xDEADC1DE

/-- With and without `__TEST__`. -/
inductive Build
  | test
  | release
deriving DecidableEq

/-- `IPC_DATAFILE_MAX`. -/
def ipcDatafileMax : Build → Nat
  | .test => 0x08
  | .release => 0x80

/-! ## The header -/

/-- `used_length`. -/
def usedLength (f : Bytes) : Nat := word f 16 8

/-- `remain_length`. -/
def remainLength (f : Bytes) : Nat := word f 40 8

/-- The bit of a page in `bitmap`. -/
def pageBit (f : Bytes) (page : Nat) : Bool := bit f 128 page

def setUsedLength (f : Bytes) (v : Nat) : Bytes := putWord f 16 8 v

def setRemainLength (f : Bytes) (v : Nat) : Bytes := putWord f 40 8 v

def setPages (f : Bytes) (page n : Nat) (v : Bool) : Bytes := setBits f 128 page v n

/-- What `init_datafiles_from_file` writes into a file of zeros. -/
def initDatafile : Bytes :=
  let f := putWord (fun _ => 0) 56 4 dataitemSignatureId
  let f := putWord f 0 8 sizeofDbTableHeader
  let f := putWord f 8 8 sizeofDbTableHeader
  let f := setUsedLength f sizeofDbTableHeader
  let f := putWord f 32 8 ipcDatafileTtlsize
  setRemainLength f (ipcDatafileTtlsize - sizeofDbTableHeader)

/-! ## Items -/

/-- What a caller stores; its lengths are of type `uint32_t`. -/
structure Item where
  key : List Byte
  val : List Byte
  expire : BitVec 32
  keylen_lt : key.length < 2 ^ 32
  vallen_lt : val.length < 2 ^ 32

/-- `keylen + vallen + sizeof(ipcshm_dataitm_t)`. -/
def itemLength (keylen vallen : Nat) : Nat := ((keylen + vallen) % 2 ^ 32 + sizeofDataitm) % 2 ^ 32

/-- The length of an item in whole pages. -/
def alignedSize (length : Nat) : Nat :=
  if length % ipcDatafileAligned = 0 then length
  else ((length / ipcDatafileAligned + 1) * ipcDatafileAligned) % 2 ^ 32

namespace Item

/-- A key of one byte. -/
theorem keylen_one_lt : [(1 : Byte)].length < 2 ^ 32 := by decide

def length (it : Item) : Nat := itemLength it.key.length it.val.length

def aligned (it : Item) : Nat := alignedSize it.length

/-- `curitm`. -/
def header (it : Item) : List Byte :=
  toBytes 4 dataitemSignatureId ++ toBytes 4 it.length ++ toBytes 4 0 ++ toBytes 4 it.expire.toNat ++
    toBytes 4 it.key.length ++ toBytes 4 it.val.length

end Item

/-! The fields of the item at `off`. -/

def itemSignature (f : Bytes) (off : Nat) : Nat := word f off 4
def itemLengthField (f : Bytes) (off : Nat) : Nat := word f (off + 4) 4
def itemExpire (f : Bytes) (off : Nat) : BitVec 32 := BitVec.ofNat 32 (word f (off + 12) 4)
def itemKeylen (f : Bytes) (off : Nat) : Nat := word f (off + 16) 4
def itemVallen (f : Bytes) (off : Nat) : Nat := word f (off + 20) 4

/-- The check of signature and lengths. -/
def itemValid (f : Bytes) (off : Nat) : Bool :=
  itemSignature f off == dataitemSignatureId &&
    (itemKeylen f off + itemVallen f off) % 2 ^ 32 + sizeofDataitm == itemLengthField f off

/-! ## Inserting -/

/-- The data files that are mapped, by their number. -/
abbrev Datafiles := Nat → Option Bytes

/-- Where an item went: the file, the offset of its header, and the ranges that the three copies wrote. -/
structure Placement where
  field : Nat
  offset : Nat
  writes : List (Nat × Nat)
deriving DecidableEq

/-- `container->resultnode`. -/
def Placement.resultnode (p : Placement) (hashedid : BitVec 32) : NodeKey :=
  ⟨hashedid, BitVec.ofNat 8 p.field, BitVec.ofNat 24 p.offset⟩

/-- The three copies of an item at `off`, with offsets of `w` bits, and the offset behind its padding. -/
def copyItem (f : Bytes) (off w : Nat) (it : Item) : Bytes × List (Nat × Nat) × Nat :=
  let off₁ := (off + sizeofDataitm) % 2 ^ w
  let off₂ := (off₁ + it.key.length) % 2 ^ w
  let off₃ := (off₂ + it.val.length) % 2 ^ w
  let remainSize := (it.aligned + 2 ^ 32 - it.length) % 2 ^ 32
  (write (write (write f off it.header) off₁ it.key) off₂ it.val,
    [(off, sizeofDataitm), (off₁, it.key.length), (off₂, it.val.length)], (off₃ + remainSize) % 2 ^ w)

/-- `remain_length` after `n` bytes went, or zero. -/
def takeRemain (f : Bytes) (n : Nat) : Bytes :=
  if n < remainLength f then setRemainLength f (remainLength f - n) else setRemainLength f 0

/-- The loop over the bitmap: `finded_offset` of the first run of `shiftSize` free pages. -/
def findFree (f : Bytes) (shiftSize : Nat) : Nat → Nat → Nat → Option Nat
  | 0, _, _ => none
  | steps + 1, m, findbits =>
    if pageBit f (m + 1) then findFree f shiftSize steps (m + 1) 0
    else if shiftSize ≤ findbits + 1 then some ((m + 2 - shiftSize) * ipcDatafileAligned)
    else findFree f shiftSize steps (m + 1) (findbits + 1)

/-- The page of an offset, rounded up. -/
def pageno (offset : Nat) : Nat :=
  if offset % ipcDatafileAligned = 0 then offset / ipcDatafileAligned else offset / ipcDatafileAligned + 1

/-- One round of `insert_to_datafile_at_freepage`: file `field` under its mutex. -/
def freepageRound (field : Nat) (f : Bytes) (it : Item) : Option Placement × Bytes :=
  let shiftSize := it.aligned / ipcDatafileAligned
  if remainLength f ≤ it.aligned then (none, f)
  else
    match findFree f shiftSize (ipcDatafilePagecnt - 1) 0 0 with
    | none => (none, if shiftSize = 1 then setRemainLength f 0 else f)
    | some findedOffset =>
      let f := setPages f (pageno findedOffset) shiftSize true
      let offsetBk := (findedOffset + sizeofDbTableHeader) % 2 ^ 32
      let (f, writes, endOffset) := copyItem f offsetBk 32 it
      let f := if usedLength f < endOffset then setUsedLength f endOffset else f
      let f := takeRemain f ((endOffset + 2 ^ 32 - offsetBk) % 2 ^ 32)
      (some ⟨field, offsetBk, writes⟩, f)

/-- One round of `insert_to_datafile`. -/
def appendRound (field : Nat) (f : Bytes) (it : Item) : Option Placement × Bytes :=
  if it.aligned < remainLength f then
    let offset := usedLength f
    let offsetBk := offset % 2 ^ 32
    let f := setPages f (pageno offset % 2 ^ 32) (it.aligned / ipcDatafileAligned) true
    let (f, writes, endOffset) := copyItem f offset 64 it
    let f := setUsedLength f endOffset
    let f := takeRemain f ((endOffset + 2 ^ 64 - offsetBk) % 2 ^ 64)
    (some ⟨field, offsetBk, writes⟩, f)
  else (none, f)

/-- The order in which the files are tried. -/
def distid (b : Build) (it : Item) : List Nat :=
  let start := (safeHash it.key).toNat % ipcDatafileMax b
  (List.range (ipcDatafileMax b)).map fun n => (start + n) % ipcDatafileMax b

/-- The loop over the files. -/
def tryFiles (round : Nat → Bytes → Item → Option Placement × Bytes) (it : Item) :
    List Nat → Datafiles → Option Placement × Datafiles
  | [], files => (none, files)
  | n :: ns, files =>
    match files n with
    | none => tryFiles round it ns files
    | some f =>
      match round n f it with
      | (some p, f) => (some p, Function.update files n (some f))
      | (none, f) => tryFiles round it ns (Function.update files n (some f))

/-- `insert_to_datafile_at_freepage`. -/
def insertToDatafileAtFreepage (b : Build) (it : Item) (files : Datafiles) : Option Placement × Datafiles :=
  tryFiles freepageRound it (distid b it) files

/-- `insert_to_datafile`. -/
def insertToDatafile (b : Build) (it : Item) (files : Datafiles) : Option Placement × Datafiles :=
  tryFiles appendRound it (distid b it) files

/-- Both, as `store` calls them. -/
def insertItem (b : Build) (it : Item) (files : Datafiles) : Option Placement × Datafiles :=
  match insertToDatafileAtFreepage b it files with
  | (some p, files) => (some p, files)
  | (none, files) => insertToDatafile b it files

/-! ## Freeing -/

/-- `change_free_to_datafile` on the file of the node. -/
def changeFreeRound (f : Bytes) (dataOffset : Nat) : Ret × Bytes :=
  if itemValid f dataOffset then
    let aligned := alignedSize (itemLengthField f dataOffset)
    let f := setPages f (pageno (dataOffset - sizeofDbTableHeader)) (aligned / ipcDatafileAligned) false
    (.ok, setRemainLength f (remainLength f + aligned * ipcDatafileAligned % 2 ^ 32))
  else (.ng, f)

/-- `change_free_to_datafile`. A file that is not mapped would fault; no node refers to one. -/
def changeFreeToDatafile (b : Build) (node : NodeKey) (files : Datafiles) : Ret × Datafiles :=
  let dataOffset := node.dataOffset.toNat
  if ipcDatafileMax b ≤ node.dataField.toNat then (.ng, files)
  else if ipcDatafileTtlsize ≤ dataOffset then (.ng, files)
  else if dataOffset ≤ sizeofDbTableHeader then (.ng, files)
  else
    match files node.dataField.toNat with
    | none => (.ng, files)
    | some f =>
      let (ret, f) := changeFreeRound f dataOffset
      (ret, Function.update files node.dataField.toNat (some f))

end NetworkBfd.Smmr
