import NetworkBfd.Bfdd.Types
import NetworkBfd.Lib.ByteMemory
import NetworkBfd.Lib.Loops
import Mathlib.Logic.Function.Basic

/-!
# The netmap reflector

`process_rings` with `recv_packet` (`bfdd_netmap_func.c`, `bfdd_netmap.c`) over a pair of rings and the buffers that
their slots refer to. A buffer is a byte memory. `nm_ring_next` and `nm_ring_space` come with netmap, and are
parameters (`Netmap`).
-/

namespace NetworkBfd.BfddNetmap

open Lib Lib.Bytes Smmr Bfdd

abbrev ethertypeIp : BitVec 16 := 0x0800
abbrev ethertypeArp : BitVec 16 := 0x0806
abbrev ethertypeVlan : BitVec 16 := 0x8100
abbrev ipprotoIcmp : Byte := 1
abbrev ipprotoUdp : Byte := 17
abbrev sizeofEtherHeader : Nat := 14
abbrev sizeofIp : Nat := 20
abbrev sizeofUdphdr : Nat := 8
abbrev sizeofBfd : Nat := 24
abbrev nsBufChanged : BitVec 16 := 1

/-- `struct netmap_slot`. -/
structure NetmapSlot where
  bufIdx : Nat
  len : BitVec 16
  flags : BitVec 16

/-- `struct netmap_ring`. -/
structure NetmapRing where
  numSlots : Nat
  head : Nat
  cur : Nat
  tail : Nat
  flags : BitVec 32
  slot : Nat → NetmapSlot

/-- What `netmap_user.h` provides. -/
structure Netmap where
  nmRingNext : NetmapRing → Nat → Nat
  nmRingSpace : NetmapRing → Nat

/-- `process_handle_t`, with the buffers of the interface. `rs` and `ts` are slots of the two rings, `req` and `res`
buffers. -/
structure ProcessHandle where
  rxring : NetmapRing
  txring : NetmapRing
  bufs : Nat → Bytes
  rs : Nat
  ts : Nat
  res : Nat
  reslen : BitVec 16
  req : Nat
  reqlen : BitVec 16

/-! ## Frames -/

/-- Two bytes as they lie in memory. -/
def u16At (buf : Bytes) (off : Nat) : BitVec 16 := BitVec.ofNat 16 (word buf off 2)

/-- `eh->ether_type`. -/
def etherType (buf : Bytes) : BitVec 16 := u16At buf 12

/-- `LEN_VLAN(eh)`. -/
def lenVlan (buf : Bytes) : Nat := if etherType buf = htons ethertypeVlan then 4 else 0

def ipOff (buf : Bytes) : Nat := sizeofEtherHeader + lenVlan buf

/-- `ip->ip_hl`. -/
def ipHl (buf : Bytes) : Nat := ((buf (ipOff buf)).extractLsb' 0 4).toNat

def ipTtl (buf : Bytes) : Byte := buf (ipOff buf + 8)

def ipP (buf : Bytes) : Byte := buf (ipOff buf + 9)

def udpOff (buf : Bytes) : Nat := ipOff buf + ipHl buf * 4

def bfdOff (buf : Bytes) : Nat := udpOff buf + sizeofUdphdr

/-- `is_bfd_packet`. -/
def isBfdPacket (buf : Bytes) (len : Nat) : Int :=
  let udplen := sizeofEtherHeader + lenVlan buf + ipHl buf * 4 + sizeofUdphdr
  if sizeofEtherHeader ≤ len ∧ etherType buf = htons ethertypeArp then -1
  else if sizeofEtherHeader + sizeofIp ≤ len ∧ etherType buf = htons ethertypeIp ∧ ipP buf = ipprotoIcmp ∧
      ipTtl buf ≠ 0 then -1
  else if udplen ≤ len ∧ htons (u16At buf (udpOff buf + 4)) = BitVec.ofNat 16 (sizeofBfd + sizeofUdphdr) ∧
      etherType buf = htons ethertypeIp ∧ ipP buf = ipprotoUdp then
    if htons (u16At buf (udpOff buf + 2)) = bfddfltUdpport then 0 else -1
  else -1

/-- Two strings of `n` bytes change places. -/
def swapBytes (buf : Bytes) (a b n : Nat) : Bytes := write (write buf a (read buf b n)) b (read buf a n)

/-- `swap_mac`. -/
def swapMac (buf : Bytes) : Bytes := swapBytes buf 0 6 6

/-- `swap_ip`. -/
def swapIp (buf : Bytes) (ip : Nat) (ttl : Byte) : Bytes := write (swapBytes buf (ip + 12) (ip + 16) 4) (ip + 8) [ttl]

/-- `swap_bfd`. -/
def swapBfd (buf : Bytes) (bfd : Nat) : Bytes := swapBytes buf (bfd + 4) (bfd + 8) 4

/-- `bfd->u.bit.state`. -/
def bfdState (buf : Bytes) (bfd : Nat) : Nat := ((buf (bfd + 1)).extractLsb' 6 2).toNat

def setBfdState (buf : Bytes) (bfd state : Nat) : Bytes :=
  write buf (bfd + 1) [(BitVec.ofNat 2 state ++ (buf (bfd + 1)).extractLsb' 0 6 : BitVec 8)]

/-- What `recv_packet` makes of a frame. -/
def replyFrame (buf : Bytes) : Bytes :=
  let ip := ipOff buf
  let udp := udpOff buf
  let bfd := bfdOff buf
  let myDscr := 10000
  let buf := swapIp (swapMac buf) ip 0xff
  let tmpDscr := word buf (bfd + 8) 4
  let buf := putWord buf (udp + 6) 2 0
  let buf := swapBfd buf bfd
  if bfdState buf bfd = bfdstateDown then
    if tmpDscr = 0 then putWord (setBfdState buf bfd bfdstateInit) (bfd + 4) 4 myDscr
    else putWord (setBfdState buf bfd bfdstateDown) (bfd + 4) 4 myDscr
  else if bfdState buf bfd = bfdstateAdmindown then setBfdState buf bfd bfdstateDown
  else if bfdState buf bfd = bfdstateInit then putWord (setBfdState buf bfd bfdstateUp) (bfd + 4) 4 myDscr
  else if bfdState buf bfd = bfdstateUp then putWord (setBfdState buf bfd bfdstateUp) (bfd + 4) 4 myDscr
  else putWord (putWord (setBfdState buf bfd bfdstateDown) (bfd + 4) 4 myDscr) (bfd + 8) 4 0

/-! ## Slots -/

/-- `swap_index`. -/
def swapIndex (ph : ProcessHandle) : ProcessHandle :=
  let ts := ph.txring.slot ph.ts
  let rs := ph.rxring.slot ph.rs
  let ts' := { ts with bufIdx := rs.bufIdx, len := ph.reqlen, flags := ts.flags ||| nsBufChanged }
  let rs' := { rs with bufIdx := ts.bufIdx, flags := rs.flags ||| nsBufChanged }
  { ph with
    txring := { ph.txring with slot := Function.update ph.txring.slot ph.ts ts' }
    rxring := { ph.rxring with slot := Function.update ph.rxring.slot ph.rs rs' } }

/-- `recv_packet`. -/
def recvPacket (ph : ProcessHandle) : ProcessHandle :=
  swapIndex { ph with bufs := Function.update ph.bufs ph.req (replyFrame (ph.bufs ph.req)) }

/-- The body of the loop of `process_rings`. -/
def processSlot (eventFunc : Option (ProcessHandle → ProcessHandle)) (rxCur txCur : Nat) (ph : ProcessHandle) :
    ProcessHandle :=
  let rs := ph.rxring.slot rxCur
  let ph := { ph with
    rs := rxCur
    ts := txCur
    req := rs.bufIdx
    res := (ph.txring.slot txCur).bufIdx
    reslen := rs.len
    reqlen := rs.len }
  let len : BitVec 16 := if 2048 < rs.len then 0 else rs.len
  let ph := { ph with
    rxring := { ph.rxring with slot := Function.update ph.rxring.slot rxCur ⟨rs.bufIdx, len, rs.flags⟩ } }
  match eventFunc with
  | some event => if isBfdPacket (ph.bufs ph.req) len.toNat = 0 then event ph else ph
  | none => ph

/-- The loop of `process_rings`: the two cursors and the handle behind it. -/
def processSlots (nm : Netmap) (eventFunc : Option (ProcessHandle → ProcessHandle)) :
    Nat → Nat → Nat → ProcessHandle → Nat × Nat × ProcessHandle
  | 0, rxCur, txCur, ph => (rxCur, txCur, ph)
  | limit + 1, rxCur, txCur, ph =>
    let ph := processSlot eventFunc rxCur txCur ph
    processSlots nm eventFunc limit (nm.nmRingNext ph.rxring rxCur) (nm.nmRingNext ph.txring txCur) ph

/-- The number of slots that `process_rings` goes through. -/
def limitOf (nm : Netmap) (ph : ProcessHandle) : Nat :=
  min (min ph.rxring.numSlots (nm.nmRingSpace ph.rxring)) (nm.nmRingSpace ph.txring)

/-- `process_rings`. -/
def processRings (nm : Netmap) (eventFunc : Option (ProcessHandle → ProcessHandle)) (ph : ProcessHandle) :
    Nat × ProcessHandle :=
  let ph :=
    if ph.rxring.flags ≠ 0 ∨ ph.txring.flags ≠ 0 then
      { ph with rxring := { ph.rxring with flags := 0 }, txring := { ph.txring with flags := 0 } }
    else ph
  let limit := limitOf nm ph
  let (rxCur, txCur, ph) := processSlots nm eventFunc limit ph.rxring.cur ph.txring.cur ph
  (limit, { ph with
    rxring := { ph.rxring with head := rxCur, cur := rxCur }
    txring := { ph.txring with head := txCur, cur := txCur } })

/-! ## All rings -/

/-- `rxringidx` and `txringidx` wrap. -/
instance neZeroRingidx : NeZero 65536 := ⟨by decide⟩

/-- The rings of `struct nm_desc`. -/
structure NmDesc where
  firstRxRing : Fin 65536
  lastRxRing : Fin 65536
  firstTxRing : Fin 65536
  lastTxRing : Fin 65536

/-- `netmap_user.h` with `nm_ring_empty`. -/
structure NetmapUser extends Netmap where
  nmRingEmpty : NetmapRing → Bool

/-- What `move` works on: the rings of the interface, the handle, and its three variables. -/
structure MoveState where
  rxrings : Fin 65536 → NetmapRing
  txrings : Fin 65536 → NetmapRing
  ph : ProcessHandle
  rxringidx : Fin 65536
  txringidx : Fin 65536
  m : BitVec 32

/-- The body of the loop of `move`, unless its condition fails. -/
def moveStep (nm : NetmapUser) (eventFunc : Option (ProcessHandle → ProcessHandle)) (nmd : NmDesc) (s : MoveState) :
    Option MoveState :=
  if s.rxringidx ≤ nmd.lastRxRing ∧ s.txringidx ≤ nmd.lastTxRing then
    let ph := { s.ph with rxring := s.rxrings s.rxringidx, txring := s.txrings s.txringidx }
    if nm.nmRingEmpty ph.rxring then some { s with ph := ph, rxringidx := s.rxringidx + 1 }
    else if nm.nmRingEmpty ph.txring then some { s with ph := ph, txringidx := s.txringidx + 1 }
    else
      let (ret, ph) := processRings nm.toNetmap eventFunc ph
      some { s with
        rxrings := Function.update s.rxrings s.rxringidx ph.rxring
        txrings := Function.update s.txrings s.txringidx ph.txring
        ph := ph
        m := s.m + BitVec.ofNat 32 ret }
  else none

/-- The state in which `move` starts. -/
def moveStart (nmd : NmDesc) (rxrings txrings : Fin 65536 → NetmapRing) (ph : ProcessHandle) : MoveState :=
  ⟨rxrings, txrings, ph, nmd.firstRxRing, nmd.firstTxRing, 0⟩

/-- `move`, if it ends within `fuel` rounds. -/
def move (nm : NetmapUser) (eventFunc : Option (ProcessHandle → ProcessHandle)) (nmd : NmDesc)
    (rxrings txrings : Fin 65536 → NetmapRing) (ph : ProcessHandle) (fuel : Nat) : Option MoveState :=
  runLoop (moveStep nm eventFunc nmd) fuel (moveStart nmd rxrings txrings ph)

end NetworkBfd.BfddNetmap
