import NetworkBfd.Bfdd.Types

/-!
# The session manager of bfdd_cpp

`Server::recieve`, `BfdSessionManager::on_bfd_recieved` and the rounds of `on_bfd_thread`. Addresses and ports are in
host order here, as `boost::asio` hands them out, and a session is found by both in one 64-bit number. A manager keeps a
log of its writes; nothing reads it.
-/

namespace NetworkBfd.BfddCpp

open Lib Smmr Bfdd

/-- `BAIP::udp::endpoint`. -/
structure Endpoint where
  address : BitVec 32
  port : BitVec 16
deriving DecidableEq, Repr

/-- A client side `Conn`: what its socket is bound to, and where it writes. -/
structure Conn where
  bound : Endpoint
  udpendp : Endpoint
deriving DecidableEq, Repr

/-- `BfdSession`. -/
structure BfdSession where
  sessionState : BitVec 32
  remoteSessionState : BitVec 32
  localDiscr : BitVec 32
  remoteDiscr : BitVec 32
  localDiag : BitVec 32
  desiredMinTxInterval : BitVec 32
  requiredMinRxInterval : BitVec 32
  remoteMinRxInterval : BitVec 32
  demandMode : BitVec 32
  remoteDemandMode : BitVec 32
  detectMult : BitVec 32
  authType : BitVec 32
  rcvAuthSeq : BitVec 32
  xmitAuthSeq : BitVec 32
  authSeqKnown : BitVec 32
  mustCeaseTxEcho : BitVec 32
  mustTerminate : BitVec 32
  detectTime : BitVec 64
  pollbitOn : BitVec 32
  peerAddr : BitVec 32
  peerPort : BitVec 16
  receivedMinRxInterval : BitVec 32
  conn : Option Conn
deriving DecidableEq, Repr

/-- `BfdSession(ipaddr, port)`. -/
def BfdSession.new (ipaddr : BitVec 32) (port : BitVec 16) : BfdSession where
  sessionState := BitVec.ofNat 32 bfdstateDown
  remoteSessionState := BitVec.ofNat 32 bfdstateDown
  localDiscr := 0
  remoteDiscr := bfdOff
  localDiag := bfdOff
  desiredMinTxInterval := bfddfltDesiredmintx
  requiredMinRxInterval := bfddfltRequiredminrx
  remoteMinRxInterval := bfdOff
  demandMode := bfdOff
  remoteDemandMode := bfdOff
  detectMult := bfddfltDetectmult
  authType := bfdOff
  rcvAuthSeq := bfdOff
  xmitAuthSeq := bfdOff
  authSeqKnown := bfdOff
  mustCeaseTxEcho := bfdOff
  mustTerminate := bfdOff
  detectTime := 0
  pollbitOn := bfdOff
  peerAddr := ipaddr
  peerPort := port
  receivedMinRxInterval := bfdOff
  conn := none

/-- `MAKE_ULL`. -/
def makeUll (hi : BitVec 32) (lo : BitVec 16) : BitVec 64 := (hi.setWidth 64 <<< 32) ||| lo.setWidth 64

/-- `BfdSessionManager`, with the newest write first. -/
structure BfdSessionManager where
  bfdSessions : BitVec 64 → Option BfdSession
  localDiscriminatorIncr : BitVec 64
  log : List (Endpoint × Bfd)

namespace BfdSessionManager

def new : BfdSessionManager := ⟨fun _ => none, 0, []⟩

/-- `subscribe_unsafe`. -/
def subscribeUnsafe (m : BfdSessionManager) (ipaddr : BitVec 32) (port : BitVec 16) : BfdSessionManager :=
  { m with bfdSessions := Function.update m.bfdSessions (makeUll ipaddr port) (some (BfdSession.new ipaddr port)) }

/-- `find_unsafe`. -/
def findUnsafe (m : BfdSessionManager) (ipaddr : BitVec 32) (port : BitVec 16) : Option BfdSession :=
  m.bfdSessions (makeUll ipaddr port)

/-- The session behind the pointer that `find_unsafe` returned is written. -/
def setSession (m : BfdSessionManager) (ipaddr : BitVec 32) (port : BitVec 16) (s : BfdSession) : BfdSessionManager :=
  { m with bfdSessions := Function.update m.bfdSessions (makeUll ipaddr port) (some s) }

/-- The packet of `transmit_unsafe`. -/
def ctrlPacket (psess : BfdSession) : Bfd where
  diag := psess.localDiag.setWidth 5
  vers := bfdVersion
  multipoint := 0
  demand := 0
  auth := 0
  cpi := 1
  final := if psess.pollbitOn = bfdOn then 1 else 0
  poll := 0
  state := if psess.localDiscr ≠ 0 then psess.sessionState.setWidth 2 else BitVec.ofNat 2 bfdstateDown
  detectMult := psess.detectMult.setWidth 8
  length := BitVec.ofNat 8 bfdMinpktlen
  myDiscr := psess.localDiscr
  yourDiscr := psess.remoteDiscr
  minTxInt := htonl psess.desiredMinTxInterval
  minRxInt := htonl psess.requiredMinRxInterval
  minEchoRxInt := htonl psess.receivedMinRxInterval

/-- `transmit_unsafe`. -/
def transmitUnsafe (psess : BfdSession) (m : BfdSessionManager) : BfdSessionManager :=
  let bfd := ctrlPacket psess
  if (bfd.yourDiscr = 0 ∨ bfd.myDiscr = 0) ∧ bfd.state ≠ BitVec.ofNat 2 bfdstateDown then m
  else
    match psess.conn with
    | some conn => { m with log := (conn.udpendp, bfd) :: m.log }
    | none => m

/-- A session without a connection gets one, and the next local discriminator. -/
def attach (endpR : Endpoint) (psess : BfdSession) (incr : BitVec 64) : BfdSession × BitVec 64 :=
  match psess.conn with
  | none =>
    ({ psess with
        conn := some ⟨⟨0, endpR.port⟩, ⟨endpR.address, bfddfltUdpport⟩⟩
        localDiscr := htonl ((incr + 1).setWidth 32) },
      if 0x7fffffff < incr + 1 then 0 else incr + 1)
  | some _ => (psess, incr)

/-- What the session keeps of a packet. -/
def recordPacket (bfd : Bfd) (curms : BitVec 64) (psess : BfdSession) : BfdSession :=
  { psess with
    remoteSessionState := bfd.state.setWidth 32
    remoteDemandMode := bfd.demand.setWidth 32
    remoteDiscr := bfd.myDiscr
    remoteMinRxInterval := bfd.minRxInt
    receivedMinRxInterval :=
      if psess.receivedMinRxInterval < bfd.minRxInt then psess.receivedMinRxInterval else bfd.minRxInt
    mustTerminate := if bfd.final ≠ 0 then bfdOn else psess.mustTerminate
    detectTime := curms + (bfd.detectMult.setWidth 32 *
      (if psess.desiredMinTxInterval < bfd.minRxInt then bfd.minRxInt else psess.desiredMinTxInterval)).setWidth 64 }

/-- The state machine of the session. In state Init it has no branch for Down. -/
def stateMachine (psess : BfdSession) : BfdSession :=
  if psess.remoteSessionState = BitVec.ofNat 32 bfdstateAdmindown then
    if psess.sessionState ≠ BitVec.ofNat 32 bfdstateDown then
      { psess with localDiag := bfddiagNeighborsaiddown, sessionState := BitVec.ofNat 32 bfdstateDown }
    else psess
  else if psess.sessionState = BitVec.ofNat 32 bfdstateDown then
    if psess.remoteSessionState = BitVec.ofNat 32 bfdstateDown then
      { psess with sessionState := BitVec.ofNat 32 bfdstateInit }
    else if psess.remoteSessionState = BitVec.ofNat 32 bfdstateInit then
      { psess with sessionState := BitVec.ofNat 32 bfdstateUp }
    else psess
  else if psess.sessionState = BitVec.ofNat 32 bfdstateInit then
    if psess.remoteSessionState = BitVec.ofNat 32 bfdstateInit ∨
        psess.remoteSessionState = BitVec.ofNat 32 bfdstateUp then
      { psess with sessionState := BitVec.ofNat 32 bfdstateUp }
    else psess
  else if psess.remoteSessionState = BitVec.ofNat 32 bfdstateDown then
    { psess with localDiag := bfddiagNeighborsaiddown, sessionState := BitVec.ofNat 32 bfdstateDown }
  else psess

/-- `on_bfd_recieved` from the place where the session is known. -/
def recieveOnSession (psess : BfdSession) (endpR : Endpoint) (bfd : Bfd) (curms : BitVec 64) (m : BfdSessionManager) :
    BfdSessionManager :=
  let (psess, incr) := attach endpR psess m.localDiscriminatorIncr
  let psess := recordPacket bfd curms psess
  let m := { m with localDiscriminatorIncr := incr }
  if psess.sessionState = BitVec.ofNat 32 bfdstateAdmindown then m.setSession endpR.address endpR.port psess
  else
    let psess := stateMachine psess
    if bfd.poll = 1 then
      let psess := { psess with pollbitOn := bfdOn }
      transmitUnsafe psess (m.setSession endpR.address endpR.port psess)
    else m.setSession endpR.address endpR.port psess

/-- `on_bfd_recieved`. -/
def onBfdRecieved (endpR : Endpoint) (bfd : Bfd) (curms : BitVec 64) (m : BfdSessionManager) : BfdSessionManager :=
  match m.findUnsafe endpR.address endpR.port with
  | some psess => recieveOnSession psess endpR bfd curms m
  | none =>
    if bfd.yourDiscr ≠ 0 then
      let m := m.subscribeUnsafe endpR.address endpR.port
      match m.findUnsafe endpR.address endpR.port with
      | some psess =>
        let psess := { psess with
          remoteDiscr := bfd.myDiscr
          localDiscr := bfd.yourDiscr
          sessionState := BitVec.ofNat 32 bfdstateDown }
        transmitUnsafe psess (m.setSession endpR.address endpR.port psess)
      | none => m
    else if bfd.state = BitVec.ofNat 2 bfdstateDown then
      let m := m.subscribeUnsafe endpR.address endpR.port
      match m.findUnsafe endpR.address endpR.port with
      | some psess => recieveOnSession psess endpR bfd curms m
      | none => m
    else m

/-- The body of the loop in `on_bfd_thread`, for the session under `itr`. -/
def visit (curms : BitVec 64) (m : BfdSessionManager) (itr : BitVec 64) : BfdSessionManager :=
  match m.bfdSessions itr with
  | some psess =>
    if curms < psess.detectTime then
      if psess.mustCeaseTxEcho = bfdOff ∧ psess.mustTerminate = bfdOff ∧ psess.remoteDiscr ≠ 0 ∧
          psess.remoteMinRxInterval ≠ 0 then
        transmitUnsafe psess m
      else m
    else m
  | none => m

/-- One round of `on_bfd_thread`: `itrs` are the places the iterator goes through. -/
def onBfdThread (curms : BitVec 64) (itrs : List (BitVec 64)) (m : BfdSessionManager) : BfdSessionManager :=
  itrs.foldl (visit curms) m

end BfdSessionManager

/-- The checks of `Server::recieve`. -/
def recieveAccepts (size : Nat) (bfd : Bfd) : Bool :=
  if size ≠ bfdMinpktlen then false
  else if bfd.multipoint ≠ 0 then false
  else if bfd.vers ≠ bfdVersion then false
  else if bfd.auth ≠ 0 then false
  else if bfd.myDiscr = 0 then false
  else if bfd.detectMult = 0 then false
  else if bfd.yourDiscr = 0 ∧
      ¬(bfd.state = BitVec.ofNat 2 bfdstateDown ∨ bfd.state = BitVec.ofNat 2 bfdstateAdmindown) then false
  else true

/-- `Server::recieve` of a datagram. -/
def recieve (endpR : Endpoint) (pkt : List Byte) (curms : BitVec 64) (m : BfdSessionManager) : BfdSessionManager :=
  let bfd := Bfd.ofPacket pkt
  if recieveAccepts pkt.length bfd then m.onBfdRecieved endpR bfd curms else m

end NetworkBfd.BfddCpp
