import NetworkBfd.Bfdd.Session

/-!
# The events of bfdd

The functions of `bfdd_event.c`: `recvBfdEvent` on one packet and `sendBfdEvent` on one tick, over the session table
(`Kv`) and the counter of local discriminators. A daemon keeps a log of what it did; nothing reads it. The answers of
`sendto`, the clock and the bytes that lie on the stack are inputs of a step.
-/

namespace NetworkBfd.Bfdd

open Lib Smmr

/-- What happened, with the peer it happened for. -/
inductive Event
  /-- a packet passed the checks -/
  | accepted (peer : SessKey) (bfd : Bfd)
  /-- the state machine starts in a state -/
  | started (peer : SessKey) (sessionState : BitVec 32)
  /-- `insert_session` returned -/
  | inserted (peer : SessKey) (ret : Ret)
  /-- a packet went to `sendto` -/
  | sent (peer : SessKey) (dest : SockaddrIn) (bfd : Bfd)
deriving DecidableEq

/-- The table, `local_discriminator_incr`, and the log with the newest event first. -/
structure Daemon where
  kv : Kv
  localDiscriminatorIncr : BitVec 64
  log : List Event

/-- What the socket answers to the next calls of `sendto`, and the log. -/
structure Wire where
  results : List Int
  log : List Event

/-! ## Sending -/

/-- The packet that tells the peer about its session. -/
def ctrlPacket (psess : BfdSess) : Bfd where
  diag := psess.localDiag.setWidth 5
  vers := bfdVersion
  multipoint := 0
  demand := 0
  auth := 0
  cpi := 1
  final := if psess.pollbitOn = bfdOn then 1 else 0
  poll := 0
  state := if psess.localDiscr ≠ 0 then psess.sessionState.setWidth 2 else BitVec.ofNat 2 bfdstateDown
  detectMult := psess.detectMult.setWidth 8
  length := BitVec.ofNat 8 bfdMinpktlen
  myDiscr := psess.localDiscr
  yourDiscr := psess.remoteDiscr
  minTxInt := htonl psess.desiredMinTxInterval
  minRxInt := htonl psess.requiredMinRxInterval
  minEchoRxInt := htonl psess.receivedMinRxInterval

/-- `iterate_on_session`. -/
def iterateOnSession (peer : SessKey) (psess : BfdSess) (w : Wire) : Int × Wire :=
  let bfd := ctrlPacket psess
  if psess.attached = bfdOff then (0, w)
  else if (bfd.yourDiscr = 0 ∨ bfd.myDiscr = 0) ∧ bfd.state ≠ BitVec.ofNat 2 bfdstateDown then (0, w)
  else
    let ret := w.results.headD bfdMinpktlen
    (if 0 < ret then 0 else -1, ⟨w.results.tail, .sent peer psess.clientAddr bfd :: w.log⟩)

/-- `send_bfd_event`. -/
def sendBfdEvent (results : List Int) (d : Daemon) : Daemon :=
  { d with log := (d.kv.iterateAllSession iterateOnSession ⟨results, d.log⟩).log }

/-! ## Receiving -/

/-- The checks at the head of `recv_bfd_event`. -/
def recvAccepts (len : Nat) (bfd : Bfd) : Bool :=
  if len ≠ bfdMinpktlen then false
  else if bfd.multipoint ≠ 0 then false
  else if bfd.vers ≠ bfdVersion then false
  else if bfd.auth ≠ 0 then false
  else if bfd.myDiscr = 0 then false
  else if bfd.detectMult = 0 then false
  else if bfd.yourDiscr = 0 ∧
      ¬(bfd.state = BitVec.ofNat 2 bfdstateDown ∨ bfd.state = BitVec.ofNat 2 bfdstateAdmindown) then false
  else true

/-- A new session takes the next local discriminator. -/
def attach (sess : BfdSess) (incr : BitVec 64) : BfdSess × BitVec 64 :=
  if sess.attached = bfdOff then
    ({ sess with localDiscr := htonl ((incr + 1).setWidth 32), attached := bfdOn },
      if 0x7fffffff < incr + 1 then 0 else incr + 1)
  else (sess, incr)

/-- What the session keeps of a packet. -/
def recordPacket (bfd : Bfd) (curms : BitVec 64) (sess : BfdSess) : BfdSess :=
  { sess with
    remoteSessionState := bfd.state.setWidth 32
    remoteDemandMode := bfd.demand.setWidth 32
    remoteDiscr := bfd.myDiscr
    remoteMinRxInterval := bfd.minRxInt
    receivedMinRxInterval :=
      if sess.receivedMinRxInterval < bfd.minRxInt then sess.receivedMinRxInterval else bfd.minRxInt
    mustTerminate := if bfd.final ≠ 0 then bfdOn else sess.mustTerminate
    detectTime := curms + (bfd.detectMult.setWidth 32 *
      (if sess.desiredMinTxInterval < bfd.minRxInt then bfd.minRxInt else sess.desiredMinTxInterval)).setWidth 64 }

/-- The state machine of the session. -/
def stateMachine (sess : BfdSess) : BfdSess :=
  if sess.remoteSessionState = BitVec.ofNat 32 bfdstateAdmindown then
    if sess.sessionState ≠ BitVec.ofNat 32 bfdstateDown then
      { sess with localDiag := bfddiagNeighborsaiddown, sessionState := BitVec.ofNat 32 bfdstateDown }
    else sess
  else if sess.sessionState = BitVec.ofNat 32 bfdstateDown then
    if sess.remoteSessionState = BitVec.ofNat 32 bfdstateDown then
      { sess with sessionState := BitVec.ofNat 32 bfdstateInit }
    else if sess.remoteSessionState = BitVec.ofNat 32 bfdstateInit then
      { sess with sessionState := BitVec.ofNat 32 bfdstateUp }
    else sess
  else if sess.sessionState = BitVec.ofNat 32 bfdstateInit then
    if sess.remoteSessionState = BitVec.ofNat 32 bfdstateInit ∨
        sess.remoteSessionState = BitVec.ofNat 32 bfdstateUp then
      { sess with sessionState := BitVec.ofNat 32 bfdstateUp }
    else { sess with sessionState := BitVec.ofNat 32 bfdstateDown }
  else if sess.remoteSessionState = BitVec.ofNat 32 bfdstateDown then
    { sess with localDiag := bfddiagNeighborsaiddown, sessionState := BitVec.ofNat 32 bfdstateDown }
  else sess

/-- The poll bit is answered at once. -/
def answerPoll (peer : SessKey) (bfd : Bfd) (sess : BfdSess) (w : Wire) : BfdSess × Wire :=
  if bfd.poll = 1 then
    let sess := { sess with pollbitOn := bfdOn }
    (sess, (iterateOnSession peer sess w).2)
  else (sess, w)

/-- `insert_session`, logged. -/
def insertLogged (sess : BfdSess) (cAddr : SockaddrIn) (cAddrlen : BitVec 32) (d : Daemon) : Ret × Daemon :=
  let (ret, kv) := d.kv.insertSession sess cAddr cAddrlen
  (ret, { d with kv := kv, log := .inserted (keyt cAddr) ret :: d.log })

/-- `recv_bfd_event` from the place where the session is known. -/
def recvOnSession (sess : BfdSess) (cAddr : SockaddrIn) (cAddrlen : BitVec 32) (bfd : Bfd) (curms : BitVec 64)
    (results : List Int) (d : Daemon) : Ret × Daemon :=
  let (sess, incr) := attach sess d.localDiscriminatorIncr
  let sess := recordPacket bfd curms sess
  let d := { d with localDiscriminatorIncr := incr }
  if sess.sessionState = BitVec.ofNat 32 bfdstateAdmindown then (.ng, d)
  else
    let log := .started (keyt cAddr) sess.sessionState :: d.log
    let (sess, w) := answerPoll (keyt cAddr) bfd (stateMachine sess) ⟨results, log⟩
    insertLogged sess cAddr cAddrlen { d with log := w.log }

/-- The session for a peer that already has one with this side. -/
def downSession (stack : BfdSess) (cAddr : SockaddrIn) (cAddrlen : BitVec 32) (bfd : Bfd) : BfdSess :=
  { initSession stack cAddr cAddrlen with
    remoteDiscr := bfd.myDiscr
    localDiscr := bfd.yourDiscr
    sessionState := BitVec.ofNat 32 bfdstateDown }

/-- `recv_bfd_event` on an accepted packet. -/
def recvAccepted (cAddr : SockaddrIn) (cAddrlen : BitVec 32) (bfd : Bfd) (stack : BfdSess) (curms : BitVec 64)
    (results : List Int) (d : Daemon) : Ret × Daemon :=
  match d.kv.findSession cAddr cAddrlen with
  | some sess => recvOnSession sess cAddr cAddrlen bfd curms results d
  | none =>
    if bfd.yourDiscr ≠ 0 then
      let sess := downSession stack cAddr cAddrlen bfd
      let (_, d) := insertLogged sess cAddr cAddrlen d
      let (ret, w) := iterateOnSession (keyt cAddr) sess ⟨results, d.log⟩
      (if ret = 0 then .ok else .ng, { d with log := w.log })
    else if bfd.state = BitVec.ofNat 2 bfdstateDown then
      let (_, d) := insertLogged (initSession stack cAddr cAddrlen) cAddr cAddrlen d
      match d.kv.findSession cAddr cAddrlen with
      | some sess => recvOnSession sess cAddr cAddrlen bfd curms results d
      | none => (.ng, d)
    else (.ng, d)

/-- `recv_bfd_event`. -/
def recvBfdEvent (cAddr : SockaddrIn) (cAddrlen : BitVec 32) (pkt : List Byte) (stack : BfdSess) (curms : BitVec 64)
    (results : List Int) (d : Daemon) : Ret × Daemon :=
  let bfd := Bfd.ofPacket pkt
  if recvAccepts pkt.length bfd then
    recvAccepted cAddr cAddrlen bfd stack curms results { d with log := .accepted (keyt cAddr) bfd :: d.log }
  else (.ng, d)

/-! ## Runs -/

/-- One round of the loop in `main`. -/
inductive Action
  | recv (cAddr : SockaddrIn) (pkt : List Byte) (stack : BfdSess) (curms : BitVec 64) (results : List Int)
  | tick (results : List Int)

/-- `sizeof(c_addr)`. -/
@[simp] def sizeofSockaddrIn : BitVec 32 := 16

namespace Daemon

/-- After `initialize_bfd_session_table`. -/
def start : Daemon := ⟨Kv.empty.initializeBfdSessionTable.2, 0, []⟩

def step (d : Daemon) : Action → Daemon
  | .recv cAddr pkt stack curms results => (recvBfdEvent cAddr sizeofSockaddrIn pkt stack curms results d).2
  | .tick results => sendBfdEvent results d

def run (actions : List Action) : Daemon := actions.foldl step start

end Daemon

end NetworkBfd.Bfdd
