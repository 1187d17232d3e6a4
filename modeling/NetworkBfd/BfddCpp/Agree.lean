import NetworkBfd.Bfdd.Effect
import NetworkBfd.BfddCpp.Manager
import Mathlib.Data.List.Induction

/-!
# The two daemons side by side

bfdd and bfdd_cpp get the same packets. They hold the same sessions (`SameSession`, field by field) after every packet
if and only if no peer says Down while its session is in state Init (`daemons_agree_iff`): the state machine of bfdd
goes Down there, and that of bfdd_cpp stays (`same_afterPacket_iff`). The rest of the two copies agrees.
-/

namespace NetworkBfd.BfddCpp

open Lib Smmr Bfdd

/-! ## Sessions of bfdd_cpp -/

theorem makeUll_injective {a a' : BitVec 32} {p p' : BitVec 16} (h : makeUll a p = makeUll a' p') :
    a = a' ∧ p = p' := by
  have hbit : ∀ i, (makeUll a p).getLsbD i = (makeUll a' p').getLsbD i := fun i => by rw [h]
  simp only [makeUll, BitVec.getLsbD_or, BitVec.getLsbD_shiftLeft, BitVec.getLsbD_setWidth] at hbit
  constructor
  · apply BitVec.eq_of_getLsbD_eq
    intro i hi
    have hi' := hbit (i + 32)
    rw [BitVec.getLsbD_of_ge p _ (by omega), BitVec.getLsbD_of_ge p' _ (by omega)] at hi'
    simpa [hi, show i + 32 < 64 by omega, show i < 64 by omega] using hi'
  · apply BitVec.eq_of_getLsbD_eq
    intro i hi
    simpa [show i < 32 by omega, show i < 64 by omega] using hbit i

namespace BfdSessionManager

/-- A session after a packet of its peer. -/
def afterPacket (endpR : Endpoint) (bfd : Bfd) (curms : BitVec 64) (incr : BitVec 64) (psess : BfdSession) :
    BfdSession :=
  let psess := recordPacket bfd curms (attach endpR psess incr).1
  if psess.sessionState = BitVec.ofNat 32 bfdstateAdmindown then psess
  else
    let psess := stateMachine psess
    { psess with pollbitOn := if bfd.poll = 1 then bfdOn else psess.pollbitOn }

/-- The state machine leaves all fields but two. -/
theorem stateMachine_frame (s : BfdSession) :
    ∃ state diag, stateMachine s = { s with sessionState := state, localDiag := diag } := by
  unfold stateMachine
  split_ifs <;> exact ⟨_, _, rfl⟩

/-- A packet is recorded, and a few fields change besides. -/
theorem afterPacket_frame (endpR : Endpoint) (bfd : Bfd) (curms incr : BitVec 64) (s : BfdSession) :
    ∃ conn discr state diag poll, afterPacket endpR bfd curms incr s =
      { recordPacket bfd curms s with
        conn := conn, localDiscr := discr, sessionState := state, localDiag := diag, pollbitOn := poll } := by
  have hattach : ∃ conn discr, (attach endpR s incr).1 = { s with conn := conn, localDiscr := discr } := by
    unfold attach
    split <;> exact ⟨_, _, rfl⟩
  obtain ⟨conn, discr, hattach⟩ := hattach
  obtain ⟨state, diag, hmachine⟩ := stateMachine_frame (recordPacket bfd curms (attach endpR s incr).1)
  simp only [afterPacket]
  split
  · rw [hattach]
    exact ⟨conn, discr, s.sessionState, s.localDiag, s.pollbitOn, rfl⟩
  · rw [hmachine, hattach]
    exact ⟨conn, discr, state, diag, _, rfl⟩

/-- The session for a peer that already has one with this side. -/
def downSession (endpR : Endpoint) (bfd : Bfd) : BfdSession :=
  { BfdSession.new endpR.address endpR.port with
    remoteDiscr := bfd.myDiscr
    localDiscr := bfd.yourDiscr
    sessionState := BitVec.ofNat 32 bfdstateDown }

/-- The session of a peer after its packet, from the one before. -/
def nextSession (endpR : Endpoint) (bfd : Bfd) (curms : BitVec 64) (incr : BitVec 64) :
    Option BfdSession → Option BfdSession
  | some psess => some (afterPacket endpR bfd curms incr psess)
  | none =>
    if bfd.yourDiscr ≠ 0 then some (downSession endpR bfd)
    else if bfd.state = BitVec.ofNat 2 bfdstateDown then
      some (afterPacket endpR bfd curms incr (BfdSession.new endpR.address endpR.port))
    else none

/-- Writing to the socket leaves the sessions. -/
@[simp] theorem transmitUnsafe_bfdSessions (psess : BfdSession) (m : BfdSessionManager) :
    (transmitUnsafe psess m).bfdSessions = m.bfdSessions := by
  unfold transmitUnsafe
  dsimp only
  split
  · rfl
  · split <;> rfl

theorem recieveOnSession_bfdSessions (psess : BfdSession) (endpR : Endpoint) (bfd : Bfd) (curms : BitVec 64)
    (m : BfdSessionManager) :
    (recieveOnSession psess endpR bfd curms m).bfdSessions = Function.update m.bfdSessions
      (makeUll endpR.address endpR.port) (some (afterPacket endpR bfd curms m.localDiscriminatorIncr psess)) := by
  simp only [recieveOnSession, afterPacket]
  split
  · rfl
  · split <;> simp [setSession]

/-- `on_bfd_recieved` changes the session of the sender alone. -/
theorem onBfdRecieved_bfdSessions (endpR : Endpoint) (bfd : Bfd) (curms : BitVec 64) (m : BfdSessionManager) :
    (onBfdRecieved endpR bfd curms m).bfdSessions =
      Function.update m.bfdSessions (makeUll endpR.address endpR.port)
        (nextSession endpR bfd curms m.localDiscriminatorIncr (m.findUnsafe endpR.address endpR.port)) := by
  unfold onBfdRecieved
  cases hfind : m.findUnsafe endpR.address endpR.port with
  | some psess => exact recieveOnSession_bfdSessions psess endpR bfd curms m
  | none =>
    have hsub : (m.subscribeUnsafe endpR.address endpR.port).findUnsafe endpR.address endpR.port =
        some (BfdSession.new endpR.address endpR.port) := by simp [subscribeUnsafe, findUnsafe]
    simp only [nextSession, hsub]
    split
    · rw [transmitUnsafe_bfdSessions]
      simp [setSession, subscribeUnsafe, downSession]
    · split
      · rw [recieveOnSession_bfdSessions]
        simp [subscribeUnsafe]
      · exact (Function.update_eq_self_iff.mpr hfind.symm).symm

end BfdSessionManager

/-! ## One session -/

/-- The fields that decide about a session are the same. -/
structure SameSession (s : BfdSess) (t : BfdSession) : Prop where
  sessionState : s.sessionState = t.sessionState
  remoteSessionState : s.remoteSessionState = t.remoteSessionState
  localDiag : s.localDiag = t.localDiag
  remoteDiscr : s.remoteDiscr = t.remoteDiscr
  mustTerminate : s.mustTerminate = t.mustTerminate
  pollbitOn : s.pollbitOn = t.pollbitOn

section

variable {bfd : Bfd} {curms incr incr' : BitVec 64} {endpR : Endpoint} {s : BfdSess} {t : BfdSession}

theorem same_recordPacket (h : SameSession s t) :
    SameSession (recordPacket bfd curms (attach s incr).1)
      (BfdSessionManager.recordPacket bfd curms (BfdSessionManager.attach endpR t incr').1) := by
  have hs : SameSession (attach s incr).1 t := by
    unfold attach
    split
    · exact ⟨h.1, h.2, h.3, h.4, h.5, h.6⟩
    · exact h
  have ht : SameSession (attach s incr).1 (BfdSessionManager.attach endpR t incr').1 := by
    unfold BfdSessionManager.attach
    split
    · exact ⟨hs.1, hs.2, hs.3, hs.4, hs.5, hs.6⟩
    · exact hs
  refine ⟨ht.sessionState, rfl, ht.localDiag, rfl, ?_, ht.pollbitOn⟩
  simp only [recordPacket, BfdSessionManager.recordPacket, ht.mustTerminate]

/-- The state machines on the same session. -/
theorem same_stateMachine_iff (h : SameSession s t) (hremote : s.remoteSessionState = bfd.state.setWidth 32)
    (hs : s.sessionState = BitVec.ofNat 32 bfdstateDown ∨ s.sessionState = BitVec.ofNat 32 bfdstateInit ∨
      s.sessionState = BitVec.ofNat 32 bfdstateUp) :
    SameSession (stateMachine s) (BfdSessionManager.stateMachine t) ↔
      ¬(bfd.state = BitVec.ofNat 2 bfdstateDown ∧ s.sessionState = BitVec.ofNat 32 bfdstateInit) := by
  have hbfd : ∀ v : BitVec 2, v = 0 ∨ v = 1 ∨ v = 2 ∨ v = 3 := by decide
  obtain ⟨h1, h2, h3, h4, h5, h6⟩ := h
  constructor
  · rintro hsame ⟨hdown, hinit⟩
    have hstate := hsame.sessionState
    simp [stateMachine, BfdSessionManager.stateMachine, ← h1, ← h2, hremote, hdown, hinit] at hstate
  · intro hnot
    rcases hbfd bfd.state with hv | hv | hv | hv <;> rcases hs with hs | hs | hs
    case inr.inl.inr.inl => exact absurd ⟨hv, hs⟩ hnot
    all_goals
      refine ⟨?_, ?_, ?_, ?_, ?_, ?_⟩ <;>
        simp [stateMachine, BfdSessionManager.stateMachine, ← h1, ← h2, ← h3, ← h4, ← h5, ← h6, hremote, hv, hs]

/-- One packet on the same session: the daemons differ exactly on Down in state Init. -/
theorem same_afterPacket_iff (h : SameSession s t)
    (hs : s.sessionState = BitVec.ofNat 32 bfdstateDown ∨ s.sessionState = BitVec.ofNat 32 bfdstateInit ∨
      s.sessionState = BitVec.ofNat 32 bfdstateUp) :
    SameSession (afterPacket bfd curms incr s) (BfdSessionManager.afterPacket endpR bfd curms incr' t) ↔
      ¬(bfd.state = BitVec.ofNat 2 bfdstateDown ∧ s.sessionState = BitVec.ofNat 32 bfdstateInit) := by
  have hrec := @same_recordPacket bfd curms incr incr' endpR s t h
  have hsess : (recordPacket bfd curms (attach s incr).1).sessionState = s.sessionState := attach_states s incr
  have hup : (BfdSessionManager.recordPacket bfd curms
      (BfdSessionManager.attach endpR t incr').1).sessionState ≠ BitVec.ofNat 32 bfdstateAdmindown := by
    rw [← hrec.sessionState, hsess]
    rcases hs with hs | hs | hs <;> rw [hs] <;> decide
  have hiff := same_stateMachine_iff hrec (show _ = bfd.state.setWidth 32 from rfl) (hsess ▸ hs)
  rw [hsess] at hiff
  rw [← hiff]
  simp only [afterPacket, BfdSessionManager.afterPacket, if_neg hup]
  constructor
  · intro hsame
    refine ⟨hsame.1, hsame.2, hsame.3, hsame.4, hsame.5, ?_⟩
    obtain ⟨state, diag, hs'⟩ := stateMachine_frame (recordPacket bfd curms (attach s incr).1)
    obtain ⟨state', diag', ht'⟩ := BfdSessionManager.stateMachine_frame
      (BfdSessionManager.recordPacket bfd curms (BfdSessionManager.attach endpR t incr').1)
    rw [hs', ht']
    exact hrec.pollbitOn
  · intro hsame
    refine ⟨hsame.1, hsame.2, hsame.3, hsame.4, hsame.5, ?_⟩
    simp only [hsame.pollbitOn]

end

/-! ## Both tables -/

/-- The session of bfdd for a peer. -/
def session (d : Daemon) (addr : BitVec 32) (port : BitVec 16) : Option BfdSess :=
  d.kv.findSession ⟨2, port, addr, 0⟩ sizeofSockaddrIn

/-- The daemons hold the same sessions for the same peers. -/
def SameTables (d : Daemon) (m : BfdSessionManager) : Prop :=
  ∀ addr port, Option.Rel SameSession (session d addr port) (m.findUnsafe (htonl addr) (htons port))

/-- A datagram on its way to both daemons, and what bfdd finds on its stack and its socket meanwhile. -/
structure Datagram where
  cAddr : SockaddrIn
  pkt : List Byte
  curms : BitVec 64
  stack : BfdSess
  results : List Int

namespace Datagram

/-- To bfdd. -/
def action (p : Datagram) : Action := .recv p.cAddr p.pkt p.stack p.curms p.results

/-- The sender as bfdd_cpp sees it. -/
def endpR (p : Datagram) : Endpoint := ⟨htonl p.cAddr.addr, htons p.cAddr.port⟩

/-- To bfdd_cpp. -/
def deliver (m : BfdSessionManager) (p : Datagram) : BfdSessionManager := recieve p.endpR p.pkt p.curms m

/-- bfdd after the datagrams. -/
def runC (ps : List Datagram) : Daemon := Daemon.run (ps.map action)

/-- bfdd_cpp after the datagrams. -/
def runCpp (ps : List Datagram) : BfdSessionManager := ps.foldl deliver .new

/-- An accepted packet says Down, and the session of its sender is in state Init. -/
def DownAtInit (d : Daemon) (p : Datagram) : Prop :=
  recvAccepts p.pkt.length (Bfd.ofPacket p.pkt) = true ∧
  (Bfd.ofPacket p.pkt).state = BitVec.ofNat 2 bfdstateDown ∧
  ∃ s, session d p.cAddr.addr p.cAddr.port = some s ∧ s.sessionState = BitVec.ofNat 32 bfdstateInit

end Datagram

section

variable {d : Daemon} {m : BfdSessionManager} {p : Datagram} {R : Registry}

theorem session_eq (h : Represents d.kv R) (addr : BitVec 32) (port : BitVec 16) :
    session d addr port = R.sess ⟨addr, port, 0⟩ :=
  Kv.findSession_eq h ⟨2, port, addr, 0⟩ (by decide)

/-- The next session of a peer, from the same session before. -/
theorem same_nextSession_iff {bfd : Bfd} {cAddr : SockaddrIn} {cAddrlen : BitVec 32} {stack : BfdSess}
    {curms incr incr' : BitVec 64} {endpR : Endpoint} {a : Option BfdSess} {b : Option BfdSession}
    (h : Option.Rel SameSession a b)
    (hs : ∀ s, a = some s → s.sessionState = BitVec.ofNat 32 bfdstateDown ∨
      s.sessionState = BitVec.ofNat 32 bfdstateInit ∨ s.sessionState = BitVec.ofNat 32 bfdstateUp) :
    Option.Rel SameSession (nextSession bfd cAddr cAddrlen stack curms incr a)
        (BfdSessionManager.nextSession endpR bfd curms incr' b) ↔
      ¬(bfd.state = BitVec.ofNat 2 bfdstateDown ∧
        ∃ s, a = some s ∧ s.sessionState = BitVec.ofNat 32 bfdstateInit) := by
  cases h with
  | some hst =>
    rename_i s t
    simp only [nextSession, BfdSessionManager.nextSession, Option.some.injEq, exists_eq_left']
    rw [← same_afterPacket_iff hst (hs s rfl)]
    constructor
    · rintro ⟨h⟩
      exact h
    · exact Option.Rel.some
  | none =>
    have hnew : SameSession (initSession stack cAddr cAddrlen) (BfdSession.new endpR.address endpR.port) :=
      ⟨rfl, rfl, rfl, rfl, rfl, rfl⟩
    refine iff_of_true ?_ fun hn => by simp at hn
    simp only [nextSession, BfdSessionManager.nextSession]
    split
    · exact .some ⟨rfl, rfl, rfl, rfl, rfl, rfl⟩
    · split
      · refine .some ((same_afterPacket_iff hnew (.inl rfl)).mpr fun hn => ?_)
        simp [initSession] at hn
      · exact .none

/-- One datagram: the tables stay the same unless it says Down in state Init. -/
theorem step_same_iff (hd : Inv d) (hall : AllInserted (Daemon.step d p.action).log) (h : SameTables d m) :
    SameTables (Daemon.step d p.action) (Datagram.deliver m p) ↔ ¬ Datagram.DownAtInit d p := by
  obtain ⟨R, hR, ht⟩ := hd.table
  have hstates : ∀ k s, R.sess k = some s → s.sessionState = BitVec.ofNat 32 bfdstateDown ∨
      s.sessionState = BitVec.ofNat 32 bfdstateInit ∨ s.sessionState = BitVec.ofNat 32 bfdstateUp :=
    fun k s hs => (ht k s hs).states
  obtain ⟨R', hR', hsess⟩ := recvBfdEvent_effect hall hR (by decide) fun s hs => by
    rcases hstates _ s hs with h1 | h1 | h1 <;> rw [h1] <;> decide
  have hsession : ∀ addr port, session (Daemon.step d p.action) addr port = R'.sess ⟨addr, port, 0⟩ :=
    fun addr port => session_eq hR' addr port
  have hsender : Option.Rel SameSession (R.sess (keyt p.cAddr)) (m.findUnsafe p.endpR.address p.endpR.port) := by
    have := h p.cAddr.addr p.cAddr.port
    rwa [session_eq hR] at this
  by_cases hok : recvAccepts p.pkt.length (Bfd.ofPacket p.pkt) = true
  · rw [if_pos hok] at hsess
    have hiff := @same_nextSession_iff (Bfd.ofPacket p.pkt) p.cAddr sizeofSockaddrIn p.stack p.curms
      d.localDiscriminatorIncr m.localDiscriminatorIncr p.endpR _ _ hsender (hstates _)
    have hdown : Datagram.DownAtInit d p ↔ ((Bfd.ofPacket p.pkt).state = BitVec.ofNat 2 bfdstateDown ∧
        ∃ s, R.sess (keyt p.cAddr) = some s ∧ s.sessionState = BitVec.ofNat 32 bfdstateInit) := by
      rw [Datagram.DownAtInit, session_eq hR]
      exact and_iff_right hok
    have hcpp : (Datagram.deliver m p).bfdSessions = _ :=
      (congrArg BfdSessionManager.bfdSessions (if_pos hok)).trans
        (BfdSessionManager.onBfdRecieved_bfdSessions p.endpR (Bfd.ofPacket p.pkt) p.curms m)
    have hself : session (Daemon.step d p.action) p.cAddr.addr p.cAddr.port = _ :=
      (hsession _ _).trans ((congrFun hsess _).trans (Function.update_self _ _ _))
    have hself' : (Datagram.deliver m p).findUnsafe (htonl p.cAddr.addr) (htons p.cAddr.port) = _ :=
      (congrFun hcpp _).trans (Function.update_self _ _ _)
    rw [hdown, ← hiff]
    constructor
    · intro hsame
      have hrel := hsame p.cAddr.addr p.cAddr.port
      rwa [hself, hself'] at hrel
    · intro hnext addr port
      by_cases hpeer : addr = p.cAddr.addr ∧ port = p.cAddr.port
      · obtain ⟨rfl, rfl⟩ := hpeer
        rw [hself, hself']
        exact hnext
      · rw [hsession, hsess, BfdSessionManager.findUnsafe, hcpp, Function.update_of_ne, Function.update_of_ne]
        · have := h addr port
          rwa [session_eq hR] at this
        · intro he
          obtain ⟨h1, h2⟩ := makeUll_injective he
          refine hpeer ⟨?_, ?_⟩
          · rw [← htonl_htonl addr, h1]
            exact htonl_htonl _
          · rw [← htons_htons port, h2]
            exact htons_htons _
        · intro he
          exact hpeer ⟨congrArg SessKey.addr he, congrArg SessKey.port he⟩
  · rw [if_neg hok] at hsess
    have hcpp : Datagram.deliver m p = m := if_neg hok
    refine iff_of_true (fun addr port => ?_) fun hdown => hok hdown.1
    rw [hsession, hsess, hcpp, ← session_eq hR]
    exact h addr port

end

/-! ## Runs -/

namespace Datagram

theorem runC_append (ps qs : List Datagram) :
    runC (ps ++ qs) = (qs.map action).foldl Daemon.step (runC ps) := by
  rw [runC, List.map_append, Daemon.run, List.foldl_append]
  rfl

theorem runCpp_concat (ps : List Datagram) (p : Datagram) : runCpp (ps ++ [p]) = deliver (runCpp ps) p := by
  rw [runCpp, List.foldl_append]
  rfl

/-- What a run inserted, its beginning inserted. -/
theorem allInserted_append {pre ps : List Datagram} (h : pre <+: ps) (hall : AllInserted (runC ps).log) :
    AllInserted (runC pre).log := by
  obtain ⟨rest, rfl⟩ := h
  rw [runC_append] at hall
  exact hall.suffix (Daemon.foldl_step_suffix _ _)

theorem sameTables_start : SameTables (runC []) (runCpp []) := by
  intro addr port
  obtain ⟨kv, hinit, hR⟩ := initialize_represents
  have hstart : Represents (runC []).kv Registry.empty := by
    rw [show (runC []).kv = Kv.empty.initializeBfdSessionTable.2 from rfl, hinit]
    exact hR
  rw [session_eq hstart]
  exact .none

/-- The daemons hold the same sessions after every datagram iff none says Down to a session in state Init. -/
theorem daemons_agree_iff (ps : List Datagram) (hall : AllInserted (runC ps).log) :
    (∀ pre, pre <+: ps → SameTables (runC pre) (runCpp pre)) ↔
      ∀ pre p, pre ++ [p] <+: ps → ¬ DownAtInit (runC pre) p := by
  have hstep : ∀ pre p, pre ++ [p] <+: ps → SameTables (runC pre) (runCpp pre) →
      (SameTables (runC (pre ++ [p])) (runCpp (pre ++ [p])) ↔ ¬ DownAtInit (runC pre) p) := by
    intro pre p hpre hsame
    have hinv : Inv (runC pre) := Daemon.foldl_step_inv _ Daemon.start_inv
      (allInserted_append ((List.prefix_append pre [p]).trans hpre) hall)
    have hall' := allInserted_append hpre hall
    rw [runC_append] at hall' ⊢
    rw [runCpp_concat]
    exact step_same_iff hinv hall' hsame
  constructor
  · intro hsame pre p hpre
    exact (hstep pre p hpre (hsame pre ((List.prefix_append pre [p]).trans hpre))).mp (hsame _ hpre)
  · intro hdown pre
    induction pre using List.reverseRecOn with
    | nil => exact fun _ => sameTables_start
    | append_singleton pre p ih =>
      intro hpre
      exact (hstep pre p hpre (ih ((List.prefix_append pre [p]).trans hpre))).mpr (hdown pre p hpre)

/-- A peer that says Down twice. -/
def downTwice : List Datagram :=
  let pkt := [0x20, 0x40, 3, 24, 7, 0, 0, 0, 0, 0, 0, 0, 0, 0, 0, 0, 0, 0, 0, 0, 0, 0, 0, 0]
  [⟨⟨2, 3784, 0x0100007f, 0⟩, pkt, 5, default, []⟩, ⟨⟨2, 3784, 0x0100007f, 0⟩, pkt, 6, default, []⟩]

theorem daemons_agree_iff_downTwice :
    AllInserted (runC downTwice).log ∧
      ((∀ pre, pre <+: downTwice → SameTables (runC pre) (runCpp pre)) ↔
        ∀ pre p, pre ++ [p] <+: downTwice → ¬ DownAtInit (runC pre) p) := by
  have hall : AllInserted (runC downTwice).log := by decide +kernel
  exact ⟨hall, daemons_agree_iff downTwice hall⟩

/-- bfdd goes Down at the second packet, bfdd_cpp stays in state Init. -/
theorem daemons_disagree_downTwice :
    AllInserted (runC downTwice).log ∧ ¬ ∀ pre, pre <+: downTwice → SameTables (runC pre) (runCpp pre) := by
  refine ⟨by decide +kernel, fun hsame => ?_⟩
  have hrel := hsame downTwice (List.prefix_refl _) 0x0100007f 3784
  have hc : (session (runC downTwice) 0x0100007f 3784).map BfdSess.sessionState = some 1 := by decide +kernel
  have hcpp : ((runCpp downTwice).findUnsafe (htonl 0x0100007f) (htons 3784)).map BfdSession.sessionState =
      some 2 := by decide +kernel
  generalize session (runC downTwice) 0x0100007f 3784 = a at hrel hc
  generalize (runCpp downTwice).findUnsafe (htonl 0x0100007f) (htons 3784) = b at hrel hcpp
  cases hrel with
  | some h =>
    simp only [Option.map_some, Option.some.injEq] at hc hcpp
    have hne := h.sessionState
    rw [hc, hcpp] at hne
    exact absurd hne (by decide)
  | none => cases hc

end Datagram

end NetworkBfd.BfddCpp
