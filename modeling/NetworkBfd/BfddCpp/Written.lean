import NetworkBfd.Bfdd.Discriminators
import NetworkBfd.Bfdd.Packets
import NetworkBfd.BfddCpp.Requests

/-!
# What the session manager writes

After any requests, each write goes to the BFD port of the peer of a session that is stored, with the packet of that
session: it passes the checks of both daemons, shows the session, returns the discriminator of the last packet of the
peer, and says Up only if that packet said Init or Up (`written_sound`). The sessions that have a connection have
different discriminators, none of them zero, as long as fewer than `2 ^ 31` datagrams came (`serveAll_discriminators`).
-/

namespace NetworkBfd.BfddCpp

open Lib Smmr Bfdd

/-- The two servers make the same checks. -/
theorem recieveAccepts_eq : recieveAccepts = recvAccepts := rfl

/-- A datagram. -/
def Request.isRecieve : Request → Bool
  | recieve .. => true
  | _ => false

namespace BfdSessionManager

/-- What `transmit_unsafe` writes. -/
def writes (psess : BfdSession) : List (Endpoint × Bfd) :=
  let bfd := ctrlPacket psess
  if (bfd.yourDiscr = 0 ∨ bfd.myDiscr = 0) ∧ bfd.state ≠ BitVec.ofNat 2 bfdstateDown then []
  else (psess.conn.map fun conn => (conn.udpendp, bfd)).toList

theorem transmitUnsafe_writes (psess : BfdSession) (m : BfdSessionManager) :
    (transmitUnsafe psess m).log = writes psess ++ m.log := by
  unfold transmitUnsafe writes
  dsimp only
  split
  · rfl
  · cases psess.conn <;> rfl

/-- The packet says what the session says. -/
structure Says (bfd : Bfd) (psess : BfdSession) : Prop where
  diag : bfd.diag.setWidth 32 = psess.localDiag
  state : bfd.state.setWidth 32 = psess.sessionState
  mult : bfd.detectMult.setWidth 32 = psess.detectMult
  my : bfd.myDiscr = psess.localDiscr
  your : bfd.yourDiscr = psess.remoteDiscr

section Session

variable {endp : Endpoint} {last : Option Word} {s : BfdSession} {w : Endpoint × Bfd}

/-- A session is written for if it has a connection. -/
theorem Kept.written (h : Kept endp last s) (hw : w ∈ writes s) :
    w = (⟨endp.address, bfddfltUdpport⟩, ctrlPacket s) ∧ s.localDiscr ≠ 0 ∧ s.remoteDiscr ≠ 0 ∧
      ∃ pkt, last = some (.heard pkt) ∧ s.remoteDiscr = pkt.myDiscr := by
  unfold writes at hw
  dsimp only at hw
  split at hw
  · cases hw
  · obtain ⟨conn, hconn, rfl⟩ := Option.map_eq_some_iff.mp (Option.mem_toList.mp hw)
    obtain ⟨rfl, hlocal, hremote, hlast⟩ := h.connected conn hconn
    exact ⟨rfl, hlocal, hremote, hlast⟩

/-- The packet of a session with a connection. -/
theorem Kept.shows (h : Kept endp last s) (hlocal : s.localDiscr ≠ 0) (hremote : s.remoteDiscr ≠ 0) :
    recvAccepts (ctrlPacket s).toPacket.length (Bfd.ofPacket (ctrlPacket s).toPacket) = true ∧
      Says (Bfd.ofPacket (ctrlPacket s).toPacket) s := by
  rw [Bfd.ofPacket_toPacket, Bfd.length_toPacket]
  have hstate : (ctrlPacket s).state = s.sessionState.setWidth 2 := if_pos hlocal
  have hwide : (s.sessionState.setWidth 2).setWidth 32 = s.sessionState := by
    rcases h.states with hs | hs | hs <;> rw [hs] <;> rfl
  have hmult : (ctrlPacket s).detectMult = 3 := by
    simp only [ctrlPacket, h.mult]
    rfl
  refine ⟨?_, ⟨?_, ?_, ?_, rfl, rfl⟩⟩
  · have hmy : (ctrlPacket s).myDiscr ≠ 0 := hlocal
    have hyour : (ctrlPacket s).yourDiscr ≠ 0 := hremote
    have hvers : (ctrlPacket s).vers = bfdVersion := rfl
    have hmultipoint : (ctrlPacket s).multipoint = 0 := rfl
    have hauth : (ctrlPacket s).auth = 0 := rfl
    simp only [recvAccepts, hvers, hmultipoint, hauth, hmult, hmy, hyour, false_and, if_false]
    decide
  · simp only [ctrlPacket]
    rcases h.diag with hd | hd <;> rw [hd] <;> rfl
  · rw [hstate, hwide]
  · rw [hmult, h.mult]
    rfl

end Session

/-! ## The writes of a request -/

section Step

variable {m : BfdSessionManager}

theorem recieveOnSession_writes {psess : BfdSession} {endpR : Endpoint} {bfd : Bfd} {curms : BitVec 64}
    (hstate : psess.sessionState ≠ BitVec.ofNat 32 bfdstateAdmindown) :
    (recieveOnSession psess endpR bfd curms m).log =
      (if bfd.poll = 1 then writes (afterPacket endpR bfd curms m.localDiscriminatorIncr psess) else []) ++ m.log := by
  have hattach : (attach endpR psess m.localDiscriminatorIncr).1.sessionState = psess.sessionState := by
    unfold attach
    split <;> rfl
  have hadmin : (recordPacket bfd curms (attach endpR psess m.localDiscriminatorIncr).1).sessionState ≠
      BitVec.ofNat 32 bfdstateAdmindown := fun he => hstate (hattach.symm.trans he)
  simp only [recieveOnSession, afterPacket, if_neg hadmin]
  split
  · exact transmitUnsafe_writes _ _
  · rfl

/-- `on_bfd_recieved` answers a poll, for the session as it is then. -/
theorem onBfdRecieved_writes {endpR : Endpoint} {bfd : Bfd} {curms : BitVec 64}
    (hstates : ∀ s, m.bfdSessions endpR.key = some s → s.sessionState ≠ BitVec.ofNat 32 bfdstateAdmindown) :
    (onBfdRecieved endpR bfd curms m).log =
      (if bfd.poll = 1 then (nextSession endpR bfd curms m.localDiscriminatorIncr
        (m.bfdSessions endpR.key)).toList.flatMap writes else []) ++ m.log := by
  have hkey : m.findUnsafe endpR.address endpR.port = m.bfdSessions endpR.key := rfl
  have hdown : writes (downSession endpR bfd) = [] := by
    unfold writes
    dsimp only
    split <;> rfl
  unfold onBfdRecieved
  rw [hkey]
  cases hs : m.bfdSessions endpR.key with
  | some psess =>
    simp only [nextSession, Option.toList_some, List.flatMap_singleton]
    exact recieveOnSession_writes (hstates psess hs)
  | none =>
    have hsub : (m.subscribeUnsafe endpR.address endpR.port).findUnsafe endpR.address endpR.port =
        some (BfdSession.new endpR.address endpR.port) := by simp [subscribeUnsafe, findUnsafe]
    simp only [nextSession, hsub]
    by_cases hyour : bfd.yourDiscr ≠ 0
    · simp only [if_pos hyour, Option.toList_some, List.flatMap_singleton, hdown, ite_self, List.nil_append]
      rw [transmitUnsafe_writes]
      exact congrArg (· ++ m.log) hdown
    · simp only [if_neg hyour]
      by_cases hstate : bfd.state = BitVec.ofNat 2 bfdstateDown
      · simp only [if_pos hstate, Option.toList_some, List.flatMap_singleton]
        exact recieveOnSession_writes (m := m.subscribeUnsafe endpR.address endpR.port) (by simp [BfdSession.new])
      · simp only [if_neg hstate, Option.toList_none, List.flatMap_nil, ite_self, List.nil_append]

theorem visit_writes (curms itr : BitVec 64) (m : BfdSessionManager) :
    ∃ new, (visit curms m itr).log = new ++ m.log ∧ ∀ w ∈ new, ∃ s, m.bfdSessions itr = some s ∧ w ∈ writes s := by
  unfold visit
  cases hs : m.bfdSessions itr with
  | none => exact ⟨[], rfl, fun w hw => (by cases hw)⟩
  | some psess =>
    dsimp only
    split
    · split
      · exact ⟨writes psess, transmitUnsafe_writes psess m, fun w hw => ⟨psess, rfl, hw⟩⟩
      · exact ⟨[], rfl, fun w hw => (by cases hw)⟩
    · exact ⟨[], rfl, fun w hw => (by cases hw)⟩

/-- A round writes for stored sessions. -/
theorem onBfdThread_writes (curms : BitVec 64) : ∀ (itrs : List (BitVec 64)) (m : BfdSessionManager),
    ∃ new, (onBfdThread curms itrs m).log = new ++ m.log ∧
      ∀ w ∈ new, ∃ itr s, m.bfdSessions itr = some s ∧ w ∈ writes s
  | [], m => ⟨[], rfl, fun w hw => (by cases hw)⟩
  | itr :: itrs, m => by
    obtain ⟨first, hfirst, hw⟩ := visit_writes curms itr m
    obtain ⟨rest, hrest, hw'⟩ := onBfdThread_writes curms itrs (visit curms m itr)
    refine ⟨rest ++ first, ?_, fun w hmem => ?_⟩
    · rw [List.append_assoc, ← hfirst]
      exact hrest
    · rcases List.mem_append.mp hmem with hmem | hmem
      · obtain ⟨i, s, hs, hws⟩ := hw' w hmem
        rw [visit_bfdSessions] at hs
        exact ⟨i, s, hs, hws⟩
      · exact ⟨itr, hw w hmem⟩

/-- What a request writes, it writes for sessions that are stored after it. -/
theorem serve_writes {history : Endpoint → List Word} (h : Obeys m history) (r : Request) :
    ∃ new, (serve m r).log = new ++ m.log ∧
      ∀ w ∈ new, ∃ (endp : Endpoint) (s : BfdSession), (serve m r).bfdSessions endp.key = some s ∧ w ∈ writes s := by
  cases r with
  | subscribe ipaddr port => exact ⟨[], rfl, fun w hw => (by cases hw)⟩
  | unsubscribe ipaddr port =>
    refine ⟨[], ?_, fun w hw => (by cases hw)⟩
    simp only [serve, unsubscribe]
    split <;> rfl
  | tick curms itrs =>
    obtain ⟨new, hnew, hw⟩ := onBfdThread_writes curms itrs m
    refine ⟨new, hnew, fun w hmem => ?_⟩
    obtain ⟨itr, s, hs, hws⟩ := hw w hmem
    obtain ⟨endp, rfl⟩ := h.keys itr (Option.isSome_iff_exists.mpr ⟨s, hs⟩)
    refine ⟨endp, s, ?_, hws⟩
    rw [serve, onBfdThread_bfdSessions]
    exact hs
  | recieve endpR pkt curms =>
    simp only [serve, recieve]
    by_cases hok : recieveAccepts pkt.length (Bfd.ofPacket pkt) = true
    · rw [if_pos hok]
      refine ⟨_, onBfdRecieved_writes fun s hs => (h.kept endpR s hs).not_admin, fun w hmem => ?_⟩
      split at hmem
      · obtain ⟨s, hs, hws⟩ := List.mem_flatMap.mp hmem
        refine ⟨endpR, s, ?_, hws⟩
        rw [onBfdRecieved_bfdSessions]
        exact (Function.update_self _ _ _).trans (Option.mem_toList.mp hs)
      · cases hmem
    · rw [if_neg hok]
      exact ⟨[], rfl, fun w hw => (by cases hw)⟩

end Step

/-- Up is reached by a packet that says Init or Up. -/
theorem Obeys.up {m : BfdSessionManager} {history : Endpoint → List Word} (h : Obeys m history) {endp : Endpoint}
    {s : BfdSession} {pkt : Bfd} (hs : m.bfdSessions endp.key = some s)
    (hlast : (history endp).getLast? = some (.heard pkt)) (hup : s.sessionState = BitVec.ofNat 32 bfdstateUp) :
    pkt.state = BitVec.ofNat 2 bfdstateInit ∨ pkt.state = BitVec.ofNat 2 bfdstateUp := by
  have hmachine := h.machine endp
  obtain ⟨before, hbefore⟩ := List.getLast?_eq_some_iff.mp hlast
  have hstate : s.state = .up := by
    rw [BfdSession.state, hup]
    rfl
  rw [hs, Option.map_some, hstate, hbefore, List.foldl_append] at hmachine
  exact SessState.meet_up (by decide) hmachine.symm

/-- Whatever a request writes after any requests, it writes to the peer of a stored session: a packet that both daemons
accept, that shows the session and returns the discriminator of the last packet of the peer; it says Up only if that
packet said Init or Up. -/
theorem written_sound (requests : List Request) (r : Request) :
    ∃ new, (serveAll (requests ++ [r])).log = new ++ (serveAll requests).log ∧
      ∀ w ∈ new, ∃ endp psess pkt,
        (serveAll (requests ++ [r])).findUnsafe endp.address endp.port = some psess ∧
        w = (⟨endp.address, bfddfltUdpport⟩, ctrlPacket psess) ∧
        recvAccepts w.2.toPacket.length (Bfd.ofPacket w.2.toPacket) = true ∧
        recieveAccepts w.2.toPacket.length (Bfd.ofPacket w.2.toPacket) = true ∧
        Says (Bfd.ofPacket w.2.toPacket) psess ∧
        (words endp (requests ++ [r])).getLast? = some (.heard pkt) ∧
        w.2.yourDiscr = pkt.myDiscr ∧
        (w.2.state = BitVec.ofNat 2 bfdstateUp →
          pkt.state = BitVec.ofNat 2 bfdstateInit ∨ pkt.state = BitVec.ofNat 2 bfdstateUp) := by
  obtain ⟨new, hnew, hw⟩ := serve_writes (serveAll_obeys requests) r
  rw [← serveAll_concat] at hnew hw
  have h := serveAll_obeys (requests ++ [r])
  refine ⟨new, hnew, fun w hmem => ?_⟩
  obtain ⟨endp, s, hs, hws⟩ := hw w hmem
  have hkept := h.kept endp s hs
  obtain ⟨rfl, hlocal, hremote, pkt, hlast, hdiscr⟩ := hkept.written hws
  obtain ⟨hok, hsays⟩ := hkept.shows hlocal hremote
  refine ⟨endp, s, pkt, hs, rfl, hok, hok, hsays, hlast, hdiscr, fun hup => h.up hs hlast ?_⟩
  have hstate := hsays.state
  rw [Bfd.ofPacket_toPacket, hup] at hstate
  exact hstate.symm

/-! ## Discriminators -/

section Stamp

variable {endp : Endpoint} {s : BfdSession} {bfd : Bfd} {curms incr : BitVec 64}

/-- A packet leaves the connection and the discriminator of the attached session. -/
theorem afterPacket_stamp (endp : Endpoint) (bfd : Bfd) (curms incr : BitVec 64) (s : BfdSession) :
    (afterPacket endp bfd curms incr s).conn = (attach endp s incr).1.conn ∧
      (afterPacket endp bfd curms incr s).localDiscr = (attach endp s incr).1.localDiscr := by
  obtain ⟨state, diag, hmachine⟩ := stateMachine_frame (recordPacket bfd curms (attach endp s incr).1)
  simp only [afterPacket]
  split
  · exact ⟨rfl, rfl⟩
  · rw [hmachine]
    exact ⟨rfl, rfl⟩

theorem attach_of_some {conn : Conn} (hc : s.conn = some conn) : attach endp s incr = (s, incr) := by
  unfold attach
  rw [hc]

theorem attach_of_none (hc : s.conn = none) (hincr : incr < 0x7fffffff) :
    (attach endp s incr).1.localDiscr = htonl ((incr + 1).setWidth 32) ∧ (attach endp s incr).2 = incr + 1 := by
  have hlow : ¬ 0x7fffffff < incr + 1 := by
    simp only [BitVec.lt_def, BitVec.toNat_add, BitVec.reduceToNat] at hincr ⊢
    omega
  unfold attach
  rw [hc]
  exact ⟨rfl, if_neg hlow⟩

/-- The counter after a packet for the session `o`. -/
def nextIncr (endp : Endpoint) (bfd : Bfd) (incr : BitVec 64) : Option BfdSession → BitVec 64
  | some s => (attach endp s incr).2
  | none =>
    if bfd.yourDiscr ≠ 0 then incr
    else if bfd.state = BitVec.ofNat 2 bfdstateDown then (attach endp (BfdSession.new endp.address endp.port) incr).2
    else incr

/-- A session with a connection has its number from before, or the next one. -/
theorem nextSession_stamp {o : Option BfdSession} {t : BfdSession} (hincr : incr < 0x7fffffff)
    (ht : nextSession endp bfd curms incr o = some t) (hconn : t.conn.isSome) :
    (∃ s, o = some s ∧ s.conn.isSome ∧ t.localDiscr = s.localDiscr ∧ nextIncr endp bfd incr o = incr) ∨
      t.localDiscr = htonl ((incr + 1).setWidth 32) ∧ nextIncr endp bfd incr o = incr + 1 := by
  cases o with
  | some s =>
    obtain rfl := Option.some.inj ht
    obtain ⟨hc, hd⟩ := afterPacket_stamp endp bfd curms incr s
    cases hs : s.conn with
    | some conn =>
      rw [attach_of_some hs] at hd
      refine .inl ⟨s, rfl, ?_, hd, ?_⟩
      · rw [hs]
        rfl
      · rw [nextIncr, attach_of_some hs]
    | none =>
      obtain ⟨hlocal, hnext⟩ := @attach_of_none endp s incr hs hincr
      exact .inr ⟨hd.trans hlocal, hnext⟩
  | none =>
    simp only [nextSession] at ht
    split at ht
    · obtain rfl := Option.some.inj ht
      cases hconn
    · rename_i hyour
      split at ht
      · rename_i hstate
        obtain rfl := Option.some.inj ht
        obtain ⟨hc, hd⟩ := afterPacket_stamp endp bfd curms incr (BfdSession.new endp.address endp.port)
        obtain ⟨hlocal, hnext⟩ := @attach_of_none endp (BfdSession.new endp.address endp.port) incr rfl hincr
        refine .inr ⟨hd.trans hlocal, ?_⟩
        rw [nextIncr, if_neg hyour, if_pos hstate, hnext]
      · cases ht

theorem nextIncr_cases {o : Option BfdSession} (hincr : incr < 0x7fffffff) :
    nextIncr endp bfd incr o = incr ∨ nextIncr endp bfd incr o = incr + 1 := by
  have hattach : ∀ s, (attach endp s incr).2 = incr ∨ (attach endp s incr).2 = incr + 1 := by
    intro s
    cases hs : s.conn with
    | some conn => exact .inl (by rw [attach_of_some hs])
    | none => exact .inr (attach_of_none hs hincr).2
  cases o with
  | some s => exact hattach s
  | none =>
    simp only [nextIncr]
    split
    · exact .inl rfl
    · split
      · exact hattach _
      · exact .inl rfl

theorem onBfdRecieved_nextIncr (endpR : Endpoint) (bfd : Bfd) (curms : BitVec 64) (m : BfdSessionManager) :
    (onBfdRecieved endpR bfd curms m).localDiscriminatorIncr =
      nextIncr endpR bfd m.localDiscriminatorIncr (m.bfdSessions endpR.key) := by
  have hsession : ∀ (psess : BfdSession) (m : BfdSessionManager),
      (recieveOnSession psess endpR bfd curms m).localDiscriminatorIncr =
        (attach endpR psess m.localDiscriminatorIncr).2 := by
    intro psess m
    simp only [recieveOnSession]
    split
    · rfl
    · split
      · exact transmitUnsafe_incr _ _
      · rfl
  have hkey : m.findUnsafe endpR.address endpR.port = m.bfdSessions endpR.key := rfl
  unfold onBfdRecieved
  rw [hkey]
  cases hs : m.bfdSessions endpR.key with
  | some psess => exact hsession psess m
  | none =>
    have hsub : (m.subscribeUnsafe endpR.address endpR.port).findUnsafe endpR.address endpR.port =
        some (BfdSession.new endpR.address endpR.port) := by simp [subscribeUnsafe, findUnsafe]
    simp only [nextIncr, hsub]
    split
    · exact transmitUnsafe_incr _ _
    · split
      · exact hsession _ _
      · rfl

end Stamp

/-- The counter is at most `n`, and the sessions with a connection have different numbers up to the counter. -/
structure Numbered (n : Nat) (m : BfdSessionManager) : Prop where
  count : m.localDiscriminatorIncr.toNat ≤ n
  passed : ∀ k s, m.bfdSessions k = some s → s.conn.isSome →
    ∃ i : BitVec 64, i.toNat ≤ m.localDiscriminatorIncr.toNat ∧ s.localDiscr = htonl (i.setWidth 32)
  unique : ∀ k k' s s', k ≠ k' → m.bfdSessions k = some s → m.bfdSessions k' = some s' → s.conn.isSome →
    s'.conn.isSome → s.localDiscr ≠ s'.localDiscr

section Numbers

variable {n : Nat} {m m' : BfdSessionManager}

/-- A session without a connection may take the place of another. -/
theorem Numbered.waiting (h : Numbered n m) {k : BitVec 64} {o : Option BfdSession}
    (ho : ∀ s, o = some s → s.conn = none) (hsess : m'.bfdSessions = Function.update m.bfdSessions k o)
    (hincr : m'.localDiscriminatorIncr = m.localDiscriminatorIncr) : Numbered n m' := by
  have hold : ∀ k' s, m'.bfdSessions k' = some s → s.conn.isSome → m.bfdSessions k' = some s := by
    intro k' s hs hconn
    rw [hsess] at hs
    by_cases hk : k' = k
    · subst hk
      rw [Function.update_self] at hs
      rw [ho s hs] at hconn
      cases hconn
    · rwa [Function.update_of_ne hk] at hs
  refine ⟨hincr ▸ h.count, fun k' s hs hconn => ?_, fun k₁ k₂ s s' hk hs hs' hconn hconn' => ?_⟩
  · rw [hincr]
    exact h.passed k' s (hold k' s hs hconn) hconn
  · exact h.unique k₁ k₂ s s' hk (hold _ _ hs hconn) (hold _ _ hs' hconn') hconn hconn'

/-- The session of a packet has a number of its own. -/
theorem Numbered.packet (h : Numbered n m) {endp : Endpoint} {bfd : Bfd} {curms : BitVec 64} (hn : n + 1 < 2 ^ 31)
    (hsess : m'.bfdSessions = Function.update m.bfdSessions endp.key
      (nextSession endp bfd curms m.localDiscriminatorIncr (m.bfdSessions endp.key)))
    (hincr : m'.localDiscriminatorIncr = nextIncr endp bfd m.localDiscriminatorIncr (m.bfdSessions endp.key)) :
    Numbered (n + 1) m' := by
  have hcount := h.count
  have hlow : m.localDiscriminatorIncr < 0x7fffffff := by
    simp only [BitVec.lt_def, BitVec.reduceToNat]
    omega
  have hnext : (m.localDiscriminatorIncr + 1).toNat = m.localDiscriminatorIncr.toNat + 1 := by
    simp only [BitVec.toNat_add, BitVec.reduceToNat]
    omega
  have hle : m.localDiscriminatorIncr.toNat ≤ m'.localDiscriminatorIncr.toNat ∧
      m'.localDiscriminatorIncr.toNat ≤ n + 1 := by
    rcases @nextIncr_cases endp bfd _ (m.bfdSessions endp.key) hlow with he | he
    · rw [hincr, he]
      omega
    · rw [hincr, he, hnext]
      omega
  have hself : ∀ s, m'.bfdSessions endp.key = some s →
      nextSession endp bfd curms m.localDiscriminatorIncr (m.bfdSessions endp.key) = some s := by
    intro s hs
    rwa [hsess, Function.update_self] at hs
  have hother : ∀ k, k ≠ endp.key → m'.bfdSessions k = m.bfdSessions k := by
    intro k hk
    rw [hsess, Function.update_of_ne hk]
  -- the session of the sender against those of the others
  have hfresh : ∀ k s t, k ≠ endp.key → m.bfdSessions k = some s → s.conn.isSome → m'.bfdSessions endp.key = some t →
      t.conn.isSome → s.localDiscr ≠ t.localDiscr := by
    intro k s t hk hs hconn ht hconn'
    rcases nextSession_stamp hlow (hself t ht) hconn' with ⟨u, hu, huconn, hdiscr, -⟩ | ⟨hnew, -⟩
    · rw [hdiscr]
      exact h.unique k _ s u hk hs hu hconn huconn
    · obtain ⟨i, hi, hdiscr⟩ := h.passed k s hs hconn
      intro he
      rw [hdiscr, hnew] at he
      have hinj := htonl_setWidth_inj (by omega) (by omega) he
      rw [hinj, hnext] at hi
      omega
  refine ⟨hle.2, fun k s hs hconn => ?_, fun k k' s s' hk hs hs' hconn hconn' => ?_⟩
  · by_cases hk : k = endp.key
    · subst hk
      rcases nextSession_stamp hlow (hself s hs) hconn with ⟨u, hu, huconn, hdiscr, -⟩ | ⟨hnew, he⟩
      · obtain ⟨i, hi, hi'⟩ := h.passed _ u hu huconn
        exact ⟨i, Nat.le_trans hi hle.1, hdiscr.trans hi'⟩
      · exact ⟨m.localDiscriminatorIncr + 1, (congrArg BitVec.toNat (hincr.trans he)).ge, hnew⟩
    · rw [hother k hk] at hs
      obtain ⟨i, hi, hi'⟩ := h.passed k s hs hconn
      exact ⟨i, Nat.le_trans hi hle.1, hi'⟩
  · by_cases h1 : k = endp.key
    · subst h1
      rw [hother k' fun he => hk he.symm] at hs'
      exact (hfresh k' s' s (fun he => hk he.symm) hs' hconn' hs hconn).symm
    · rw [hother k h1] at hs
      by_cases h2 : k' = endp.key
      · subst h2
        exact hfresh k s s' h1 hs hconn hs' hconn'
      · rw [hother k' h2] at hs'
        exact h.unique k k' s s' hk hs hs' hconn hconn'

theorem serve_numbered (h : Numbered n m) (r : Request) (hn : n + (if r.isRecieve = true then 1 else 0) < 2 ^ 31) :
    Numbered (n + if r.isRecieve = true then 1 else 0) (serve m r) := by
  cases r with
  | tick curms itrs =>
    have hsess := onBfdThread_bfdSessions curms itrs m
    have hincr := onBfdThread_incr curms itrs m
    refine ⟨?_, ?_, ?_⟩
    · rw [serve, hincr]
      exact h.count
    · rw [serve, hsess, hincr]
      exact h.passed
    · rw [serve, hsess]
      exact h.unique
  | subscribe ipaddr port => exact h.waiting (fun s hs => Option.some.inj hs ▸ rfl) rfl rfl
  | unsubscribe ipaddr port =>
    exact h.waiting (fun s hs => (by cases hs)) (unsubscribe_bfdSessions m ipaddr port) (unsubscribe_incr m ipaddr port)
  | recieve endpR pkt curms =>
    have hone : (if (Request.recieve endpR pkt curms).isRecieve = true then 1 else 0) = 1 := rfl
    rw [hone] at hn ⊢
    simp only [serve, recieve]
    split
    · exact h.packet hn (onBfdRecieved_bfdSessions ..) (onBfdRecieved_nextIncr ..)
    · exact ⟨Nat.le_succ_of_le h.count, h.passed, h.unique⟩

/-- A session with a connection keeps it, and its discriminator, until its endpoint is subscribed anew or
unsubscribed. -/
theorem serve_keeps (m : BfdSessionManager) (r : Request) {endp : Endpoint} {s : BfdSession}
    (hs : m.bfdSessions endp.key = some s) (hconn : s.conn.isSome)
    (hword : ∀ w, r.word endp = some w → ∃ bfd, w = .heard bfd) :
    ∃ t, (serve m r).bfdSessions endp.key = some t ∧ t.conn = s.conn ∧ t.localDiscr = s.localDiscr := by
  cases r with
  | tick curms itrs =>
    refine ⟨s, ?_, rfl, rfl⟩
    rw [serve, onBfdThread_bfdSessions]
    exact hs
  | subscribe ipaddr port =>
    have hne : Endpoint.mk ipaddr port ≠ endp := by
      intro he
      obtain ⟨bfd, hbfd⟩ := hword .subscribed (if_pos he)
      cases hbfd
    have hkey : endp.key ≠ (Endpoint.mk ipaddr port).key := fun he => hne (Endpoint.key_injective he.symm)
    refine ⟨s, ?_, rfl, rfl⟩
    rw [serve, subscribe_bfdSessions]
    exact (Function.update_of_ne hkey _ _).trans hs
  | unsubscribe ipaddr port =>
    have hne : Endpoint.mk ipaddr port ≠ endp := by
      intro he
      obtain ⟨bfd, hbfd⟩ := hword .unsubscribed (if_pos he)
      cases hbfd
    have hkey : endp.key ≠ (Endpoint.mk ipaddr port).key := fun he => hne (Endpoint.key_injective he.symm)
    refine ⟨s, ?_, rfl, rfl⟩
    rw [serve, unsubscribe_bfdSessions]
    exact (Function.update_of_ne hkey _ _).trans hs
  | recieve endpR pkt curms =>
    simp only [serve, recieve]
    split
    · rw [onBfdRecieved_bfdSessions]
      by_cases he : endpR = endp
      · subst he
        obtain ⟨conn, hc⟩ := Option.isSome_iff_exists.mp hconn
        obtain ⟨hc', hd⟩ := afterPacket_stamp endpR (Bfd.ofPacket pkt) curms m.localDiscriminatorIncr s
        rw [attach_of_some hc] at hc' hd
        refine ⟨_, Function.update_self _ _ _ |>.trans ?_, hc', hd⟩
        rw [show m.findUnsafe endpR.address endpR.port = some s from hs]
        rfl
      · have hkey : endp.key ≠ endpR.key := fun hk => he (Endpoint.key_injective hk.symm)
        refine ⟨s, ?_, rfl, rfl⟩
        exact (Function.update_of_ne hkey _ _).trans hs
    · exact ⟨s, hs, rfl, rfl⟩

end Numbers

theorem foldl_numbered : ∀ (requests : List Request) {n : Nat} {m : BfdSessionManager}, Numbered n m →
    n + requests.countP Request.isRecieve < 2 ^ 31 →
    Numbered (n + requests.countP Request.isRecieve) (requests.foldl serve m)
  | [], _, _, h, _ => h
  | r :: requests, n, m, h, hn => by
    rw [List.countP_cons, Nat.add_comm (requests.countP _), ← Nat.add_assoc] at hn ⊢
    exact foldl_numbered requests (serve_numbered h r (Nat.lt_of_le_of_lt (Nat.le_add_right _ _) hn)) hn

theorem foldl_keeps {endp : Endpoint} : ∀ (requests : List Request) {m : BfdSessionManager} {s : BfdSession},
    m.bfdSessions endp.key = some s → s.conn.isSome → (∀ w ∈ words endp requests, ∃ bfd, w = .heard bfd) →
    ∃ t, (requests.foldl serve m).bfdSessions endp.key = some t ∧ t.conn = s.conn ∧ t.localDiscr = s.localDiscr
  | [], _, s, hs, _, _ => ⟨s, hs, rfl, rfl⟩
  | r :: requests, m, s, hs, hconn, hwords => by
    have hword : ∀ w, r.word endp = some w → ∃ bfd, w = .heard bfd := fun w hw =>
      hwords w (List.mem_filterMap.mpr ⟨r, List.mem_cons_self .., hw⟩)
    have hrest : ∀ w ∈ words endp requests, ∃ bfd, w = .heard bfd := by
      intro w hw
      obtain ⟨r', hr', he⟩ := List.mem_filterMap.mp hw
      exact hwords w (List.mem_filterMap.mpr ⟨r', List.mem_cons_of_mem _ hr', he⟩)
    obtain ⟨t, ht, hc, hd⟩ := serve_keeps m r hs hconn hword
    obtain ⟨u, hu, hc', hd'⟩ := foldl_keeps requests ht (hc ▸ hconn) hrest
    exact ⟨u, hu, hc'.trans hc, hd'.trans hd⟩

/-- Sessions with a connection have discriminators other than zero, those of different endpoints different ones, and
each keeps its discriminator and its connection until its endpoint is subscribed anew or unsubscribed. -/
theorem serveAll_discriminators (requests : List Request) (hlen : requests.countP Request.isRecieve < 2 ^ 31) :
    (∀ a b : Endpoint, ∀ s t, a ≠ b → (serveAll requests).findUnsafe a.address a.port = some s →
      (serveAll requests).findUnsafe b.address b.port = some t → s.conn.isSome → t.conn.isSome →
      s.localDiscr ≠ t.localDiscr) ∧
    (∀ (a : Endpoint) s, (serveAll requests).findUnsafe a.address a.port = some s → s.conn.isSome → s.localDiscr ≠ 0) ∧
    ∀ before after, requests = before ++ after →
      ∀ (a : Endpoint) s, (serveAll before).findUnsafe a.address a.port = some s → s.conn.isSome →
        (∀ w ∈ words a after, ∃ bfd, w = .heard bfd) →
        ∃ t, (serveAll requests).findUnsafe a.address a.port = some t ∧ t.conn = s.conn ∧
          t.localDiscr = s.localDiscr := by
  have hstart : Numbered 0 new :=
    ⟨Nat.le_refl _, fun k s hs => (by cases hs), fun k k' s s' _ hs => (by cases hs)⟩
  have h := foldl_numbered requests hstart (by rwa [Nat.zero_add])
  refine ⟨fun a b s t hne hs ht hconn hconn' => ?_, fun a s hs hconn => ?_, fun before after heq a s hs hconn hw => ?_⟩
  · exact h.unique a.key b.key s t (fun he => hne (Endpoint.key_injective he)) hs ht hconn hconn'
  · obtain ⟨conn, hc⟩ := Option.isSome_iff_exists.mp hconn
    exact ((serveAll_obeys requests).kept a s hs |>.connected conn hc).2.1
  · subst heq
    rw [serveAll, List.foldl_append]
    exact foldl_keeps after hs hconn hw

/-- Two peers that say Down, and an endpoint that is subscribed. -/
def twoPeers : List Request :=
  [.recieve ⟨0x7f000001, 3784⟩ (downPacket false) 5, .recieve ⟨0x7f000002, 3784⟩ (downPacket false) 6,
    .subscribe 0x7f000003 3784]

theorem serveAll_discriminators_twoPeers :
    ((serveAll twoPeers).findUnsafe 0x7f000001 3784).map (fun s => s.conn.isSome) = some true ∧
    ((serveAll twoPeers).findUnsafe 0x7f000002 3784).map (fun s => s.conn.isSome) = some true ∧
    ∀ s t, (serveAll twoPeers).findUnsafe 0x7f000001 3784 = some s →
      (serveAll twoPeers).findUnsafe 0x7f000002 3784 = some t → s.localDiscr ≠ t.localDiscr := by
  have ha : ((serveAll twoPeers).findUnsafe 0x7f000001 3784).map (fun s => s.conn.isSome) = some true := by
    decide +kernel
  have hb : ((serveAll twoPeers).findUnsafe 0x7f000002 3784).map (fun s => s.conn.isSome) = some true := by
    decide +kernel
  refine ⟨ha, hb, fun s t hs ht => ?_⟩
  rw [hs] at ha
  rw [ht] at hb
  exact (serveAll_discriminators twoPeers (by decide)).1 ⟨0x7f000001, 3784⟩ ⟨0x7f000002, 3784⟩ s t (by decide) hs ht
    (Option.some.inj ha) (Option.some.inj hb)

end BfdSessionManager

end NetworkBfd.BfddCpp
