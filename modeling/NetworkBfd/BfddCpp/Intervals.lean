import NetworkBfd.Bfdd.Packets
import NetworkBfd.BfddCpp.Agree

/-!
# Intervals on the wire

`iterate_on_session` sends intervals in network order, and neither daemon turns them back. What is recorded is therefore
the interval with its bytes swapped, and the smallest interval received is always the zero of a new session
(`intervals_iff`).
-/

namespace NetworkBfd

open Lib Smmr Bfdd BfddCpp

namespace Bfdd

section Ok

variable {d : Daemon} {R : Registry} {cAddr : SockaddrIn} {cAddrlen : BitVec 32} {bfd : Bfd} {curms : BitVec 64}
  {results : List Int} {sess t : BfdSess}

theorem insertLogged_ok (h : Represents d.kv R) (hlen : cAddrlen ≠ 0)
    (hok : (insertLogged sess cAddr cAddrlen d).1 = .ok) :
    (insertLogged sess cAddr cAddrlen d).2.kv.findSession cAddr cAddrlen = some sess := by
  obtain ⟨ret, kv, R', hrun, hR', hput⟩ := insertSession_represents h ⟨sess, cAddr, cAddrlen⟩
  simp only at hrun hput
  simp only [insertLogged, hrun] at hok ⊢
  rw [Kv.findSession_eq hR' cAddr hlen, hput, if_pos ⟨rfl, hok⟩]

/-- What is found after an insertion is the session that was inserted, or the one before. -/
theorem insertLogged_find (h : Represents d.kv R) (hlen : cAddrlen ≠ 0) (hnone : R.sess (keyt cAddr) = none)
    (ht : (insertLogged sess cAddr cAddrlen d).2.kv.findSession cAddr cAddrlen = some t) : sess = t := by
  obtain ⟨R', stored, hR', hsess⟩ := insertLogged_step h sess cAddr cAddrlen
  rw [Kv.findSession_eq hR' cAddr hlen, hsess] at ht
  cases stored with
  | true =>
    rw [if_pos rfl, Function.update_self] at ht
    exact Option.some.inj ht
  | false =>
    rw [if_neg Bool.false_ne_true, hnone] at ht
    cases ht

theorem recvOnSession_ok (h : Represents d.kv R) (hlen : cAddrlen ≠ 0)
    (hok : (recvOnSession sess cAddr cAddrlen bfd curms results d).1 = .ok) :
    (recvOnSession sess cAddr cAddrlen bfd curms results d).2.kv.findSession cAddr cAddrlen =
      some (afterPacket bfd curms d.localDiscriminatorIncr sess) := by
  simp only [recvOnSession] at hok ⊢
  split at hok
  · cases hok
  · rename_i hstate
    rw [if_neg hstate]
    refine (@insertLogged_ok _ R _ _ _ h hlen hok).trans ?_
    rw [answerPoll_fst]
    rfl

/-- A packet that `recv_bfd_event` takes leaves the next session of its sender. -/
theorem recvAccepted_ok {stack : BfdSess} (h : Represents d.kv R) (hlen : cAddrlen ≠ 0)
    (hok : (recvAccepted cAddr cAddrlen bfd stack curms results d).1 = .ok)
    (ht : (recvAccepted cAddr cAddrlen bfd stack curms results d).2.kv.findSession cAddr cAddrlen = some t) :
    nextSession bfd cAddr cAddrlen stack curms d.localDiscriminatorIncr (R.sess (keyt cAddr)) = some t := by
  simp only [recvAccepted, Kv.findSession_eq h cAddr hlen] at hok ht
  cases hs : R.sess (keyt cAddr) with
  | some sess =>
    simp only [hs] at hok ht
    exact (recvOnSession_ok h hlen hok).symm.trans ht
  | none =>
    simp only [hs, nextSession] at hok ht ⊢
    by_cases hyour : bfd.yourDiscr ≠ 0
    · simp only [if_pos hyour] at ht ⊢
      exact congrArg some (insertLogged_find h hlen hs ht)
    · simp only [if_neg hyour] at hok ht ⊢
      by_cases hdown : bfd.state = BitVec.ofNat 2 bfdstateDown
      · simp only [if_pos hdown] at hok ht ⊢
        obtain ⟨R₁, stored, hR₁, hsess₁⟩ := insertLogged_step h (initSession stack cAddr cAddrlen) cAddr cAddrlen
        obtain ⟨-, -, hincr⟩ := insertLogged_log (initSession stack cAddr cAddrlen) cAddr cAddrlen d
        cases hfind : (insertLogged (initSession stack cAddr cAddrlen) cAddr cAddrlen d).2.kv.findSession cAddr
            cAddrlen with
        | none =>
          simp only [hfind] at hok
          cases hok
        | some sess =>
          simp only [hfind] at hok ht
          rw [insertLogged_find h hlen hs hfind, ← hincr]
          exact (recvOnSession_ok hR₁ hlen hok).symm.trans ht
      · simp only [if_neg hdown] at hok
        cases hok

theorem recvBfdEvent_ok {pkt : List Byte} {stack : BfdSess} (h : Represents d.kv R) (hlen : cAddrlen ≠ 0)
    (hok : (recvBfdEvent cAddr cAddrlen pkt stack curms results d).1 = .ok)
    (ht : (recvBfdEvent cAddr cAddrlen pkt stack curms results d).2.kv.findSession cAddr cAddrlen = some t) :
    nextSession (Bfd.ofPacket pkt) cAddr cAddrlen stack curms d.localDiscriminatorIncr (R.sess (keyt cAddr)) =
      some t := by
  simp only [recvBfdEvent] at hok ht
  generalize Bfd.ofPacket pkt = bfd at hok ht ⊢
  split at hok
  · rename_i haccept
    rw [if_pos haccept] at ht
    exact @recvAccepted_ok ⟨d.kv, d.localDiscriminatorIncr, .accepted (keyt cAddr) bfd :: d.log⟩ R cAddr cAddrlen bfd
      curms results t stack h hlen hok ht
  · cases hok

/-- What the next session has recorded of the packet. -/
theorem nextSession_interval {stack : BfdSess} {incr : BitVec 64} {before : Option BfdSess}
    (h : nextSession bfd cAddr cAddrlen stack curms incr before = some t) :
    t.remoteMinRxInterval = if before = none ∧ bfd.yourDiscr ≠ 0 then 0 else bfd.minRxInt := by
  have hafter : ∀ s, (afterPacket bfd curms incr s).remoteMinRxInterval = bfd.minRxInt := by
    intro s
    obtain ⟨on, discr, state, diag, poll, hframe⟩ := afterPacket_frame bfd curms incr s
    rw [hframe]
    rfl
  cases before with
  | some s =>
    obtain rfl := Option.some.inj h
    rw [if_neg fun hn => by cases hn.1]
    exact hafter s
  | none =>
    unfold nextSession at h
    dsimp only at h
    split_ifs at h with hyour hdown
    · obtain rfl := Option.some.inj h
      rw [if_pos ⟨rfl, hyour⟩]
      rfl
    · obtain rfl := Option.some.inj h
      rw [if_neg fun hn => hyour hn.2]
      exact hafter _

end Ok

/-- The interval a packet announces, in the order of the host. -/
def announced (bfd : Bfd) : BitVec 32 := htonl bfd.minRxInt

/-- Zero is the least interval exactly where it was announced. -/
theorem min_announced_iff {ps : List Bfd} :
    (ps.map fun p => (announced p).toNat).min? = some 0 ↔ ∃ p ∈ ps, announced p = 0 := by
  rw [List.min?_eq_some_iff]
  constructor
  · rintro ⟨hmem, -⟩
    obtain ⟨p, hp, he⟩ := List.mem_map.mp hmem
    exact ⟨p, hp, BitVec.eq_of_toNat_eq he⟩
  · rintro ⟨p, hp, he⟩
    refine ⟨List.mem_map.mpr ⟨p, hp, ?_⟩, fun _ _ => Nat.zero_le _⟩
    rw [he]
    rfl

/-- The packets of a peer that passed the checks. -/
def packetsFrom (peer : SessKey) (log : List Event) : List Bfd :=
  ((arrivals log).filter fun p => p.1 = peer).map Prod.snd

end Bfdd

namespace BfddCpp

namespace BfdSessionManager

variable {endpR : Endpoint} {bfd : Bfd} {curms incr : BitVec 64} {s t : BfdSession}

theorem afterPacket_interval : (afterPacket endpR bfd curms incr s).remoteMinRxInterval = bfd.minRxInt := by
  obtain ⟨conn, discr, state, diag, poll, hframe⟩ := afterPacket_frame endpR bfd curms incr s
  rw [hframe]
  rfl

/-- The minimum with zero. -/
theorem afterPacket_received (h : s.receivedMinRxInterval = 0) :
    (afterPacket endpR bfd curms incr s).receivedMinRxInterval = 0 := by
  obtain ⟨conn, discr, state, diag, poll, hframe⟩ := afterPacket_frame endpR bfd curms incr s
  rw [hframe]
  simp only [recordPacket, h]
  split
  · rfl
  · rename_i hle
    exact BitVec.eq_of_toNat_eq (Nat.eq_zero_of_not_pos hle)

theorem nextSession_interval {before : Option BfdSession} (h : nextSession endpR bfd curms incr before = some t) :
    t.remoteMinRxInterval = if before = none ∧ bfd.yourDiscr ≠ 0 then 0 else bfd.minRxInt := by
  cases before with
  | some s =>
    obtain rfl := Option.some.inj h
    rw [if_neg fun hn => by cases hn.1]
    exact afterPacket_interval
  | none =>
    unfold nextSession at h
    dsimp only at h
    split_ifs at h with hyour hdown
    · obtain rfl := Option.some.inj h
      rw [if_pos ⟨rfl, hyour⟩]
      rfl
    · obtain rfl := Option.some.inj h
      rw [if_neg fun hn => hyour hn.2]
      exact afterPacket_interval

theorem nextSession_received {before : Option BfdSession} (hb : ∀ s, before = some s → s.receivedMinRxInterval = 0)
    (h : nextSession endpR bfd curms incr before = some t) : t.receivedMinRxInterval = 0 := by
  cases before with
  | some s =>
    obtain rfl := Option.some.inj h
    exact afterPacket_received (hb s rfl)
  | none =>
    unfold nextSession at h
    dsimp only at h
    split_ifs at h with hyour hdown
    · obtain rfl := Option.some.inj h
      rfl
    · obtain rfl := Option.some.inj h
      exact afterPacket_received rfl

end BfdSessionManager

namespace Datagram

/-- No session has ever received an interval. -/
theorem deliver_received {m : BfdSessionManager} (h : ∀ k s, m.bfdSessions k = some s → s.receivedMinRxInterval = 0)
    (p : Datagram) : ∀ k s, (deliver m p).bfdSessions k = some s → s.receivedMinRxInterval = 0 := by
  intro k s hs
  unfold deliver recieve at hs
  dsimp only at hs
  split at hs
  · rw [BfdSessionManager.onBfdRecieved_bfdSessions] at hs
    by_cases hk : k = makeUll p.endpR.address p.endpR.port
    · subst hk
      rw [Function.update_self] at hs
      exact BfdSessionManager.nextSession_received (fun s hs => h _ s hs) hs
    · rw [Function.update_of_ne hk] at hs
      exact h k s hs
  · exact h k s hs

theorem foldl_received : ∀ (ps : List Datagram) {m : BfdSessionManager},
    (∀ k s, m.bfdSessions k = some s → s.receivedMinRxInterval = 0) →
    ∀ k s, (ps.foldl deliver m).bfdSessions k = some s → s.receivedMinRxInterval = 0
  | [], _, h => h
  | p :: ps, _, h => foldl_received ps (deliver_received h p)

/-- The packets from a peer that passed the checks. -/
def packetsFrom (endp : Endpoint) (ps : List Datagram) : List Bfd :=
  (ps.filter fun p => p.endpR = endp ∧ recieveAccepts p.pkt.length (Bfd.ofPacket p.pkt) = true).map fun p =>
    Bfd.ofPacket p.pkt

end Datagram

end BfddCpp

/-- A daemon that has a session for the sender, or is not told of one, records the interval exactly if its bytes read
the same both ways, and otherwise exactly if it is zero. The least interval received is that of the packets, whichever
of them are counted, exactly if one of them announced zero. -/
theorem intervals_iff (actions : List Action) (ps : List Datagram) :
    (∀ s bfd, outgoing s = some bfd →
      (∀ cAddr stack curms results t,
        (recvBfdEvent cAddr sizeofSockaddrIn bfd.toPacket stack curms results (Daemon.run actions)).1 = .ok →
        (recvBfdEvent cAddr sizeofSockaddrIn bfd.toPacket stack curms results (Daemon.run actions)).2.kv.findSession
          cAddr sizeofSockaddrIn = some t →
        (t.remoteMinRxInterval = s.requiredMinRxInterval ↔
          if (Daemon.run actions).kv.findSession cAddr sizeofSockaddrIn = none ∧ bfd.yourDiscr ≠ 0 then
            s.requiredMinRxInterval = 0
          else htonl s.requiredMinRxInterval = s.requiredMinRxInterval)) ∧
      ∀ endpR curms t, recieveAccepts bfd.toPacket.length (Bfd.ofPacket bfd.toPacket) = true →
        (recieve endpR bfd.toPacket curms (Datagram.runCpp ps)).findUnsafe endpR.address endpR.port = some t →
        (t.remoteMinRxInterval = s.requiredMinRxInterval ↔
          if (Datagram.runCpp ps).findUnsafe endpR.address endpR.port = none ∧ bfd.yourDiscr ≠ 0 then
            s.requiredMinRxInterval = 0
          else htonl s.requiredMinRxInterval = s.requiredMinRxInterval)) ∧
    (∀ cAddr t (qs : List Bfd), (Daemon.run actions).kv.findSession cAddr sizeofSockaddrIn = some t →
      qs.Sublist (Bfdd.packetsFrom (keyt cAddr) (Daemon.run actions).log) →
      ((qs.map fun p => (announced p).toNat).min? = some t.receivedMinRxInterval.toNat ↔ ∃ p ∈ qs, announced p = 0)) ∧
    ∀ endp t (qs : List Bfd), (Datagram.runCpp ps).findUnsafe endp.address endp.port = some t →
      qs.Sublist (Datagram.packetsFrom endp ps) →
      ((qs.map fun p => (announced p).toNat).min? = some t.receivedMinRxInterval.toNat ↔
        ∃ p ∈ qs, announced p = 0) := by
  refine ⟨fun s bfd hout => ⟨fun cAddr stack curms results t hok ht => ?_, fun endpR curms t hok ht => ?_⟩,
    fun cAddr t qs ht _ => ?_, fun endp t qs ht _ => ?_⟩
  · obtain ⟨R, h⟩ := Daemon.run_sound actions
    have hnext := recvBfdEvent_ok h.table (by decide) hok ht
    rw [Bfd.ofPacket_toPacket] at hnext
    rw [Kv.findSession_eq h.table cAddr (by decide), Bfdd.nextSession_interval hnext, (outgoing_eq hout).1]
    split
    · exact eq_comm
    · exact Iff.rfl
  · have hnext : (recieve endpR bfd.toPacket curms (Datagram.runCpp ps)).findUnsafe endpR.address endpR.port = _ :=
      (congrFun ((congrArg BfdSessionManager.bfdSessions (if_pos hok)).trans
        (BfdSessionManager.onBfdRecieved_bfdSessions endpR _ curms (Datagram.runCpp ps))) _).trans
        (Function.update_self _ _ _)
    rw [ht, Bfd.ofPacket_toPacket] at hnext
    rw [BfdSessionManager.nextSession_interval hnext.symm, (outgoing_eq hout).1]
    split
    · exact eq_comm
    · exact Iff.rfl
  · obtain ⟨R, h⟩ := Daemon.run_sound actions
    rw [Kv.findSession_eq h.table cAddr (by decide)] at ht
    rw [(h.sound _ t ht).received]
    exact min_announced_iff
  · have hzero := Datagram.foldl_received ps (fun k s hs => (by cases hs)) _ t ht
    rw [hzero]
    exact min_announced_iff

/-- A session in state Init that wants a packet each second. -/
def speaker : BfdSess :=
  { (default : BfdSess) with
    sessionState := BitVec.ofNat 32 bfdstateInit
    localDiscr := 7
    remoteDiscr := 0x01000000
    desiredMinTxInterval := bfddfltDesiredmintx
    requiredMinRxInterval := bfddfltRequiredminrx
    detectMult := bfddfltDetectmult
    attached := bfdOn }

/-- A daemon that has heard Down from that peer. -/
def listener : List Action :=
  [.recv ⟨2, 3784, 0x0100007f, 0⟩ (ctrlPacket { speaker with
    sessionState := BitVec.ofNat 32 bfdstateDown, remoteDiscr := 0 }).toPacket default 5 []]

/-- The listener takes the packet of the speaker, and records neither its interval nor the least one. -/
theorem intervals_swapped :
    outgoing speaker = some (ctrlPacket speaker) ∧
    (recvBfdEvent ⟨2, 3784, 0x0100007f, 0⟩ sizeofSockaddrIn (ctrlPacket speaker).toPacket default 6 []
      (Daemon.run listener)).1 = .ok ∧
    ∃ t, (recvBfdEvent ⟨2, 3784, 0x0100007f, 0⟩ sizeofSockaddrIn (ctrlPacket speaker).toPacket default 6 []
        (Daemon.run listener)).2.kv.findSession ⟨2, 3784, 0x0100007f, 0⟩ sizeofSockaddrIn = some t ∧
      t.remoteMinRxInterval ≠ speaker.requiredMinRxInterval ∧
      ((Bfdd.packetsFrom ⟨0x0100007f, 3784, 0⟩ (recvBfdEvent ⟨2, 3784, 0x0100007f, 0⟩ sizeofSockaddrIn
        (ctrlPacket speaker).toPacket default 6 [] (Daemon.run listener)).2.log).map fun p =>
          (announced p).toNat).min? ≠ some t.receivedMinRxInterval.toNat := by
  have hfind : ((recvBfdEvent ⟨2, 3784, 0x0100007f, 0⟩ sizeofSockaddrIn (ctrlPacket speaker).toPacket default 6 []
      (Daemon.run listener)).2.kv.findSession ⟨2, 3784, 0x0100007f, 0⟩ sizeofSockaddrIn).map
        (fun t => (t.remoteMinRxInterval, t.receivedMinRxInterval)) = some (0x40420f00, 0) := by decide +kernel
  have hmin : ((Bfdd.packetsFrom ⟨0x0100007f, 3784, 0⟩ (recvBfdEvent ⟨2, 3784, 0x0100007f, 0⟩ sizeofSockaddrIn
      (ctrlPacket speaker).toPacket default 6 [] (Daemon.run listener)).2.log).map fun p =>
        (announced p).toNat).min? = some 1000000 := by decide +kernel
  obtain ⟨t, ht, he⟩ := Option.map_eq_some_iff.mp hfind
  obtain ⟨h1, h2⟩ := Prod.mk.inj he
  refine ⟨by decide +kernel, by decide +kernel, t, ht, ?_, ?_⟩
  · rw [h1]
    decide
  · rw [hmin, h2]
    decide

end NetworkBfd
