import NetworkBfd.Bfdd.Effect

/-!
# What one event does

Whether insertions succeed or not, an accepted packet does one of five things to the session of its sender and touches
no other (`Outcome`, `recvBfdEvent_step`), and a tick sends at most one packet for each stored session
(`sendBfdEvent_step`). `sents` and `arrivals` are the packets of the log.
-/

namespace NetworkBfd.Bfdd

open Lib Smmr

/-- A packet that went to `sendto`. -/
def Event.sent? : Event → Option (SessKey × SockaddrIn × Bfd)
  | .sent peer dest bfd => some (peer, dest, bfd)
  | _ => none

/-- A packet that passed the checks. -/
def Event.arrival? : Event → Option (SessKey × Bfd)
  | .accepted peer bfd => some (peer, bfd)
  | _ => none

def sents (log : List Event) : List (SessKey × SockaddrIn × Bfd) := log.filterMap Event.sent?

def arrivals (log : List Event) : List (SessKey × Bfd) := log.filterMap Event.arrival?

section Log

variable {log : List Event} {peer : SessKey} {dest : SockaddrIn} {bfd : Bfd} {ret : Ret}

@[simp] theorem sents_accepted : sents (.accepted peer bfd :: log) = sents log := rfl

@[simp] theorem sents_inserted : sents (.inserted peer ret :: log) = sents log := rfl

@[simp] theorem sents_sent : sents (.sent peer dest bfd :: log) = (peer, dest, bfd) :: sents log := rfl

@[simp] theorem sents_started {state : BitVec 32} : sents (.started peer state :: log) = sents log := rfl

@[simp] theorem arrivals_accepted : arrivals (.accepted peer bfd :: log) = (peer, bfd) :: arrivals log := rfl

@[simp] theorem arrivals_started {state : BitVec 32} : arrivals (.started peer state :: log) = arrivals log := rfl

@[simp] theorem arrivals_inserted : arrivals (.inserted peer ret :: log) = arrivals log := rfl

@[simp] theorem arrivals_sent : arrivals (.sent peer dest bfd :: log) = arrivals log := rfl

end Log

/-! ## Sending -/

/-- The packet that `iterate_on_session` sends for a session, if it sends one. -/
def outgoing (psess : BfdSess) : Option Bfd :=
  let bfd := ctrlPacket psess
  if psess.attached = bfdOff then none
  else if (bfd.yourDiscr = 0 ∨ bfd.myDiscr = 0) ∧ bfd.state ≠ BitVec.ofNat 2 bfdstateDown then none
  else some bfd

/-- The same, as it stands in the log. -/
def transmission (peer : SessKey) (psess : BfdSess) : List (SessKey × SockaddrIn × Bfd) :=
  (outgoing psess).toList.map fun bfd => (peer, psess.clientAddr, bfd)

theorem mem_transmission {peer k : SessKey} {psess : BfdSess} {dest : SockaddrIn} {bfd : Bfd} :
    (k, dest, bfd) ∈ transmission peer psess ↔ k = peer ∧ dest = psess.clientAddr ∧ outgoing psess = some bfd := by
  unfold transmission
  rw [List.mem_map]
  constructor
  · rintro ⟨b, hb, heq⟩
    obtain ⟨rfl, hrest⟩ := Prod.mk.inj heq
    obtain ⟨rfl, rfl⟩ := Prod.mk.inj hrest
    exact ⟨rfl, rfl, Option.mem_toList.mp hb⟩
  · rintro ⟨rfl, rfl, hb⟩
    exact ⟨bfd, Option.mem_toList.mpr hb, rfl⟩

theorem outgoing_eq {psess : BfdSess} {bfd : Bfd} (h : outgoing psess = some bfd) :
    bfd = ctrlPacket psess ∧ psess.attached ≠ bfdOff := by
  unfold outgoing at h
  dsimp only at h
  split_ifs at h with h1 h2
  exact ⟨(Option.some.inj h).symm, h1⟩

theorem transmission_off {peer : SessKey} {psess : BfdSess} (h : psess.attached = bfdOff) :
    transmission peer psess = [] := by
  have hnone : outgoing psess = none := if_pos h
  rw [transmission, hnone]
  rfl

theorem iterateOnSession_step (peer : SessKey) (psess : BfdSess) (w : Wire) :
    sents (iterateOnSession peer psess w).2.log = transmission peer psess ++ sents w.log ∧
      arrivals (iterateOnSession peer psess w).2.log = arrivals w.log := by
  unfold iterateOnSession transmission outgoing
  dsimp only
  split
  · exact ⟨rfl, rfl⟩
  · split
    · exact ⟨rfl, rfl⟩
    · split <;> exact ⟨rfl, rfl⟩

/-! ## A packet -/

/-- What an accepted packet makes of the session of its sender and of the counter, and the attached sessions that
`iterate_on_session` is called on. -/
inductive Outcome (bfd : Bfd) (cAddr : SockaddrIn) (cAddrlen : BitVec 32) (stack : BfdSess) (curms incr : BitVec 64) :
    Option BfdSess → Option BfdSess → BitVec 64 → List BfdSess → Prop
  /-- there is no session, and none is stored -/
  | nothing : Outcome bfd cAddr cAddrlen stack curms incr none none incr []
  /-- a session that is not attached yet -/
  | down (hyour : bfd.yourDiscr ≠ 0) :
    Outcome bfd cAddr cAddrlen stack curms incr none (some (downSession stack cAddr cAddrlen bfd)) incr []
  /-- the session was shut down from this side -/
  | admin (sess : BfdSess) (hstate : sess.sessionState = BitVec.ofNat 32 bfdstateAdmindown) :
    Outcome bfd cAddr cAddrlen stack curms incr (some sess) (some sess) (attach sess incr).2 []
  /-- the session takes the packet, and it is stored or not -/
  | known (sess : BfdSess) (stored : Bool) :
    Outcome bfd cAddr cAddrlen stack curms incr (some sess)
      (some (if stored then afterPacket bfd curms incr sess else sess)) (attach sess incr).2
      (if bfd.poll = 1 then [afterPacket bfd curms incr sess] else [])
  /-- a new session takes the packet, and it is stored or not -/
  | new (hyour : bfd.yourDiscr = 0) (hdown : bfd.state = BitVec.ofNat 2 bfdstateDown) (stored : Bool) :
    Outcome bfd cAddr cAddrlen stack curms incr none
      (some (if stored then afterPacket bfd curms incr (initSession stack cAddr cAddrlen)
        else initSession stack cAddr cAddrlen)) (attach (initSession stack cAddr cAddrlen) incr).2
      (if bfd.poll = 1 then [afterPacket bfd curms incr (initSession stack cAddr cAddrlen)] else [])

section Recv

variable {d : Daemon} {R : Registry} {cAddr : SockaddrIn} {cAddrlen : BitVec 32} {bfd : Bfd} {curms : BitVec 64}
  {results : List Int} {sess : BfdSess}

/-- An insertion, whatever it returned. -/
theorem insertLogged_step (h : Represents d.kv R) (sess : BfdSess) (cAddr : SockaddrIn) (cAddrlen : BitVec 32) :
    ∃ R' stored, Represents (insertLogged sess cAddr cAddrlen d).2.kv R' ∧
      R'.sess = if stored = true then Function.update R.sess (keyt cAddr) (some sess) else R.sess := by
  obtain ⟨ret, kv, R', hrun, hR', hput⟩ := insertSession_represents h ⟨sess, cAddr, cAddrlen⟩
  simp only at hrun hput
  simp only [insertLogged, hrun]
  refine ⟨R', decide (ret = .ok), hR', funext fun k => ?_⟩
  rw [hput]
  by_cases hret : ret = .ok
  · by_cases hk : keyt cAddr = k
    · subst hk
      simp [hret]
    · rw [if_neg fun hn => hk hn.1, decide_eq_true hret, if_pos rfl, Function.update_of_ne fun he => hk he.symm]
  · simp [hret]

theorem insertLogged_log (sess : BfdSess) (cAddr : SockaddrIn) (cAddrlen : BitVec 32) (d : Daemon) :
    sents (insertLogged sess cAddr cAddrlen d).2.log = sents d.log ∧
      arrivals (insertLogged sess cAddr cAddrlen d).2.log = arrivals d.log ∧
      (insertLogged sess cAddr cAddrlen d).2.localDiscriminatorIncr = d.localDiscriminatorIncr := ⟨rfl, rfl, rfl⟩

theorem answerPoll_step (peer : SessKey) (bfd : Bfd) (sess : BfdSess) (w : Wire) :
    sents (answerPoll peer bfd sess w).2.log =
        (if bfd.poll = 1 then [(answerPoll peer bfd sess w).1] else []).flatMap (transmission peer) ++ sents w.log ∧
      arrivals (answerPoll peer bfd sess w).2.log = arrivals w.log := by
  unfold answerPoll
  split
  · obtain ⟨h1, h2⟩ := iterateOnSession_step peer { sess with pollbitOn := bfdOn } w
    simp only [List.flatMap_cons, List.flatMap_nil, List.append_nil]
    exact ⟨h1, h2⟩
  · exact ⟨rfl, rfl⟩

theorem recvOnSession_step (h : Represents d.kv R) (hstate : sess.sessionState ≠ BitVec.ofNat 32 bfdstateAdmindown) :
    ∃ R' stored, Represents (recvOnSession sess cAddr cAddrlen bfd curms results d).2.kv R' ∧
      R'.sess = (if stored = true then Function.update R.sess (keyt cAddr)
        (some (afterPacket bfd curms d.localDiscriminatorIncr sess)) else R.sess) ∧
      (recvOnSession sess cAddr cAddrlen bfd curms results d).2.localDiscriminatorIncr =
        (attach sess d.localDiscriminatorIncr).2 ∧
      sents (recvOnSession sess cAddr cAddrlen bfd curms results d).2.log =
        (if bfd.poll = 1 then [afterPacket bfd curms d.localDiscriminatorIncr sess] else []).flatMap
          (transmission (keyt cAddr)) ++ sents d.log ∧
      arrivals (recvOnSession sess cAddr cAddrlen bfd curms results d).2.log = arrivals d.log := by
  have hstate' : (recordPacket bfd curms (attach sess d.localDiscriminatorIncr).1).sessionState ≠
      BitVec.ofNat 32 bfdstateAdmindown := by
    simpa only [recordPacket, attach_states] using hstate
  simp only [recvOnSession]
  rw [if_neg hstate']
  generalize hlog : Event.started (keyt cAddr) (recordPacket bfd curms (attach sess
    d.localDiscriminatorIncr).1).sessionState :: d.log = log
  have hafter : (answerPoll (keyt cAddr) bfd (stateMachine (recordPacket bfd curms
      (attach sess d.localDiscriminatorIncr).1)) ⟨results, log⟩).1 =
      afterPacket bfd curms d.localDiscriminatorIncr sess := by
    rw [answerPoll_fst]
    rfl
  obtain ⟨hsents, harrivals⟩ := answerPoll_step (keyt cAddr) bfd (stateMachine (recordPacket bfd curms
    (attach sess d.localDiscriminatorIncr).1)) ⟨results, log⟩
  rw [hafter] at hsents
  rw [hafter]
  obtain ⟨R', stored, hR', hsess⟩ := @insertLogged_step
    ⟨d.kv, (attach sess d.localDiscriminatorIncr).2, (answerPoll (keyt cAddr) bfd (stateMachine (recordPacket bfd curms
      (attach sess d.localDiscriminatorIncr).1)) ⟨results, log⟩).2.log⟩ R h
    (afterPacket bfd curms d.localDiscriminatorIncr sess) cAddr cAddrlen
  subst hlog
  exact ⟨R', stored, hR', hsess, rfl, hsents, harrivals⟩

theorem recvAccepted_step {stack : BfdSess} (h : Represents d.kv R) (hlen : cAddrlen ≠ 0) :
    ∃ R' called, Represents (recvAccepted cAddr cAddrlen bfd stack curms results d).2.kv R' ∧
      (∀ k, k ≠ keyt cAddr → R'.sess k = R.sess k) ∧
      Outcome bfd cAddr cAddrlen stack curms d.localDiscriminatorIncr (R.sess (keyt cAddr)) (R'.sess (keyt cAddr))
        (recvAccepted cAddr cAddrlen bfd stack curms results d).2.localDiscriminatorIncr called ∧
      sents (recvAccepted cAddr cAddrlen bfd stack curms results d).2.log =
        called.flatMap (transmission (keyt cAddr)) ++ sents d.log ∧
      arrivals (recvAccepted cAddr cAddrlen bfd stack curms results d).2.log = arrivals d.log := by
  simp only [recvAccepted, Kv.findSession_eq h cAddr hlen]
  cases hs : R.sess (keyt cAddr) with
  | some sess =>
    dsimp only
    by_cases hstate : sess.sessionState = BitVec.ofNat 32 bfdstateAdmindown
    · have hstate' : (recordPacket bfd curms (attach sess d.localDiscriminatorIncr).1).sessionState =
          BitVec.ofNat 32 bfdstateAdmindown := by
        simpa only [recordPacket, attach_states] using hstate
      simp only [recvOnSession]
      rw [if_pos hstate']
      refine ⟨R, [], h, fun _ _ => rfl, ?_, rfl, rfl⟩
      rw [hs]
      exact .admin sess hstate
    · obtain ⟨R', stored, hR', hsess, hincr, hsents, harrivals⟩ := @recvOnSession_step d R cAddr cAddrlen bfd curms
        results sess h hstate
      refine ⟨R', _, hR', fun k hk => ?_, ?_, hsents, harrivals⟩
      · rw [hsess]
        split
        · exact Function.update_of_ne hk _ _
        · rfl
      · rw [hincr, hsess]
        cases stored with
        | true =>
          rw [if_pos rfl, Function.update_self]
          exact .known sess true
        | false =>
          rw [if_neg Bool.false_ne_true, hs]
          exact .known sess false
  | none =>
    dsimp only
    by_cases hyour : bfd.yourDiscr ≠ 0
    · rw [if_pos hyour]
      obtain ⟨R', stored, hR', hsess⟩ := insertLogged_step h (downSession stack cAddr cAddrlen bfd) cAddr cAddrlen
      obtain ⟨hsents, harrivals⟩ := iterateOnSession_step (keyt cAddr) (downSession stack cAddr cAddrlen bfd)
        ⟨results, (insertLogged (downSession stack cAddr cAddrlen bfd) cAddr cAddrlen d).2.log⟩
      rw [transmission_off rfl] at hsents
      refine ⟨R', [], hR', fun k hk => ?_, ?_, hsents, harrivals⟩
      · rw [hsess]
        split
        · exact Function.update_of_ne hk _ _
        · rfl
      · rw [hsess]
        cases stored with
        | true =>
          rw [if_pos rfl, Function.update_self]
          exact .down hyour
        | false =>
          rw [if_neg Bool.false_ne_true, hs]
          exact .nothing
    · rw [if_neg hyour]
      by_cases hdown : bfd.state = BitVec.ofNat 2 bfdstateDown
      · rw [if_pos hdown]
        obtain ⟨R₁, stored₁, hR₁, hsess₁⟩ := insertLogged_step h (initSession stack cAddr cAddrlen) cAddr cAddrlen
        obtain ⟨hsents₁, harrivals₁, hincr₁⟩ := insertLogged_log (initSession stack cAddr cAddrlen) cAddr cAddrlen d
        generalize (insertLogged (initSession stack cAddr cAddrlen) cAddr cAddrlen d).2 = d₁ at *
        rw [Kv.findSession_eq hR₁ cAddr hlen]
        cases stored₁ with
        | false =>
          rw [if_neg Bool.false_ne_true] at hsess₁
          simp only [hsess₁, hs]
          refine ⟨R₁, [], hR₁, fun k _ => by rw [hsess₁], ?_, hsents₁, harrivals₁⟩
          rw [hsess₁, hs, hincr₁]
          exact .nothing
        | true =>
          rw [if_pos rfl] at hsess₁
          simp only [hsess₁, Function.update_self]
          obtain ⟨R₂, stored₂, hR₂, hsess₂, hincr₂, hsents₂, harrivals₂⟩ := @recvOnSession_step d₁ R₁ cAddr cAddrlen bfd
            curms results (initSession stack cAddr cAddrlen) hR₁ (by simp [initSession])
          rw [hincr₁] at hsess₂ hincr₂ hsents₂
          rw [hsess₁] at hsess₂
          rw [hsents₁] at hsents₂
          rw [harrivals₁] at harrivals₂
          refine ⟨R₂, _, hR₂, fun k hk => ?_, ?_, hsents₂, harrivals₂⟩
          · rw [hsess₂]
            split
            · rw [Function.update_of_ne hk, Function.update_of_ne hk]
            · rw [Function.update_of_ne hk]
          · rw [hincr₂, hsess₂]
            cases stored₂ with
            | true =>
              rw [if_pos rfl, Function.update_self]
              exact .new (not_not.mp hyour) hdown true
            | false =>
              rw [if_neg Bool.false_ne_true, Function.update_self]
              exact .new (not_not.mp hyour) hdown false
      · rw [if_neg hdown]
        refine ⟨R, [], h, fun _ _ => rfl, ?_, rfl, rfl⟩
        rw [hs]
        exact .nothing

/-- A packet that does not pass the checks changes nothing; one that does has an `Outcome`. -/
theorem recvBfdEvent_step {pkt : List Byte} {stack : BfdSess} (h : Represents d.kv R) (hlen : cAddrlen ≠ 0) :
    recvAccepts pkt.length (Bfd.ofPacket pkt) = false ∧
      (recvBfdEvent cAddr cAddrlen pkt stack curms results d).2 = d ∨
    recvAccepts pkt.length (Bfd.ofPacket pkt) = true ∧
    ∃ R' called, Represents (recvBfdEvent cAddr cAddrlen pkt stack curms results d).2.kv R' ∧
      (∀ k, k ≠ keyt cAddr → R'.sess k = R.sess k) ∧
      Outcome (Bfd.ofPacket pkt) cAddr cAddrlen stack curms d.localDiscriminatorIncr (R.sess (keyt cAddr))
        (R'.sess (keyt cAddr)) (recvBfdEvent cAddr cAddrlen pkt stack curms results d).2.localDiscriminatorIncr called ∧
      sents (recvBfdEvent cAddr cAddrlen pkt stack curms results d).2.log =
        called.flatMap (transmission (keyt cAddr)) ++ sents d.log ∧
      arrivals (recvBfdEvent cAddr cAddrlen pkt stack curms results d).2.log =
        (keyt cAddr, Bfd.ofPacket pkt) :: arrivals d.log := by
  simp only [recvBfdEvent]
  by_cases hok : recvAccepts pkt.length (Bfd.ofPacket pkt) = true
  · rw [if_pos hok]
    exact .inr ⟨hok, @recvAccepted_step ⟨d.kv, d.localDiscriminatorIncr, _⟩ R cAddr cAddrlen (Bfd.ofPacket pkt) curms
      results stack h hlen⟩
  · rw [if_neg hok]
    exact .inl ⟨Bool.eq_false_iff.mpr hok, rfl⟩

end Recv

/-! ## A tick -/

theorem sents_callAll (vs : List (SessKey × BfdSess)) : ∀ w : Wire,
    sents (callAll (fun p => iterateOnSession p.1 p.2) vs w).log =
        vs.reverse.flatMap (fun p => transmission p.1 p.2) ++ sents w.log ∧
      arrivals (callAll (fun p => iterateOnSession p.1 p.2) vs w).log = arrivals w.log := by
  induction vs with
  | nil => exact fun w => ⟨rfl, rfl⟩
  | cons p vs ih =>
    intro w
    obtain ⟨h1, h2⟩ := ih (iterateOnSession p.1 p.2 w).2
    obtain ⟨h3, h4⟩ := iterateOnSession_step p.1 p.2 w
    rw [callAll]
    refine ⟨?_, h2.trans h4⟩
    rw [h1, h3, List.reverse_cons, List.flatMap_append, List.flatMap_singleton, List.append_assoc]

/-- A tick sends for some of the stored sessions, once for each. -/
theorem sendBfdEvent_step {d : Daemon} {R : Registry} (h : Represents d.kv R) (results : List Int) :
    ∃ vs : List (SessKey × BfdSess), vs.Subperm R.entries ∧
      sents (sendBfdEvent results d).log = vs.reverse.flatMap (fun p => transmission p.1 p.2) ++ sents d.log ∧
      arrivals (sendBfdEvent results d).log = arrivals d.log := by
  obtain ⟨vs, hrun, hsub, -⟩ := iterateAllSession_visits h iterateOnSession ⟨results, d.log⟩
  obtain ⟨h1, h2⟩ := sents_callAll vs ⟨results, d.log⟩
  rw [← hrun] at h1 h2
  exact ⟨vs, hsub, h1, h2⟩

end NetworkBfd.Bfdd
