import NetworkBfd.Bfdd.Handshake

/-!
# What a packet does to the table

As long as insertions succeed, an accepted packet changes the session of its sender alone, to `nextSession`
(`recvBfdEvent_effect`).
-/

namespace NetworkBfd.Bfdd

open Lib Smmr

/-- A session after a packet of its peer. -/
def afterPacket (bfd : Bfd) (curms : BitVec 64) (incr : BitVec 64) (sess : BfdSess) : BfdSess :=
  let sess := stateMachine (recordPacket bfd curms (attach sess incr).1)
  { sess with pollbitOn := if bfd.poll = 1 then bfdOn else sess.pollbitOn }

/-- The state machine leaves all fields but two. -/
theorem stateMachine_frame (s : BfdSess) :
    ∃ state diag, stateMachine s = { s with sessionState := state, localDiag := diag } := by
  unfold stateMachine
  split_ifs <;> exact ⟨_, _, rfl⟩

/-- A packet is recorded, and a few fields change besides. -/
theorem afterPacket_frame (bfd : Bfd) (curms incr : BitVec 64) (s : BfdSess) :
    ∃ on discr state diag poll, afterPacket bfd curms incr s =
      { recordPacket bfd curms s with
        attached := on, localDiscr := discr, sessionState := state, localDiag := diag, pollbitOn := poll } := by
  have hattach : ∃ on discr, (attach s incr).1 = { s with attached := on, localDiscr := discr } := by
    unfold attach
    split <;> exact ⟨_, _, rfl⟩
  obtain ⟨on, discr, hattach⟩ := hattach
  obtain ⟨state, diag, hmachine⟩ := stateMachine_frame (recordPacket bfd curms (attach s incr).1)
  refine ⟨on, discr, state, diag, if bfd.poll = 1 then bfdOn else s.pollbitOn, ?_⟩
  simp only [afterPacket]
  rw [hmachine, hattach]
  rfl

/-- The session of a peer after its packet, from the one before. -/
def nextSession (bfd : Bfd) (cAddr : SockaddrIn) (cAddrlen : BitVec 32) (stack : BfdSess) (curms : BitVec 64)
    (incr : BitVec 64) : Option BfdSess → Option BfdSess
  | some sess => some (afterPacket bfd curms incr sess)
  | none =>
    if bfd.yourDiscr ≠ 0 then some (downSession stack cAddr cAddrlen bfd)
    else if bfd.state = BitVec.ofNat 2 bfdstateDown then
      some (afterPacket bfd curms incr (initSession stack cAddr cAddrlen))
    else none

section

variable {d : Daemon} {R : Registry} {cAddr : SockaddrIn} {cAddrlen : BitVec 32} {bfd : Bfd} {curms : BitVec 64}
  {results : List Int} {sess : BfdSess}

theorem answerPoll_fst (peer : SessKey) (w : Wire) :
    (answerPoll peer bfd sess w).1 = { sess with pollbitOn := if bfd.poll = 1 then bfdOn else sess.pollbitOn } := by
  unfold answerPoll
  split <;> rfl

/-- A successful insertion. -/
theorem insertLogged_effect (hall : AllInserted (insertLogged sess cAddr cAddrlen d).2.log) (h : Represents d.kv R) :
    ∃ R', Represents (insertLogged sess cAddr cAddrlen d).2.kv R' ∧
      R'.sess = Function.update R.sess (keyt cAddr) (some sess) := by
  obtain ⟨ret, kv, R', hrun, hR', hput⟩ := insertSession_represents h ⟨sess, cAddr, cAddrlen⟩
  simp only at hrun hput
  simp only [insertLogged, hrun] at hall ⊢
  have hret : ret = .ok := by simpa [Event.failed] using hall _ (List.mem_cons_self ..)
  refine ⟨R', hR', funext fun k => ?_⟩
  rw [hput]
  by_cases hk : keyt cAddr = k
  · subst hk
    rw [if_pos ⟨rfl, hret⟩, Function.update_self]
  · rw [if_neg fun hn => hk hn.1, Function.update_of_ne fun he => hk he.symm]

theorem recvOnSession_effect (hall : AllInserted (recvOnSession sess cAddr cAddrlen bfd curms results d).2.log)
    (h : Represents d.kv R) (hstate : sess.sessionState ≠ BitVec.ofNat 32 bfdstateAdmindown) :
    ∃ R', Represents (recvOnSession sess cAddr cAddrlen bfd curms results d).2.kv R' ∧
      R'.sess = Function.update R.sess (keyt cAddr) (some (afterPacket bfd curms d.localDiscriminatorIncr sess)) := by
  simp only [recvOnSession] at hall ⊢
  have hstate' : (recordPacket bfd curms (attach sess d.localDiscriminatorIncr).1).sessionState ≠
      BitVec.ofNat 32 bfdstateAdmindown := by
    simpa only [recordPacket, attach_states] using hstate
  rw [if_neg hstate'] at hall ⊢
  obtain ⟨R', hR', hsess⟩ := insertLogged_effect hall h
  refine ⟨R', hR', ?_⟩
  rw [hsess, answerPoll_fst]
  rfl

theorem recvAccepted_effect {stack : BfdSess}
    (hall : AllInserted (recvAccepted cAddr cAddrlen bfd stack curms results d).2.log) (h : Represents d.kv R)
    (hlen : cAddrlen ≠ 0)
    (hstates : ∀ s, R.sess (keyt cAddr) = some s → s.sessionState ≠ BitVec.ofNat 32 bfdstateAdmindown) :
    ∃ R', Represents (recvAccepted cAddr cAddrlen bfd stack curms results d).2.kv R' ∧
      R'.sess = Function.update R.sess (keyt cAddr)
        (nextSession bfd cAddr cAddrlen stack curms d.localDiscriminatorIncr (R.sess (keyt cAddr))) := by
  simp only [recvAccepted, Kv.findSession_eq h cAddr hlen] at hall ⊢
  cases hs : R.sess (keyt cAddr) with
  | some sess =>
    simp only [hs] at hall ⊢
    exact recvOnSession_effect hall h (hstates sess hs)
  | none =>
    simp only [hs, nextSession] at hall ⊢
    by_cases hyour : bfd.yourDiscr ≠ 0
    · simp only [if_pos hyour] at hall ⊢
      exact insertLogged_effect (hall.suffix (iterateOnSession_suffix (keyt cAddr) _ ⟨results, _⟩)) h
    · simp only [if_neg hyour] at hall ⊢
      by_cases hdown : bfd.state = BitVec.ofNat 2 bfdstateDown
      · simp only [if_pos hdown] at hall ⊢
        have hsuf : (insertLogged (initSession stack cAddr cAddrlen) cAddr cAddrlen d).2.log <:+
            (match
              (insertLogged (initSession stack cAddr cAddrlen) cAddr cAddrlen d).2.kv.findSession cAddr cAddrlen with
              | some sess => recvOnSession sess cAddr cAddrlen bfd curms results
                (insertLogged (initSession stack cAddr cAddrlen) cAddr cAddrlen d).2
              | none => (.ng, (insertLogged (initSession stack cAddr cAddrlen) cAddr cAddrlen d).2)).2.log := by
          split
          · exact recvOnSession_log
          · exact List.suffix_refl _
        obtain ⟨R₁, hR₁, hsess₁⟩ := insertLogged_effect (hall.suffix hsuf) h
        have hfind :
            (insertLogged (initSession stack cAddr cAddrlen) cAddr cAddrlen d).2.kv.findSession cAddr cAddrlen =
            some (initSession stack cAddr cAddrlen) := by
          rw [Kv.findSession_eq hR₁ cAddr hlen, hsess₁, Function.update_self]
        simp only [hfind] at hall ⊢
        obtain ⟨R₂, hR₂, hsess₂⟩ := recvOnSession_effect hall hR₁ (by simp [initSession])
        refine ⟨R₂, hR₂, ?_⟩
        rw [hsess₂, hsess₁, Function.update_idem]
        rfl
      · simp only [if_neg hdown] at hall ⊢
        exact ⟨R, h, (Function.update_eq_self_iff.mpr hs.symm).symm⟩

/-- An accepted packet changes the session of its sender, a refused one changes nothing. -/
theorem recvBfdEvent_effect {pkt : List Byte} {stack : BfdSess}
    (hall : AllInserted (recvBfdEvent cAddr cAddrlen pkt stack curms results d).2.log) (h : Represents d.kv R)
    (hlen : cAddrlen ≠ 0)
    (hstates : ∀ s, R.sess (keyt cAddr) = some s → s.sessionState ≠ BitVec.ofNat 32 bfdstateAdmindown) :
    ∃ R', Represents (recvBfdEvent cAddr cAddrlen pkt stack curms results d).2.kv R' ∧
      R'.sess = if recvAccepts pkt.length (Bfd.ofPacket pkt) = true then
        Function.update R.sess (keyt cAddr) (nextSession (Bfd.ofPacket pkt) cAddr cAddrlen stack curms
          d.localDiscriminatorIncr (R.sess (keyt cAddr)))
        else R.sess := by
  simp only [recvBfdEvent] at hall ⊢
  by_cases hok : recvAccepts pkt.length (Bfd.ofPacket pkt) = true
  · rw [if_pos hok] at hall ⊢
    rw [if_pos hok]
    exact recvAccepted_effect hall h hlen hstates
  · rw [if_neg hok, if_neg hok]
    exact ⟨R, h, rfl⟩

end

end NetworkBfd.Bfdd
