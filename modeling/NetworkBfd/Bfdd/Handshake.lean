import NetworkBfd.Bfdd.Agreement
import NetworkBfd.Bfdd.Event

/-!
# Up only after a handshake

A session that says Up has heard Init or Up from its peer last (`up_only_after_handshake`). The invariant (`Tracks`)
relates each stored session to the newest packet that its peer got through the checks; `step_inv` is the step, and the
log of a run only grows, so that a run in which every insertion succeeded has no prefix in which one failed.
-/

namespace NetworkBfd.Bfdd

open Lib Smmr

/-- The newest packet of `peer` that passed the checks. -/
def lastAccepted (peer : SessKey) : List Event → Option Bfd
  | [] => none
  | .accepted k bfd :: log => if k = peer then some bfd else lastAccepted peer log
  | _ :: log => lastAccepted peer log

/-- An `insert_session` that did not return `RET_OK`. -/
def Event.failed : Event → Bool
  | .inserted _ ret => ret != .ok
  | _ => false

/-- Every `insert_session` returned `RET_OK`. -/
def AllInserted (log : List Event) : Prop := ∀ e ∈ log, e.failed = false

instance (log : List Event) : Decidable (AllInserted log) :=
  inferInstanceAs (Decidable (∀ e ∈ log, e.failed = false))

theorem AllInserted.cons {e : Event} {log : List Event} (h : AllInserted log) (he : e.failed = false) :
    AllInserted (e :: log) := by
  intro x hx
  rcases List.mem_cons.mp hx with rfl | hx
  · exact he
  · exact h x hx

/-- Whenever Up went out, the peer had said Init or Up last, and its discriminator was returned. -/
def Handshaken (log : List Event) : Prop :=
  ∀ peer dest bfd older, .sent peer dest bfd :: older <:+ log → bfd.state = BitVec.ofNat 2 bfdstateUp →
    ∃ pkt, lastAccepted peer older = some pkt ∧
      (pkt.state = BitVec.ofNat 2 bfdstateInit ∨ pkt.state = BitVec.ofNat 2 bfdstateUp) ∧ bfd.yourDiscr = pkt.myDiscr

/-- A session in one of the three states; in state Up, `last` carried Init or Up and its discriminator is kept. -/
structure Tracks (s : BfdSess) (last : Option Bfd) : Prop where
  states : s.sessionState = BitVec.ofNat 32 bfdstateDown ∨ s.sessionState = BitVec.ofNat 32 bfdstateInit ∨
    s.sessionState = BitVec.ofNat 32 bfdstateUp
  up : s.sessionState = BitVec.ofNat 32 bfdstateUp → ∃ pkt, last = some pkt ∧
    (pkt.state = BitVec.ofNat 2 bfdstateInit ∨ pkt.state = BitVec.ofNat 2 bfdstateUp) ∧ s.remoteDiscr = pkt.myDiscr

/-! ## The log -/

theorem handshaken_cons {e : Event} {log : List Event} (h : Handshaken log)
    (he : ∀ peer dest bfd, e = .sent peer dest bfd → bfd.state = BitVec.ofNat 2 bfdstateUp →
      ∃ pkt, lastAccepted peer log = some pkt ∧
        (pkt.state = BitVec.ofNat 2 bfdstateInit ∨ pkt.state = BitVec.ofNat 2 bfdstateUp) ∧
        bfd.yourDiscr = pkt.myDiscr) :
    Handshaken (e :: log) := by
  intro peer dest bfd older hsuf hup
  rcases List.suffix_cons_iff.mp hsuf with heq | hsuf
  · obtain ⟨h1, h2⟩ := List.cons.inj heq
    exact h2 ▸ he peer dest bfd h1.symm hup
  · exact h peer dest bfd older hsuf hup

theorem AllInserted.suffix {log log' : List Event} (h : AllInserted log') (hsuf : log <:+ log') : AllInserted log :=
  fun e hmem => h e (hsuf.subset hmem)

/-- Sending adds at most the packet to the log. -/
theorem iterateOnSession_log (peer : SessKey) (psess : BfdSess) (w : Wire) :
    (iterateOnSession peer psess w).2.log = w.log ∨
      (iterateOnSession peer psess w).2.log = .sent peer psess.clientAddr (ctrlPacket psess) :: w.log := by
  unfold iterateOnSession
  dsimp only
  split_ifs
  · exact .inl rfl
  · exact .inl rfl
  · exact .inr rfl
  · exact .inr rfl

/-- A packet says Up only if the session does. -/
theorem ctrlPacket_up {psess : BfdSess} {last : Option Bfd} (h : Tracks psess last)
    (hup : (ctrlPacket psess).state = BitVec.ofNat 2 bfdstateUp) :
    psess.sessionState = BitVec.ofNat 32 bfdstateUp := by
  simp only [ctrlPacket] at hup
  split at hup
  · rcases h.states with hs | hs | hs
    · rw [hs] at hup
      exact absurd hup (by decide)
    · rw [hs] at hup
      exact absurd hup (by decide)
    · exact hs
  · exact absurd hup (by decide)

theorem iterateOnSession_suffix (peer : SessKey) (psess : BfdSess) (w : Wire) :
    w.log <:+ (iterateOnSession peer psess w).2.log := by
  rcases iterateOnSession_log peer psess w with hlog | hlog
  · exact hlog ▸ List.suffix_refl _
  · exact hlog ▸ List.suffix_cons _ _

/-- Sending for a session that tracks its peer. -/
theorem iterateOnSession_handshaken {peer : SessKey} {psess : BfdSess} {w : Wire} (h : Handshaken w.log)
    (ht : Tracks psess (lastAccepted peer w.log)) :
    Handshaken (iterateOnSession peer psess w).2.log ∧
      ∀ k, lastAccepted k (iterateOnSession peer psess w).2.log = lastAccepted k w.log := by
  rcases iterateOnSession_log peer psess w with hlog | hlog
  · rw [hlog]
    exact ⟨h, fun _ => rfl⟩
  · rw [hlog]
    refine ⟨handshaken_cons h ?_, fun _ => rfl⟩
    rintro _ _ _ ⟨rfl, rfl, rfl⟩ hup
    exact ht.up (ctrlPacket_up ht hup)

/-! ## The state machine -/

/-- One packet: the session stays in one of the three states, and is Up only after Init or Up. -/
theorem stateMachine_tracks {s : BfdSess} {bfd : Bfd} {last : Option Bfd} (h : Tracks s last)
    (hremote : s.remoteSessionState = bfd.state.setWidth 32) :
    let s' := stateMachine s
    (s'.sessionState = BitVec.ofNat 32 bfdstateDown ∨ s'.sessionState = BitVec.ofNat 32 bfdstateInit ∨
      s'.sessionState = BitVec.ofNat 32 bfdstateUp) ∧
    (s'.sessionState = BitVec.ofNat 32 bfdstateUp →
      bfd.state = BitVec.ofNat 2 bfdstateInit ∨ bfd.state = BitVec.ofNat 2 bfdstateUp) ∧
    s'.remoteDiscr = s.remoteDiscr := by
  have hbfd : ∀ v : BitVec 2, v = 0 ∨ v = 1 ∨ v = 2 ∨ v = 3 := by decide
  rcases hbfd bfd.state with hv | hv | hv | hv <;> rcases h.states with hs | hs | hs <;>
    simp [stateMachine, hremote, hv, hs]

/-! ## One event -/

/-- The invariant of the daemon. -/
structure Inv (d : Daemon) : Prop where
  handshaken : Handshaken d.log
  table : ∃ R, Represents d.kv R ∧ ∀ k s, R.sess k = some s → Tracks s (lastAccepted k d.log)

section Recv

variable {d : Daemon} {R : Registry} {cAddr : SockaddrIn} {cAddrlen : BitVec 32} {bfd : Bfd} {curms : BitVec 64}
  {results : List Int} {sess : BfdSess}

/-- A successful insertion of a session that tracks its peer restores the invariant. -/
theorem insertLogged_inv (h : Represents d.kv R) (hsafe : Handshaken d.log)
    (hother : ∀ k s, k ≠ keyt cAddr → R.sess k = some s → Tracks s (lastAccepted k d.log))
    (hsess : Tracks sess (lastAccepted (keyt cAddr) d.log))
    (hall : AllInserted (insertLogged sess cAddr cAddrlen d).2.log) : Inv (insertLogged sess cAddr cAddrlen d).2 := by
  obtain ⟨ret, kv, R', hrun, hR', hput⟩ := insertSession_represents h ⟨sess, cAddr, cAddrlen⟩
  simp only at hrun hput
  simp only [insertLogged, hrun] at hall ⊢
  have hret : ret = .ok := by simpa [Event.failed] using hall _ (List.mem_cons_self ..)
  refine ⟨handshaken_cons hsafe fun _ _ _ he => (by cases he), R', hR', fun k s hs => ?_⟩
  rw [hput] at hs
  by_cases hk : keyt cAddr = k
  · rw [if_pos ⟨hk, hret⟩] at hs
    obtain rfl := Option.some.inj hs
    exact hk ▸ hsess
  · rw [if_neg fun hn => hk hn.1] at hs
    exact hother k s (fun he => hk he.symm) hs

theorem answerPoll_suffix (peer : SessKey) (bfd : Bfd) (sess : BfdSess) (w : Wire) :
    w.log <:+ (answerPoll peer bfd sess w).2.log := by
  unfold answerPoll
  split
  · exact iterateOnSession_suffix _ _ _
  · exact List.suffix_refl _

theorem recvOnSession_log : d.log <:+ (recvOnSession sess cAddr cAddrlen bfd curms results d).2.log := by
  simp only [recvOnSession]
  split
  · exact List.suffix_refl _
  · refine .trans ?_ ((answerPoll_suffix (keyt cAddr) bfd _ ⟨results, _⟩).trans (List.suffix_cons _ _))
    exact List.suffix_cons _ _

theorem attach_states (sess : BfdSess) (incr : BitVec 64) :
    (attach sess incr).1.sessionState = sess.sessionState := by
  unfold attach
  split <;> rfl

theorem answerPoll_handshaken {peer : SessKey} {w : Wire} (h : Handshaken w.log)
    (ht : Tracks sess (lastAccepted peer w.log)) :
    Tracks (answerPoll peer bfd sess w).1 (lastAccepted peer w.log) ∧ Handshaken (answerPoll peer bfd sess w).2.log ∧
      ∀ k, lastAccepted k (answerPoll peer bfd sess w).2.log = lastAccepted k w.log := by
  unfold answerPoll
  split
  · have ht' : Tracks { sess with pollbitOn := bfdOn } (lastAccepted peer w.log) := ⟨ht.states, ht.up⟩
    obtain ⟨h1, h2⟩ := iterateOnSession_handshaken h ht'
    exact ⟨ht', h1, h2⟩
  · exact ⟨ht, h, fun _ => rfl⟩

/-- A packet on a session in one of the three states: what the peer said last is this packet. -/
theorem recvOnSession_inv (h : Represents d.kv R) (hsafe : Handshaken d.log)
    (hother : ∀ k s, k ≠ keyt cAddr → R.sess k = some s → Tracks s (lastAccepted k d.log))
    (hlast : lastAccepted (keyt cAddr) d.log = some bfd) {last : Option Bfd} (hsess : Tracks sess last)
    (hall : AllInserted (recvOnSession sess cAddr cAddrlen bfd curms results d).2.log) :
    Inv (recvOnSession sess cAddr cAddrlen bfd curms results d).2 := by
  simp only [recvOnSession] at hall ⊢
  -- the session as the state machine finds it
  have hrecorded : Tracks (recordPacket bfd curms (attach sess d.localDiscriminatorIncr).1)
      ((last.map fun pkt => { pkt with myDiscr := bfd.myDiscr })) := by
    refine ⟨?_, fun hup => ?_⟩
    · simpa only [recordPacket, attach_states] using hsess.states
    · simp only [recordPacket, attach_states] at hup
      obtain ⟨pkt, rfl, hpkt, -⟩ := hsess.up hup
      exact ⟨_, rfl, hpkt, rfl⟩
  have hstate : (recordPacket bfd curms (attach sess d.localDiscriminatorIncr).1).sessionState ≠
      BitVec.ofNat 32 bfdstateAdmindown := by
    rcases hrecorded.states with hs | hs | hs <;> rw [hs] <;> decide
  rw [if_neg hstate] at hall ⊢
  obtain ⟨hstates, hup, hdiscr⟩ := stateMachine_tracks hrecorded (show _ = bfd.state.setWidth 32 from rfl)
  have ht : Tracks (stateMachine (recordPacket bfd curms (attach sess d.localDiscriminatorIncr).1))
      (lastAccepted (keyt cAddr) d.log) :=
    ⟨hstates, fun hs => ⟨bfd, hlast, hup hs, hdiscr⟩⟩
  have hstarted : Handshaken (.started (keyt cAddr) (recordPacket bfd curms
      (attach sess d.localDiscriminatorIncr).1).sessionState :: d.log) :=
    handshaken_cons hsafe fun _ _ _ he => (by cases he)
  obtain ⟨ht', hsafe', hpackets⟩ := @answerPoll_handshaken bfd _ (keyt cAddr) ⟨results, _⟩ hstarted ht
  refine insertLogged_inv h hsafe' (fun k s hk hs => ?_) ?_ hall
  · rw [hpackets]
    exact hother k s hk hs
  · rw [hpackets]
    exact ht'

/-- The log may grow by anything but packets of the peers. -/
theorem Inv.of_log (h : Inv d) {log : List Event} (hsafe : Handshaken log)
    (hpackets : ∀ k, lastAccepted k log = lastAccepted k d.log) : Inv { d with log := log } := by
  obtain ⟨R, hR, ht⟩ := h.table
  exact ⟨hsafe, R, hR, fun k s hs => (hpackets k).symm ▸ ht k s hs⟩

/-- An accepted packet, as it stands in the log. -/
theorem recvAccepted_inv (h : Represents d.kv R) (hsafe : Handshaken d.log) (hlen : cAddrlen ≠ 0) {stack : BfdSess}
    (ht : ∀ k s, R.sess k = some s → ∃ last, Tracks s last ∧ (k ≠ keyt cAddr → last = lastAccepted k d.log))
    (hlast : lastAccepted (keyt cAddr) d.log = some bfd)
    (hall : AllInserted (recvAccepted cAddr cAddrlen bfd stack curms results d).2.log) :
    Inv (recvAccepted cAddr cAddrlen bfd stack curms results d).2 := by
  have hother : ∀ k s, k ≠ keyt cAddr → R.sess k = some s → Tracks s (lastAccepted k d.log) := by
    intro k s hk hs
    obtain ⟨last, hl, he⟩ := ht k s hs
    exact he hk ▸ hl
  simp only [recvAccepted, Kv.findSession_eq h cAddr hlen] at hall ⊢
  cases hs : R.sess (keyt cAddr) with
  | some sess =>
    simp only [hs] at hall ⊢
    obtain ⟨last, hl, -⟩ := ht _ _ hs
    exact recvOnSession_inv h hsafe hother hlast hl hall
  | none =>
    simp only [hs] at hall ⊢
    by_cases hyour : bfd.yourDiscr ≠ 0
    · simp only [if_pos hyour] at hall ⊢
      have ht' : Tracks (downSession stack cAddr cAddrlen bfd)
          (lastAccepted (keyt cAddr) (insertLogged (downSession stack cAddr cAddrlen bfd) cAddr cAddrlen d).2.log) :=
        ⟨.inl rfl, fun hup => absurd hup (by simp [downSession])⟩
      have hinv := @insertLogged_inv d R cAddr cAddrlen (downSession stack cAddr cAddrlen bfd) h hsafe hother ht'
        (hall.suffix (iterateOnSession_suffix (keyt cAddr) _ ⟨results, _⟩))
      obtain ⟨hsafe', hpackets⟩ := @iterateOnSession_handshaken (keyt cAddr) _ ⟨results, _⟩ hinv.handshaken ht'
      exact hinv.of_log hsafe' hpackets
    · simp only [if_neg hyour] at hall ⊢
      by_cases hdown : bfd.state = BitVec.ofNat 2 bfdstateDown
      · simp only [if_pos hdown] at hall ⊢
        generalize hd' : (insertLogged (initSession stack cAddr cAddrlen) cAddr cAddrlen d).2 = d' at hall ⊢
        have hinit : Tracks (initSession stack cAddr cAddrlen) (lastAccepted (keyt cAddr) d.log) :=
          ⟨.inl rfl, fun hup => absurd hup (by simp [initSession])⟩
        have hinv : AllInserted d'.log → Inv d' := fun hall' =>
          hd' ▸ insertLogged_inv h hsafe hother hinit (hd' ▸ hall')
        have hlast' : lastAccepted (keyt cAddr) d'.log = some bfd := hd' ▸ hlast
        cases hfind : d'.kv.findSession cAddr cAddrlen with
        | none =>
          simp only [hfind] at hall ⊢
          exact hinv hall
        | some sess =>
          simp only [hfind] at hall ⊢
          obtain ⟨hsafe', R', hR', ht'⟩ := hinv (hall.suffix recvOnSession_log)
          rw [Kv.findSession_eq hR' cAddr hlen] at hfind
          exact recvOnSession_inv hR' hsafe' (fun k s _ => ht' k s) hlast' (ht' _ _ hfind) hall
      · simp only [if_neg hdown] at hall ⊢
        refine ⟨hsafe, R, h, fun k s hk => hother k s (fun he => ?_) hk⟩
        rw [he, hs] at hk
        cases hk

/-- `recv_bfd_event` keeps the invariant as long as its insertions succeed. -/
theorem recvBfdEvent_inv (h : Inv d) (hlen : cAddrlen ≠ 0) {pkt : List Byte} {stack : BfdSess}
    (hall : AllInserted (recvBfdEvent cAddr cAddrlen pkt stack curms results d).2.log) :
    Inv (recvBfdEvent cAddr cAddrlen pkt stack curms results d).2 := by
  simp only [recvBfdEvent] at hall ⊢
  by_cases hok : recvAccepts pkt.length (Bfd.ofPacket pkt) = true
  · rw [if_pos hok] at hall ⊢
    obtain ⟨hsafe, R, hR, ht⟩ := h
    have hsafe' : Handshaken (.accepted (keyt cAddr) (Bfd.ofPacket pkt) :: d.log) :=
      handshaken_cons hsafe fun _ _ _ he => by cases he
    have hlast : lastAccepted (keyt cAddr) (.accepted (keyt cAddr) (Bfd.ofPacket pkt) :: d.log) =
        some (Bfd.ofPacket pkt) := if_pos rfl
    generalize Bfd.ofPacket pkt = bfd at hall hsafe' hlast ⊢
    generalize hd : Daemon.mk d.kv d.localDiscriminatorIncr (.accepted (keyt cAddr) bfd :: d.log) = d' at hall ⊢
    have hlog : d'.log = .accepted (keyt cAddr) bfd :: d.log := hd ▸ rfl
    have hR' : Represents d'.kv R := hd ▸ hR
    rw [← hlog] at hsafe' hlast
    refine recvAccepted_inv hR' hsafe' hlen (fun k s hs => ?_) hlast hall
    exact ⟨_, ht k s hs, fun hk => hlog ▸ (if_neg fun he => hk he.symm).symm⟩
  · rw [if_neg hok]
    exact h

end Recv

/-- `send_bfd_event` keeps the invariant. -/
theorem sendBfdEvent_inv {d : Daemon} (h : Inv d) (results : List Int) : Inv (sendBfdEvent results d) := by
  obtain ⟨R, hR, ht⟩ := h.table
  have hvisits := iterateAllSession_visits hR iterateOnSession ⟨results, d.log⟩
  have hinv : ∀ p ∈ R.entries, ∀ w : Wire,
      (Handshaken w.log ∧ ∀ k, lastAccepted k w.log = lastAccepted k d.log) →
      Handshaken (iterateOnSession p.1 p.2 w).2.log ∧
        ∀ k, lastAccepted k (iterateOnSession p.1 p.2 w).2.log = lastAccepted k d.log := by
    rintro ⟨k, s⟩ hmem w ⟨hsafe, hpackets⟩
    have hts := ht k s (Registry.mem_entries.mp hmem)
    obtain ⟨h1, h2⟩ := iterateOnSession_handshaken hsafe ((hpackets k).symm ▸ hts)
    exact ⟨h1, fun k' => (h2 k').trans (hpackets k')⟩
  obtain ⟨h1, h2⟩ := hvisits.invariant hinv ⟨h.handshaken, fun _ => rfl⟩
  exact h.of_log h1 h2

/-! ## Runs -/

namespace Daemon

theorem recvAccepted_suffix (cAddr : SockaddrIn) (cAddrlen : BitVec 32) (bfd : Bfd) (stack : BfdSess)
    (curms : BitVec 64) (results : List Int) (d : Daemon) :
    d.log <:+ (recvAccepted cAddr cAddrlen bfd stack curms results d).2.log := by
  unfold recvAccepted
  split
  · exact recvOnSession_log
  · split
    · exact (List.suffix_cons _ _).trans (iterateOnSession_suffix (keyt cAddr) _ ⟨results, _⟩)
    · split
      · dsimp only
        split
        · refine List.IsSuffix.trans ?_ recvOnSession_log
          exact List.suffix_cons _ _
        · exact List.suffix_cons _ _
      · exact List.suffix_refl _

/-- The log only grows. -/
theorem step_suffix (d : Daemon) (a : Action) : d.log <:+ (step d a).log := by
  cases a with
  | recv cAddr pkt stack curms results =>
    simp only [step, recvBfdEvent]
    split
    · exact (List.suffix_cons _ d.log).trans (recvAccepted_suffix _ _ _ _ _ _ ⟨_, _, _⟩)
    · exact List.suffix_refl _
  | tick results =>
    exact @iterateAllSession_invariant Wire d.kv iterateOnSession (fun w => d.log <:+ w.log)
      (fun k s w hw => hw.trans (iterateOnSession_suffix k s w)) ⟨results, d.log⟩ (List.suffix_refl _)

theorem foldl_step_suffix : ∀ (actions : List Action) (d : Daemon), d.log <:+ (actions.foldl step d).log
  | [], _ => List.suffix_refl _
  | a :: actions, d => (step_suffix d a).trans (foldl_step_suffix actions (step d a))

theorem step_inv {d : Daemon} (h : Inv d) (a : Action) (hall : AllInserted (step d a).log) : Inv (step d a) := by
  cases a with
  | recv cAddr pkt stack curms results => exact recvBfdEvent_inv h (by decide) hall
  | tick results => exact sendBfdEvent_inv h results

theorem foldl_step_inv : ∀ (actions : List Action) {d : Daemon}, Inv d → AllInserted (actions.foldl step d).log →
    Inv (actions.foldl step d)
  | [], _, h, _ => h
  | a :: actions, d, h, hall =>
    foldl_step_inv actions (step_inv h a (hall.suffix (foldl_step_suffix actions (step d a)))) hall

theorem start_inv : Inv start := by
  obtain ⟨kv, hinit, hR⟩ := initialize_represents
  refine ⟨fun _ _ _ older hsuf => by simp [start] at hsuf, Registry.empty, ?_, fun k s hs => by cases hs⟩
  rw [start, hinit]
  exact hR

/-- In every run whose insertions all succeed, Up goes out only after the peer said Init or Up last. -/
theorem up_only_after_handshake (actions : List Action) (hall : AllInserted (run actions).log) :
    ∀ peer dest bfd older, .sent peer dest bfd :: older <:+ (run actions).log →
      bfd.state = BitVec.ofNat 2 bfdstateUp →
      ∃ pkt, lastAccepted peer older = some pkt ∧
        (pkt.state = BitVec.ofNat 2 bfdstateInit ∨ pkt.state = BitVec.ofNat 2 bfdstateUp) ∧
        bfd.yourDiscr = pkt.myDiscr :=
  (foldl_step_inv actions start_inv hall).handshaken

/-- A peer that says Down, then Init with a poll bit; then a tick. -/
def twoWay : List Action :=
  [.recv ⟨2, 3784, 0x0100007f, 0⟩ [0x20, 0x40, 3, 24, 7, 0, 0, 0, 0, 0, 0, 0, 0, 0, 0, 0, 0, 0, 0, 0, 0, 0, 0, 0]
      default 5 [],
    .recv ⟨2, 3784, 0x0100007f, 0⟩ [0x20, 0xa0, 3, 24, 7, 0, 0, 0, 0, 0, 0, 1, 0, 0, 0, 0, 0, 0, 0, 0, 0, 0, 0, 0]
      default 6 [],
    .tick []]

/-- The packet of the tick. -/
def twoWayReply : Bfd where
  diag := 0
  vers := 1
  multipoint := 0
  demand := 0
  auth := 0
  cpi := 1
  final := 1
  poll := 0
  state := 3
  detectMult := 3
  length := 24
  myDiscr := 0x01000000
  yourDiscr := 7
  minTxInt := 0x40420f00
  minRxInt := 0x40420f00
  minEchoRxInt := 0

theorem up_only_after_handshake_twoWay :
    AllInserted (run twoWay).log ∧ (run twoWay).log.head? =
      some (.sent ⟨0x0100007f, 3784, 0⟩ ⟨2, 0xc80e, 0x0100007f, 0⟩ twoWayReply) ∧
    ∃ pkt, lastAccepted ⟨0x0100007f, 3784, 0⟩ (run twoWay).log.tail = some pkt ∧
      (pkt.state = BitVec.ofNat 2 bfdstateInit ∨ pkt.state = BitVec.ofNat 2 bfdstateUp) ∧
      twoWayReply.yourDiscr = pkt.myDiscr := by
  have hall : AllInserted (run twoWay).log := by decide +kernel
  have hhead : (run twoWay).log.head? =
      some (.sent ⟨0x0100007f, 3784, 0⟩ ⟨2, 0xc80e, 0x0100007f, 0⟩ twoWayReply) := by decide +kernel
  refine ⟨hall, hhead, up_only_after_handshake twoWay hall _ ⟨2, 0xc80e, 0x0100007f, 0⟩ twoWayReply _ ?_ rfl⟩
  rw [List.head?_eq_some_iff] at hhead
  obtain ⟨older, hlog⟩ := hhead
  rw [hlog]
  exact List.suffix_refl _

end Daemon

end NetworkBfd.Bfdd
