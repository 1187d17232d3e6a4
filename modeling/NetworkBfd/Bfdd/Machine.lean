import NetworkBfd.Bfdd.Isolation

/-!
# The session as a machine with four states

What a daemon is for, seen from one peer: its session is there or not, and in one of four states, and only the states
that the peer says in its packets move it (`SessState.meet`). bfdd goes through this machine, with Down for Init when
the peer says Down (`Daemon.run_machine`): after every run whose insertions succeed the session of a peer is in the
state that the accepted packets of that peer lead to, whatever other peers and ticks there were.
-/

namespace NetworkBfd.Bfdd

open Lib Smmr

/-- `BFDSTATE_ADMINDOWN` to `BFDSTATE_UP`. -/
inductive SessState
  | adminDown
  | down
  | init
  | up
deriving DecidableEq, Repr

namespace SessState

def ofBits (v : BitVec 2) : SessState :=
  if v = BitVec.ofNat 2 bfdstateAdmindown then adminDown
  else if v = BitVec.ofNat 2 bfdstateDown then down
  else if v = BitVec.ofNat 2 bfdstateInit then init
  else up

def bits : SessState → BitVec 2
  | adminDown => BitVec.ofNat 2 bfdstateAdmindown
  | down => BitVec.ofNat 2 bfdstateDown
  | init => BitVec.ofNat 2 bfdstateInit
  | up => BitVec.ofNat 2 bfdstateUp

@[simp] theorem ofBits_bits (s : SessState) : ofBits s.bits = s := by cases s <;> rfl

theorem bits_ofBits (v : BitVec 2) : (ofBits v).bits = v := by
  have hv : v = 0 ∨ v = 1 ∨ v = 2 ∨ v = 3 := by
    revert v
    decide
  rcases hv with rfl | rfl | rfl | rfl <;> rfl

/-- What a session in a state makes of the state that its peer says. In state Init it goes to `back` when the peer says
Down. -/
def react (back : SessState) : SessState → SessState → SessState
  | _, adminDown => down
  | down, down => init
  | down, init => up
  | down, up => down
  | init, down => back
  | init, _ => up
  | up, down => down
  | up, _ => up
  | adminDown, down => down
  | adminDown, _ => adminDown

/-- The same with a session that may not be there. A packet that names one makes it, and is not heard; so does a first
Down, which is. -/
def meet (back : SessState) : Option SessState → Bfd → Option SessState
  | some s, bfd => some (react back s (ofBits bfd.state))
  | none, bfd =>
    if bfd.yourDiscr ≠ 0 then some down
    else if bfd.state = BitVec.ofNat 2 bfdstateDown then some (react back down (ofBits bfd.state))
    else none

variable {back s : SessState} {bfd : Bfd} {o : Option SessState}

/-- Up is said to a peer that says Init or Up. -/
theorem meet_up (hback : back ≠ up) (h : meet back o bfd = some up) :
    bfd.state = BitVec.ofNat 2 bfdstateInit ∨ bfd.state = BitVec.ofNat 2 bfdstateUp := by
  cases o with
  | some s =>
    have hreact := Option.some.inj h
    rw [← bits_ofBits bfd.state]
    cases hs : ofBits bfd.state with
    | adminDown =>
      rw [hs] at hreact
      cases s <;> cases hreact
    | down =>
      rw [hs] at hreact
      cases s with
      | init => exact absurd hreact hback
      | adminDown => cases hreact
      | down => cases hreact
      | up => cases hreact
    | init => exact .inl rfl
    | up => exact .inr rfl
  | none =>
    rw [meet] at h
    split at h
    · cases h
    · split at h
      · rename_i hdown
        rw [hdown] at h
        cases h
      · cases h

end SessState

/-- The state of a session, in its two low bits. -/
def BfdSess.state (s : BfdSess) : SessState := .ofBits (s.sessionState.setWidth 2)

section Session

variable {s : BfdSess} {bfd : Bfd} {curms incr : BitVec 64}

/-- The state machine of the source is that of bfdd. -/
theorem stateMachine_state (h : s.sessionState = BitVec.ofNat 32 bfdstateDown ∨
      s.sessionState = BitVec.ofNat 32 bfdstateInit ∨ s.sessionState = BitVec.ofNat 32 bfdstateUp)
    (hremote : s.remoteSessionState = bfd.state.setWidth 32) :
    (stateMachine s).state = SessState.react .down s.state (.ofBits bfd.state) := by
  have hbfd : ∀ v : BitVec 2, v = 0 ∨ v = 1 ∨ v = 2 ∨ v = 3 := by decide
  rcases hbfd bfd.state with hv | hv | hv | hv <;> rcases h with hs | hs | hs <;>
    simp [stateMachine, BfdSess.state, SessState.ofBits, SessState.react, hremote, hv, hs]

theorem afterPacket_state (h : Sound s) :
    (afterPacket bfd curms incr s).state = SessState.react .down s.state (.ofBits bfd.state) := by
  have hattach : (recordPacket bfd curms (attach s incr).1).sessionState = s.sessionState := attach_states s incr
  have hmachine := @stateMachine_state (recordPacket bfd curms (attach s incr).1) bfd
    (hattach.symm ▸ h.states) rfl
  have hbefore : (recordPacket bfd curms (attach s incr).1).state = s.state :=
    congrArg (fun v : BitVec 32 => SessState.ofBits (v.setWidth 2)) hattach
  rw [hbefore] at hmachine
  exact hmachine

/-- One packet on the session of its peer, or on none. -/
theorem nextSession_state {o : Option BfdSess} {cAddr : SockaddrIn} {cAddrlen : BitVec 32} {stack : BfdSess}
    (h : ∀ s, o = some s → Sound s) :
    (nextSession bfd cAddr cAddrlen stack curms incr o).map BfdSess.state =
      SessState.meet .down (o.map BfdSess.state) bfd := by
  cases o with
  | some s => exact congrArg some (afterPacket_state (h s rfl))
  | none =>
    simp only [nextSession, Option.map_none, SessState.meet]
    split
    · rfl
    · split
      · exact congrArg some (afterPacket_state (initSession_sound stack cAddr cAddrlen))
      · rfl

end Session

/-- The packets of `peer` that passed the checks, oldest first. -/
def heardFrom (peer : SessKey) (log : List Event) : List Bfd :=
  ((arrivals log).filter fun p => p.1 = peer).reverse.map Prod.snd

theorem heardFrom_congr {peer : SessKey} {log log' : List Event} (h : arrivals log' = arrivals log) :
    heardFrom peer log' = heardFrom peer log := by rw [heardFrom, h, heardFrom]

theorem heardFrom_cons {peer k : SessKey} {bfd : Bfd} {log log' : List Event}
    (h : arrivals log' = (k, bfd) :: arrivals log) :
    heardFrom peer log' = heardFrom peer log ++ if k = peer then [bfd] else [] := by
  rw [heardFrom, h, heardFrom]
  by_cases hk : k = peer
  · rw [List.filter_cons_of_pos (by simpa using hk), if_pos hk]
    simp
  · rw [List.filter_cons_of_neg (by simpa using hk), if_neg hk, List.append_nil]

namespace Daemon

/-- The machine of each peer is where its packets led it. -/
def Follows (d : Daemon) (R : Registry) : Prop :=
  ∀ k, (R.sess k).map BfdSess.state = (heardFrom k d.log).foldl (SessState.meet .down) none

theorem step_follows {d : Daemon} {R : Registry} (h : SoundTable d R) (hf : Follows d R) (a : Action)
    (hall : AllInserted (step d a).log) : ∃ R', SoundTable (step d a) R' ∧ Follows (step d a) R' := by
  cases a with
  | tick results =>
    obtain ⟨vs, -, -, harrivals⟩ := sendBfdEvent_step h.table results
    refine ⟨R, ⟨h.table, h.sound, h.incr⟩, fun k => ?_⟩
    rw [step, heardFrom_congr harrivals]
    exact hf k
  | recv cAddr pkt stack curms results =>
    obtain ⟨R', hR', hsess⟩ := step_table h hall
    refine ⟨R', hR', fun k => ?_⟩
    rw [hsess]
    rcases @recvBfdEvent_step d R cAddr sizeofSockaddrIn curms results pkt stack h.table (by decide) with
      ⟨hno, heq⟩ | ⟨hok, -, -, -, -, -, -, harrivals⟩
    · rw [if_neg (Bool.eq_false_iff.mp hno), step, heq]
      exact hf k
    · rw [if_pos hok, step, heardFrom_cons harrivals, List.foldl_append, ← hf k]
      by_cases hk : keyt cAddr = k
      · subst hk
        rw [if_pos rfl, Function.update_self]
        exact nextSession_state fun s hs => h.sound _ s hs
      · rw [if_neg hk, Function.update_of_ne fun he => hk he.symm]
        rfl

theorem foldl_follows : ∀ (actions : List Action) {d : Daemon} {R : Registry}, SoundTable d R → Follows d R →
    AllInserted (actions.foldl step d).log →
    ∃ R', SoundTable (actions.foldl step d) R' ∧ Follows (actions.foldl step d) R'
  | [], _, R, h, hf, _ => ⟨R, h, hf⟩
  | a :: actions, d, _, h, hf, hall => by
    obtain ⟨R₁, h₁, hf₁⟩ := step_follows h hf a (hall.suffix (foldl_step_suffix actions (step d a)))
    exact foldl_follows actions h₁ hf₁ hall

/-- The session of every peer goes through the machine: it is in the state that the accepted packets of the peer lead
to, and it is there exactly if they make one. -/
theorem run_machine (actions : List Action) (hall : AllInserted (run actions).log) (cAddr : SockaddrIn) :
    ((run actions).kv.findSession cAddr sizeofSockaddrIn).map BfdSess.state =
      (heardFrom (keyt cAddr) (run actions).log).foldl (SessState.meet .down) none := by
  obtain ⟨R, hR, hf⟩ := foldl_follows actions start_soundTable (fun k => rfl) hall
  have hlen : sizeofSockaddrIn ≠ 0 := by decide
  have hfind := Kv.findSession_eq hR.table cAddr hlen
  rw [run, hfind]
  exact hf (keyt cAddr)

/-- The packets of two peers. -/
theorem run_machine_twoPeers : AllInserted (run twoPeers).log ∧
    ((run twoPeers).kv.findSession ⟨2, 3784, 0x0100007f, 0⟩ sizeofSockaddrIn).map BfdSess.state = some .up := by
  have hall : AllInserted (run twoPeers).log := by decide +kernel
  refine ⟨hall, (run_machine twoPeers hall ⟨2, 3784, 0x0100007f, 0⟩).trans ?_⟩
  decide +kernel

end Daemon

end NetworkBfd.Bfdd
