import NetworkBfd.Bfdd.Steps

/-!
# Every stored session

What holds of every session that is stored or sent for, whether insertions succeed or not (`Sound`): `Outcome.sound` is
the step, `run_sound` the run.
-/

namespace NetworkBfd.Bfdd

open Lib Smmr

/-- The fields that the checks of a peer and the widths of a packet depend on. -/
structure Sound (s : BfdSess) : Prop where
  states : s.sessionState = BitVec.ofNat 32 bfdstateDown ∨ s.sessionState = BitVec.ofNat 32 bfdstateInit ∨
    s.sessionState = BitVec.ofNat 32 bfdstateUp
  waiting : s.attached = bfdOff → s.sessionState = BitVec.ofNat 32 bfdstateDown
  attached : s.attached = bfdOff ∨ s.attached = bfdOn ∧ s.localDiscr ≠ 0 ∧ s.remoteDiscr ≠ 0
  diag : s.localDiag = 0 ∨ s.localDiag = bfddiagNeighborsaiddown
  mult : s.detectMult = bfddfltDetectmult
  received : s.receivedMinRxInterval = 0

theorem Sound.not_admin {s : BfdSess} (h : Sound s) : s.sessionState ≠ BitVec.ofNat 32 bfdstateAdmindown := by
  rcases h.states with hs | hs | hs <;> rw [hs] <;> decide

/-- The counter stays in the range of the discriminators. -/
abbrev InRange (incr : BitVec 64) : Prop := incr ≤ 0x7fffffff

section Step

variable {s : BfdSess} {bfd : Bfd} {curms incr : BitVec 64} {cAddr : SockaddrIn} {cAddrlen : BitVec 32}
  {stack : BfdSess}

theorem initSession_sound (stack : BfdSess) (cAddr : SockaddrIn) (cAddrlen : BitVec 32) :
    Sound (initSession stack cAddr cAddrlen) :=
  ⟨.inl rfl, fun _ => rfl, .inl rfl, .inl rfl, rfl, rfl⟩

theorem downSession_sound (stack : BfdSess) (cAddr : SockaddrIn) (cAddrlen : BitVec 32) (bfd : Bfd) :
    Sound (downSession stack cAddr cAddrlen bfd) :=
  ⟨.inl rfl, fun _ => rfl, .inl rfl, .inl rfl, rfl, rfl⟩

/-- The next discriminator is not zero. -/
theorem htonl_next_ne_zero (h : InRange incr) : htonl ((incr + 1).setWidth 32) ≠ 0 := by
  intro hz
  have hzero : (incr + 1).setWidth 32 = 0 := by
    rw [← htonl_htonl ((incr + 1).setWidth 32), hz]
    rfl
  have hnat := congrArg BitVec.toNat hzero
  simp only [BitVec.le_def, BitVec.reduceToNat] at h
  simp only [BitVec.toNat_setWidth, BitVec.toNat_add, BitVec.reduceToNat] at hnat
  omega

theorem attach_incr (h : InRange incr) : InRange (attach s incr).2 := by
  unfold attach
  split
  · dsimp only
    split
    · decide
    · rename_i hle
      exact BitVec.not_lt.mp hle
  · exact h

/-- An attached session, and otherwise the same. -/
theorem attach_sound (h : Sound s) (hincr : InRange incr) :
    (attach s incr).1.attached = bfdOn ∧ (attach s incr).1.localDiscr ≠ 0 ∧
      (attach s incr).1.sessionState = s.sessionState ∧ (attach s incr).1.localDiag = s.localDiag ∧
      (attach s incr).1.detectMult = s.detectMult ∧
      (attach s incr).1.receivedMinRxInterval = s.receivedMinRxInterval := by
  unfold attach
  split
  · exact ⟨rfl, htonl_next_ne_zero hincr, rfl, rfl, rfl, rfl⟩
  · rename_i hne
    rcases h.attached with hoff | ⟨hon, hlocal, -⟩
    · exact absurd hoff hne
    · exact ⟨hon, hlocal, rfl, rfl, rfl, rfl⟩

/-- The state machine moves within the three states, and leaves one of two diagnostics. -/
theorem stateMachine_sound (hstates : s.sessionState = BitVec.ofNat 32 bfdstateDown ∨
      s.sessionState = BitVec.ofNat 32 bfdstateInit ∨ s.sessionState = BitVec.ofNat 32 bfdstateUp)
    (hdiag : s.localDiag = 0 ∨ s.localDiag = bfddiagNeighborsaiddown) :
    ((stateMachine s).sessionState = BitVec.ofNat 32 bfdstateDown ∨
      (stateMachine s).sessionState = BitVec.ofNat 32 bfdstateInit ∨
      (stateMachine s).sessionState = BitVec.ofNat 32 bfdstateUp) ∧
    ((stateMachine s).localDiag = 0 ∨ (stateMachine s).localDiag = bfddiagNeighborsaiddown) := by
  unfold stateMachine
  constructor
  · split_ifs <;> first | exact hstates | exact .inl rfl | exact .inr (.inl rfl) | exact .inr (.inr rfl)
  · split_ifs <;> first | exact hdiag | exact .inr rfl

theorem afterPacket_sound (h : Sound s) (hincr : InRange incr) (hmy : bfd.myDiscr ≠ 0) :
    Sound (afterPacket bfd curms incr s) := by
  obtain ⟨hon, hlocal, hstate, hdiag, hmult, hreceived⟩ := @attach_sound s incr h hincr
  obtain ⟨hstates', hdiag'⟩ := @stateMachine_sound (recordPacket bfd curms (attach s incr).1)
    (hstate.symm ▸ h.states) (hdiag.symm ▸ h.diag)
  obtain ⟨state, diag, hframe⟩ := stateMachine_frame (recordPacket bfd curms (attach s incr).1)
  have hatt : (afterPacket bfd curms incr s).attached = bfdOn := (congrArg BfdSess.attached hframe).trans hon
  refine ⟨hstates', fun hoff => ?_, .inr ⟨hatt, ?_, ?_⟩, hdiag', ?_, ?_⟩
  · rw [hatt] at hoff
    exact absurd hoff (by decide)
  · exact fun hz => hlocal ((congrArg BfdSess.localDiscr hframe).symm.trans hz)
  · exact fun hz => hmy ((congrArg BfdSess.remoteDiscr hframe).symm.trans hz)
  · exact (congrArg BfdSess.detectMult hframe).trans (hmult.trans h.mult)
  · -- the minimum with zero
    refine (congrArg BfdSess.receivedMinRxInterval hframe).trans ?_
    simp only [recordPacket, hreceived, h.received]
    split
    · rfl
    · rename_i hle
      exact BitVec.eq_of_toNat_eq (Nat.eq_zero_of_not_pos hle)

/-- What an accepted packet leaves is sound. -/
theorem Outcome.sound {before after : Option BfdSess} {incr' : BitVec 64} {called : List BfdSess}
    (ho : Outcome bfd cAddr cAddrlen stack curms incr before after incr' called) (hmy : bfd.myDiscr ≠ 0)
    (hincr : InRange incr) (h : ∀ s, before = some s → Sound s) :
    (∀ s, after = some s → Sound s) ∧ (∀ s ∈ called, Sound s) ∧ InRange incr' := by
  cases ho with
  | nothing => exact ⟨h, fun s hs => (by cases hs), hincr⟩
  | down hyour =>
    refine ⟨fun s hs => ?_, fun s hs => (by cases hs), hincr⟩
    obtain rfl := Option.some.inj hs
    exact downSession_sound _ _ _ _
  | admin sess hstate => exact ⟨h, fun s hs => (by cases hs), attach_incr hincr⟩
  | known sess stored =>
    have hsess := h sess rfl
    refine ⟨fun s hs => ?_, fun s hs => ?_, attach_incr hincr⟩
    · obtain rfl := Option.some.inj hs
      cases stored with
      | true => exact afterPacket_sound hsess hincr hmy
      | false => exact hsess
    · split at hs
      · obtain rfl := List.mem_singleton.mp hs
        exact afterPacket_sound hsess hincr hmy
      · cases hs
  | new hyour hdown stored =>
    have hsess := initSession_sound stack cAddr cAddrlen
    refine ⟨fun s hs => ?_, fun s hs => ?_, attach_incr hincr⟩
    · obtain rfl := Option.some.inj hs
      cases stored with
      | true => exact afterPacket_sound hsess hincr hmy
      | false => exact hsess
    · split at hs
      · obtain rfl := List.mem_singleton.mp hs
        exact afterPacket_sound hsess hincr hmy
      · cases hs

/-- The checks, read back. -/
theorem recvAccepts_myDiscr {len : Nat} (h : recvAccepts len bfd = true) : bfd.myDiscr ≠ 0 := by
  intro hz
  simp [recvAccepts, hz] at h

end Step

/-! ## Runs -/

/-- The table is one of sound sessions, and the counter is in range. -/
structure SoundTable (d : Daemon) (R : Registry) : Prop where
  table : Represents d.kv R
  sound : ∀ k s, R.sess k = some s → Sound s
  incr : InRange d.localDiscriminatorIncr

namespace Daemon

theorem start_soundTable : SoundTable start Registry.empty := by
  obtain ⟨kv, hinit, hR⟩ := initialize_represents
  refine ⟨?_, fun k s hs => (by cases hs), by decide⟩
  rw [start, hinit]
  exact hR

/-- Every step keeps the table sound. -/
theorem step_soundTable {d : Daemon} {R : Registry} (h : SoundTable d R) (a : Action) :
    ∃ R', SoundTable (step d a) R' := by
  cases a with
  | tick results => exact ⟨R, h.table, h.sound, h.incr⟩
  | recv cAddr pkt stack curms results =>
    rcases @recvBfdEvent_step d R cAddr sizeofSockaddrIn curms results pkt stack h.table (by decide) with
      ⟨-, heq⟩ | ⟨hok, R', called, hR', hother, ho, -, -⟩
    · refine ⟨R, ?_⟩
      rw [step, heq]
      exact h
    · obtain ⟨hafter, -, hincr⟩ := ho.sound (recvAccepts_myDiscr hok) h.incr (h.sound _)
      refine ⟨R', hR', fun k s hs => ?_, hincr⟩
      by_cases hk : k = keyt cAddr
      · subst hk
        exact hafter s hs
      · rw [hother k hk] at hs
        exact h.sound k s hs

theorem foldl_soundTable : ∀ (actions : List Action) {d : Daemon} {R : Registry}, SoundTable d R →
    ∃ R', SoundTable (actions.foldl step d) R'
  | [], _, R, h => ⟨R, h⟩
  | a :: actions, _, _, h => by
    obtain ⟨R₁, h₁⟩ := step_soundTable h a
    exact foldl_soundTable actions h₁

/-- Every reachable table is sound. -/
theorem run_sound (actions : List Action) : ∃ R, SoundTable (run actions) R :=
  foldl_soundTable actions start_soundTable

end Daemon

end NetworkBfd.Bfdd
