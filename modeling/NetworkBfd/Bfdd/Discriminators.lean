import NetworkBfd.Bfdd.Sound

/-!
# Local discriminators

In a run that receives fewer than `2 ^ 31` packets, attached sessions of different peers have different discriminators,
none of them zero, and an attached session keeps its discriminator and its address (`discriminators_unique`). Every
discriminator is a number that the counter has passed (`Numbered`).
-/

namespace NetworkBfd.Bfdd

open Lib Smmr

/-- A call of `recv_bfd_event`. -/
def Action.isRecv : Action → Bool
  | .recv .. => true
  | .tick _ => false

/-- `t` is `s` later on. -/
structure SameStamp (s t : BfdSess) : Prop where
  attached : t.attached = s.attached
  discr : t.localDiscr = s.localDiscr
  client : t.clientAddr = s.clientAddr

theorem SameStamp.refl (s : BfdSess) : SameStamp s s := ⟨rfl, rfl, rfl⟩

theorem SameStamp.trans {s t u : BfdSess} (h : SameStamp s t) (h' : SameStamp t u) : SameStamp s u :=
  ⟨h'.attached.trans h.attached, h'.discr.trans h.discr, h'.client.trans h.client⟩

section Step

variable {s : BfdSess} {bfd : Bfd} {curms incr : BitVec 64} {cAddr : SockaddrIn} {cAddrlen : BitVec 32}
  {stack : BfdSess}

theorem afterPacket_of_attached (h : s.attached = bfdOn) :
    SameStamp s (afterPacket bfd curms incr s) ∧ (attach s incr).2 = incr := by
  have hne : s.attached ≠ bfdOff := by
    rw [h]
    decide
  have hattach : attach s incr = (s, incr) := if_neg hne
  obtain ⟨state, diag, hframe⟩ := stateMachine_frame (recordPacket bfd curms s)
  refine ⟨⟨?_, ?_, ?_⟩, by rw [hattach]⟩
  all_goals
    simp only [afterPacket, hattach, hframe]
    rfl

theorem afterPacket_of_waiting (h : s.attached = bfdOff) (hincr : incr < 0x7fffffff) :
    (afterPacket bfd curms incr s).localDiscr = htonl ((incr + 1).setWidth 32) ∧ (attach s incr).2 = incr + 1 := by
  have hle : ¬ 0x7fffffff < incr + 1 := by
    simp only [BitVec.lt_def, BitVec.toNat_add, BitVec.reduceToNat] at hincr ⊢
    omega
  have hattach : attach s incr =
      ({ s with localDiscr := htonl ((incr + 1).setWidth 32), attached := bfdOn }, incr + 1) := by
    unfold attach
    rw [if_pos h, if_neg hle]
  obtain ⟨state, diag, hframe⟩ := stateMachine_frame (recordPacket bfd curms (attach s incr).1)
  rw [hattach] at hframe ⊢
  refine ⟨?_, rfl⟩
  simp only [afterPacket, hattach, hframe]
  rfl

/-- A session that takes a packet keeps its stamp, or gets the next number. -/
theorem afterPacket_stamp (h : Sound s) (hincr : incr < 0x7fffffff) :
    (SameStamp s (afterPacket bfd curms incr s) ∧ s.attached = bfdOn ∧ (attach s incr).2 = incr) ∨
      (s.attached = bfdOff ∧ (afterPacket bfd curms incr s).localDiscr = htonl ((incr + 1).setWidth 32) ∧
        (attach s incr).2 = incr + 1) := by
  rcases h.attached with hoff | ⟨hon, -⟩
  · exact .inr ⟨hoff, afterPacket_of_waiting hoff hincr⟩
  · obtain ⟨h1, h2⟩ := @afterPacket_of_attached s bfd curms incr hon
    exact .inl ⟨h1, hon, h2⟩

/-- What an accepted packet does to counter and stamp. -/
theorem Outcome.stamp {before after : Option BfdSess} {incr' : BitVec 64} {called : List BfdSess}
    (ho : Outcome bfd cAddr cAddrlen stack curms incr before after incr' called) (hincr : incr < 0x7fffffff)
    (h : ∀ s, before = some s → Sound s) :
    (incr' = incr ∨ incr' = incr + 1) ∧
    (∀ t, after = some t → t.attached = bfdOn → (∃ s, before = some s ∧ SameStamp s t) ∨
      t.localDiscr = htonl ((incr + 1).setWidth 32) ∧ incr' = incr + 1) ∧
    (∀ s, before = some s → s.attached = bfdOn → ∃ t, after = some t ∧ SameStamp s t) := by
  have hcount : ∀ s, Sound s → (attach s incr).2 = incr ∨ (attach s incr).2 = incr + 1 := by
    intro s hs
    rcases @afterPacket_stamp s bfd curms incr hs hincr with ⟨-, -, he⟩ | ⟨-, -, he⟩
    · exact .inl he
    · exact .inr he
  cases ho with
  | nothing => exact ⟨.inl rfl, fun t ht => (by cases ht), fun s hs => (by cases hs)⟩
  | down hyour =>
    refine ⟨.inl rfl, fun t ht hon => ?_, fun s hs => (by cases hs)⟩
    obtain rfl := Option.some.inj ht
    exact absurd hon (by simp [downSession, initSession])
  | admin sess hstate =>
    exact ⟨hcount sess (h sess rfl), fun t ht _ => .inl ⟨t, ht, .refl t⟩, fun s hs _ => ⟨s, hs, .refl s⟩⟩
  | known sess stored =>
    refine ⟨hcount sess (h sess rfl), fun t ht hon => ?_, fun s hs hon => ?_⟩
    · obtain rfl := Option.some.inj ht
      cases stored with
      | false => exact .inl ⟨sess, rfl, .refl sess⟩
      | true =>
        rcases @afterPacket_stamp sess bfd curms incr (h sess rfl) hincr with ⟨he, -, -⟩ | ⟨-, h1, h2⟩
        · exact .inl ⟨sess, rfl, he⟩
        · exact .inr ⟨h1, h2⟩
    · obtain rfl := Option.some.inj hs
      refine ⟨_, rfl, ?_⟩
      cases stored with
      | false => exact .refl sess
      | true => exact (afterPacket_of_attached hon).1
  | new hyour hdown stored =>
    refine ⟨hcount _ (initSession_sound stack cAddr cAddrlen), fun t ht hon => ?_, fun s hs => (by cases hs)⟩
    obtain rfl := Option.some.inj ht
    cases stored with
    | false => exact absurd hon (by simp [initSession])
    | true => exact .inr (afterPacket_of_waiting rfl hincr)

end Step

/-- The counter is at most `n`, and the attached sessions have different numbers up to the counter. -/
structure Numbered (n : Nat) (d : Daemon) (R : Registry) : Prop where
  base : SoundTable d R
  count : d.localDiscriminatorIncr.toNat ≤ n
  passed : ∀ k s, R.sess k = some s → s.attached = bfdOn →
    ∃ i : BitVec 64, i.toNat ≤ d.localDiscriminatorIncr.toNat ∧ s.localDiscr = htonl (i.setWidth 32)
  unique : ∀ k k' s s', k ≠ k' → R.sess k = some s → R.sess k' = some s' → s.attached = bfdOn → s'.attached = bfdOn →
    s.localDiscr ≠ s'.localDiscr

/-- Different small numbers are different discriminators. -/
theorem htonl_setWidth_inj {i j : BitVec 64} (hi : i.toNat < 2 ^ 31) (hj : j.toNat < 2 ^ 31)
    (h : htonl (i.setWidth 32) = htonl (j.setWidth 32)) : i = j := by
  have h32 : i.setWidth 32 = j.setWidth 32 := by
    rw [← htonl_htonl (i.setWidth 32), h, htonl_htonl]
  have hnat := congrArg BitVec.toNat h32
  simp only [BitVec.toNat_setWidth] at hnat
  exact BitVec.eq_of_toNat_eq (by omega)

namespace Daemon

/-- One step of a run that is not too long. -/
theorem step_numbered {n : Nat} {d : Daemon} {R : Registry} (h : Numbered n d R) (a : Action)
    (hn : n + (if a.isRecv = true then 1 else 0) < 2 ^ 31) :
    ∃ R', Numbered (n + if a.isRecv = true then 1 else 0) (step d a) R' ∧
      ∀ k s, R.sess k = some s → s.attached = bfdOn → ∃ t, R'.sess k = some t ∧ SameStamp s t := by
  cases a with
  | tick results =>
    exact ⟨R, ⟨⟨h.base.table, h.base.sound, h.base.incr⟩, h.count, h.passed, h.unique⟩,
      fun k s hs _ => ⟨s, hs, .refl s⟩⟩
  | recv cAddr pkt stack curms results =>
    have hone : (if (Action.recv cAddr pkt stack curms results).isRecv = true then 1 else 0) = 1 := rfl
    rw [hone] at hn ⊢
    obtain ⟨base, count, passed, unique⟩ := h
    rcases @recvBfdEvent_step d R cAddr sizeofSockaddrIn curms results pkt stack base.table (by decide) with
      ⟨-, heq⟩ | ⟨hok, R', called, hR', hother, ho, -, -⟩
    · refine ⟨R, ?_, fun k s hs _ => ⟨s, hs, .refl s⟩⟩
      rw [step, heq]
      exact ⟨base, by omega, passed, unique⟩
    · have hincr : d.localDiscriminatorIncr < 0x7fffffff := by
        simp only [BitVec.lt_def, BitVec.reduceToNat]
        omega
      obtain ⟨hsound, -, hrange⟩ := ho.sound (recvAccepts_myDiscr hok) base.incr (base.sound _)
      obtain ⟨hcount, hstamp, hkeep⟩ := ho.stamp hincr (base.sound _)
      have hnext : (d.localDiscriminatorIncr + 1).toNat = d.localDiscriminatorIncr.toNat + 1 := by
        simp only [BitVec.toNat_add, BitVec.reduceToNat]
        omega
      -- the counter does not go down
      have hle : d.localDiscriminatorIncr.toNat ≤
          (step d (.recv cAddr pkt stack curms results)).localDiscriminatorIncr.toNat := by
        rcases hcount with he | he
        · exact (congrArg BitVec.toNat he).ge
        · exact Nat.le_trans (Nat.le_succ _) (hnext.symm.trans (congrArg BitVec.toNat he).symm).le
      have hupper : (step d (.recv cAddr pkt stack curms results)).localDiscriminatorIncr.toNat ≤ n + 1 := by
        rcases hcount with he | he
        · exact (congrArg BitVec.toNat he).le.trans (by omega)
        · exact (congrArg BitVec.toNat he).le.trans (by omega)
      -- the session of the sender against those of the others
      have hfresh : ∀ k s t, k ≠ keyt cAddr → R.sess k = some s → s.attached = bfdOn →
          R'.sess (keyt cAddr) = some t → t.attached = bfdOn → s.localDiscr ≠ t.localDiscr := by
        intro k s t hk hs hon ht hont
        rcases hstamp t ht hont with ⟨u, hu, hut⟩ | ⟨hnew, -⟩
        · rw [hut.discr]
          exact unique k _ s u hk hs hu hon (hut.attached.symm.trans hont)
        · obtain ⟨i, hi, hdiscr⟩ := passed k s hs hon
          intro he
          rw [hdiscr, hnew] at he
          have hinj := htonl_setWidth_inj (by omega) (by omega) he
          rw [hinj, hnext] at hi
          omega
      refine ⟨R',
        ⟨⟨hR', fun k s hs => ?_, hrange⟩, hupper, fun k s hs hon => ?_, fun k k' s s' hk hs hs' hon hon' => ?_⟩,
        fun k s hs hon => ?_⟩
      · by_cases hk : k = keyt cAddr
        · subst hk
          exact hsound s hs
        · rw [hother k hk] at hs
          exact base.sound k s hs
      · by_cases hk : k = keyt cAddr
        · subst hk
          rcases hstamp s hs hon with ⟨u, hu, hus⟩ | ⟨hnew, he⟩
          · obtain ⟨i, hi, hdiscr⟩ := passed _ u hu (hus.attached.symm.trans hon)
            exact ⟨i, Nat.le_trans hi hle, hus.discr.trans hdiscr⟩
          · exact ⟨d.localDiscriminatorIncr + 1, (congrArg BitVec.toNat he).ge, hnew⟩
        · rw [hother k hk] at hs
          obtain ⟨i, hi, hdiscr⟩ := passed k s hs hon
          exact ⟨i, Nat.le_trans hi hle, hdiscr⟩
      · by_cases h1 : k = keyt cAddr
        · subst h1
          rw [hother k' fun he => hk he.symm] at hs'
          exact (hfresh k' s' s (fun he => hk he.symm) hs' hon' hs hon).symm
        · rw [hother k h1] at hs
          by_cases h2 : k' = keyt cAddr
          · subst h2
            exact hfresh k s s' h1 hs hon hs' hon'
          · rw [hother k' h2] at hs'
            exact unique k k' s s' hk hs hs' hon hon'
      · by_cases hk : k = keyt cAddr
        · subst hk
          exact hkeep s hs hon
        · exact ⟨s, (hother k hk).trans hs, .refl s⟩

theorem foldl_numbered : ∀ (actions : List Action) {n : Nat} {d : Daemon} {R : Registry}, Numbered n d R →
    n + actions.countP Action.isRecv < 2 ^ 31 →
    ∃ R', Numbered (n + actions.countP Action.isRecv) (actions.foldl step d) R' ∧
      ∀ k s, R.sess k = some s → s.attached = bfdOn → ∃ t, R'.sess k = some t ∧ SameStamp s t
  | [], n, d, R, h, _ => ⟨R, h, fun k s hs _ => ⟨s, hs, .refl s⟩⟩
  | a :: actions, n, d, R, h, hn => by
    rw [List.countP_cons, Nat.add_comm (actions.countP _), ← Nat.add_assoc] at hn ⊢
    obtain ⟨R₁, h₁, hkeep₁⟩ := step_numbered h a (Nat.lt_of_le_of_lt (Nat.le_add_right _ _) hn)
    obtain ⟨R₂, h₂, hkeep₂⟩ := foldl_numbered actions h₁ hn
    refine ⟨R₂, h₂, fun k s hs hon => ?_⟩
    obtain ⟨t, ht, hst⟩ := hkeep₁ k s hs hon
    obtain ⟨u, hu, htu⟩ := hkeep₂ k t ht (hst.attached.trans hon)
    exact ⟨u, hu, hst.trans htu⟩

/-- Attached sessions of different peers have different discriminators, none is zero, and an attached session keeps
its own and its address to the end of the run. -/
theorem discriminators_unique (actions : List Action) (hlen : actions.countP Action.isRecv < 2 ^ 31) :
    (∀ a b s t, keyt a ≠ keyt b → (run actions).kv.findSession a sizeofSockaddrIn = some s →
      (run actions).kv.findSession b sizeofSockaddrIn = some t → s.attached = bfdOn → t.attached = bfdOn →
      s.localDiscr ≠ t.localDiscr) ∧
    (∀ a s, (run actions).kv.findSession a sizeofSockaddrIn = some s → s.attached = bfdOn → s.localDiscr ≠ 0) ∧
    ∀ before after, actions = before ++ after →
      ∀ a s, (run before).kv.findSession a sizeofSockaddrIn = some s → s.attached = bfdOn →
        ∃ t, (run actions).kv.findSession a sizeofSockaddrIn = some t ∧ t.attached = bfdOn ∧
          t.localDiscr = s.localDiscr ∧ t.clientAddr = s.clientAddr := by
  have hstart : Numbered 0 start Registry.empty :=
    ⟨start_soundTable, Nat.le_refl _, fun k s hs => (by cases hs), fun k k' s s' _ hs => (by cases hs)⟩
  obtain ⟨R, h, -⟩ := foldl_numbered actions hstart (by rwa [Nat.zero_add])
  have hfind : ∀ a, (run actions).kv.findSession a sizeofSockaddrIn = R.sess (keyt a) :=
    fun a => Kv.findSession_eq h.base.table a (by decide)
  refine ⟨fun a b s t hne hs ht hon hon' => ?_, fun a s hs hon => ?_, fun before after heq a s hs hon => ?_⟩
  · rw [hfind] at hs ht
    exact h.unique _ _ s t hne hs ht hon hon'
  · rw [hfind] at hs
    rcases (h.base.sound _ s hs).attached with hoff | ⟨-, hlocal, -⟩
    · rw [hoff] at hon
      exact absurd hon (by decide)
    · exact hlocal
  · subst heq
    rw [List.countP_append] at hlen
    obtain ⟨R₁, h₁, -⟩ := foldl_numbered before hstart (by omega)
    obtain ⟨R₂, h₂, hkeep⟩ := foldl_numbered after h₁ (by omega)
    rw [run, Kv.findSession_eq h₁.base.table a (by decide)] at hs
    obtain ⟨t, ht, hst⟩ := hkeep _ s hs hon
    refine ⟨t, ?_, hst.attached.trans hon, hst.discr, hst.client⟩
    rw [run, List.foldl_append, Kv.findSession_eq h₂.base.table a (by decide)]
    exact ht

/-- Two peers that say Down. -/
def twoDown : List Action :=
  [.recv ⟨2, 3784, 0x0100007f, 0⟩ [0x20, 0x40, 3, 24, 7, 0, 0, 0, 0, 0, 0, 0, 0, 0, 0, 0, 0, 0, 0, 0, 0, 0, 0, 0]
      default 5 [],
    .recv ⟨2, 3784, 0x0200007f, 0⟩ [0x20, 0x40, 3, 24, 9, 0, 0, 0, 0, 0, 0, 0, 0, 0, 0, 0, 0, 0, 0, 0, 0, 0, 0, 0]
      default 6 []]

theorem discriminators_unique_twoDown :
    ((run twoDown).kv.findSession ⟨2, 3784, 0x0100007f, 0⟩ sizeofSockaddrIn).map BfdSess.attached = some bfdOn ∧
    ((run twoDown).kv.findSession ⟨2, 3784, 0x0200007f, 0⟩ sizeofSockaddrIn).map BfdSess.attached = some bfdOn ∧
    ∀ s t, (run twoDown).kv.findSession ⟨2, 3784, 0x0100007f, 0⟩ sizeofSockaddrIn = some s →
      (run twoDown).kv.findSession ⟨2, 3784, 0x0200007f, 0⟩ sizeofSockaddrIn = some t →
      s.localDiscr ≠ t.localDiscr := by
  have ha : ((run twoDown).kv.findSession ⟨2, 3784, 0x0100007f, 0⟩ sizeofSockaddrIn).map BfdSess.attached =
      some bfdOn := by decide +kernel
  have hb : ((run twoDown).kv.findSession ⟨2, 3784, 0x0200007f, 0⟩ sizeofSockaddrIn).map BfdSess.attached =
      some bfdOn := by decide +kernel
  refine ⟨ha, hb, fun s t hs ht => ?_⟩
  rw [hs] at ha
  rw [ht] at hb
  exact (discriminators_unique twoDown (by decide)).1 _ _ s t (by decide) hs ht (Option.some.inj ha)
    (Option.some.inj hb)

end Daemon

end NetworkBfd.Bfdd
