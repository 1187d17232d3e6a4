import NetworkBfd.Bfdd.Sound
import NetworkBfd.Lib.Loops

/-!
# Polls and finals

A poll is answered by one final at once, but the session stays marked and every later tick sends a final again. As long
as no tick finds a marked session, finals do not outnumber polls (`finals_le_polls`).
-/

namespace NetworkBfd.Bfdd

open Lib Smmr

/-- The packets with Final that went to `peer`. -/
def finals (peer : SessKey) (log : List Event) : Nat := (sents log).countP fun p => p.1 = peer ∧ p.2.2.final = 1

/-- The packets with Poll from `peer` that passed the checks. -/
def polls (peer : SessKey) (log : List Event) : Nat := (arrivals log).countP fun p => p.1 = peer ∧ p.2.poll = 1

/-- A stored session still has its poll bit on. -/
def Marked (d : Daemon) : Prop :=
  ∃ peer psess, d.kv.data (SessKey.codec.encode peer) = some (BfdSess.codec.encode psess) ∧ psess.pollbitOn = bfdOn

/-- The stored sessions, as an iterator collects them. -/
def stored (kv : Kv) : List (SessKey × BfdSess) := kv.iterateAllSession (fun k s u => (0, (k, s) :: u)) []

/-- A tick that finds a marked session. -/
def LateFinal (d : Daemon) : Action → Prop
  | .tick _ => Marked d
  | .recv .. => False

/-- One packet at most for each session, with Final only if it is marked. -/
theorem finals_transmission (peer k : SessKey) (psess : BfdSess) :
    (transmission k psess).countP (fun p => p.1 = peer ∧ p.2.2.final = 1) ≤
      if k = peer ∧ psess.pollbitOn = bfdOn then 1 else 0 := by
  unfold transmission
  cases hout : outgoing psess with
  | none => exact Nat.zero_le _
  | some bfd =>
    obtain ⟨rfl, -⟩ := outgoing_eq hout
    have hfinal : (ctrlPacket psess).final = 1 ↔ psess.pollbitOn = bfdOn := by
      simp only [ctrlPacket]
      split <;> simp_all
    simp only [Option.toList_some, List.map_cons, List.map_nil, List.countP_singleton, decide_eq_true_eq, hfinal]
    exact Nat.le_refl _

/-- Sessions that are not marked send no final. -/
theorem finals_flatMap {peer : SessKey} : ∀ {vs : List (SessKey × BfdSess)}, (∀ p ∈ vs, p.2.pollbitOn ≠ bfdOn) →
    (vs.flatMap fun p => transmission p.1 p.2).countP (fun p => p.1 = peer ∧ p.2.2.final = 1) = 0
  | [], _ => rfl
  | p :: vs, h => by
    have h1 := finals_transmission peer p.1 p.2
    rw [if_neg fun hn => h p (List.mem_cons_self ..) hn.2] at h1
    rw [List.flatMap_cons, List.countP_append, finals_flatMap fun q hq => h q (List.mem_cons_of_mem _ hq)]
    omega

theorem stored_perm {kv : Kv} {R : Registry} (h : Represents kv R) : (stored kv).Perm R.entries := by
  obtain ⟨vs, hrun, -, hperm⟩ := iterateAllSession_visits h (fun k s u => (0, (k, s) :: u)) []
  have hvs : stored kv = vs.reverse := hrun.trans ((callAll_collect vs []).trans (List.append_nil _))
  rw [hvs]
  exact (List.reverse_perm vs).trans (hperm (quiet_of_forall (fun _ _ hne => hne rfl) vs _))

theorem marked_iff {d : Daemon} {R : Registry} (h : SoundTable d R) :
    Marked d ↔ ∃ p ∈ stored d.kv, p.2.pollbitOn = bfdOn := by
  have hmem : ∀ k s, (k, s) ∈ stored d.kv ↔ d.kv.data (SessKey.codec.encode k) = some (BfdSess.codec.encode s) :=
    fun k s => by
      rw [(stored_perm h.table).mem_iff, Registry.mem_entries, h.table.sessions]
      exact (Option.map_injective BfdSess.codec.encode_injective).eq_iff.symm
  constructor
  · rintro ⟨k, s, hstored, hon⟩
    exact ⟨(k, s), (hmem k s).mpr hstored, hon⟩
  · rintro ⟨⟨k, s⟩, hstored, hon⟩
    exact ⟨k, s, (hmem k s).mp hstored, hon⟩

namespace Daemon

/-- A step that is no late final keeps the balance. -/
theorem step_finals {d : Daemon} {R : Registry} (h : SoundTable d R) {a : Action} (ha : ¬ LateFinal d a)
    (peer : SessKey) (hle : finals peer d.log ≤ polls peer d.log) :
    finals peer (step d a).log ≤ polls peer (step d a).log := by
  cases a with
  | tick results =>
    obtain ⟨vs, hsub, hsents, harrivals⟩ := sendBfdEvent_step h.table results
    have hquiet : ∀ p ∈ vs.reverse, p.2.pollbitOn ≠ bfdOn := by
      rintro ⟨k, s⟩ hp hon
      have hs := Registry.mem_entries.mp (hsub.subset (List.mem_reverse.mp hp))
      exact ha ⟨k, s, by rw [h.table.sessions, hs]; rfl, hon⟩
    simp only [step, finals, polls, hsents, harrivals, List.countP_append, finals_flatMap hquiet, Nat.zero_add]
    exact hle
  | recv cAddr pkt stack curms results =>
    rcases @recvBfdEvent_step d R cAddr sizeofSockaddrIn curms results pkt stack h.table (by decide) with
      ⟨-, heq⟩ | ⟨-, R', called, -, -, ho, hsents, harrivals⟩
    · rw [step, heq]
      exact hle
    · -- at most one session is sent for, and only if the packet polls
      have hcalled : called = [] ∨ (Bfd.ofPacket pkt).poll = 1 ∧ ∃ s, called = [s] := by
        generalize R.sess (keyt cAddr) = before at ho
        generalize R'.sess (keyt cAddr) = after at ho
        generalize (recvBfdEvent cAddr sizeofSockaddrIn pkt stack curms results d).2.localDiscriminatorIncr =
          incr' at ho
        cases ho with
        | nothing => exact .inl rfl
        | down hyour => exact .inl rfl
        | admin sess hstate => exact .inl rfl
        | known sess stored =>
          split
          · exact .inr ⟨‹_›, _, rfl⟩
          · exact .inl rfl
        | new hyour hdown stored =>
          split
          · exact .inr ⟨‹_›, _, rfl⟩
          · exact .inl rfl
      simp only [step, finals, polls, hsents, harrivals, List.countP_append, List.countP_cons] at hle ⊢
      rcases hcalled with rfl | ⟨hpoll, s, rfl⟩
      · rw [List.flatMap_nil, List.countP_nil]
        omega
      · have h1 := finals_transmission peer (keyt cAddr) s
        rw [List.flatMap_cons, List.flatMap_nil, List.append_nil]
        by_cases hk : keyt cAddr = peer
        · simp only [hk, hpoll, and_self, decide_true, if_true]
          rw [hk] at h1
          split at h1 <;> omega
        · rw [if_neg fun hn => hk hn.1] at h1
          omega

theorem foldl_finals (peer : SessKey) : ∀ (actions : List Action) {d : Daemon} {R : Registry}, SoundTable d R →
    finals peer d.log ≤ polls peer d.log →
    (∀ before a after, actions = before ++ a :: after → ¬ LateFinal (before.foldl step d) a) →
    finals peer (actions.foldl step d).log ≤ polls peer (actions.foldl step d).log
  | [], _, _, _, hle, _ => hle
  | a :: actions, d, R, h, hle, hlate => by
    obtain ⟨R₁, h₁⟩ := step_soundTable h a
    refine foldl_finals peer actions h₁ (step_finals h (hlate [] a actions rfl) peer hle) fun before b after heq => ?_
    exact hlate (a :: before) b after (by rw [heq]; rfl)

/-- Where no tick finds a session that is still marked, the finals to a peer never outnumber its polls. -/
theorem finals_le_polls (actions : List Action)
    (hlate : ∀ before a after, actions = before ++ a :: after → ¬ LateFinal (run before) a) :
    ∀ before after, actions = before ++ after → ∀ peer,
      finals peer (run before).log ≤ polls peer (run before).log := by
  rintro before after rfl peer
  refine foldl_finals peer before start_soundTable (Nat.le_refl _) fun before' a after' heq => ?_
  exact hlate before' a (after' ++ after) (by rw [heq, List.append_assoc]; rfl)

/-- Down, then Init with Poll. -/
def polled : List Action :=
  [.recv ⟨2, 3784, 0x0100007f, 0⟩ [0x20, 0x40, 3, 24, 7, 0, 0, 0, 0, 0, 0, 0, 0, 0, 0, 0, 0, 0, 0, 0, 0, 0, 0, 0]
      default 5 [],
    .recv ⟨2, 3784, 0x0100007f, 0⟩ [0x20, 0xa0, 3, 24, 7, 0, 0, 0, 0, 0, 0, 1, 0, 0, 0, 0, 0, 0, 0, 0, 0, 0, 0, 0]
      default 6 []]

/-- A tick between the packets, when no poll has come in yet. -/
theorem finals_le_polls_polled :
    (sents (run (polled.take 1 ++ .tick [] :: polled.drop 1)).log).length = 2 ∧
      finals ⟨0x0100007f, 3784, 0⟩ (run (polled.take 1 ++ .tick [] :: polled.drop 1)).log = 1 ∧
      finals ⟨0x0100007f, 3784, 0⟩ (run (polled.take 1 ++ .tick [] :: polled.drop 1)).log ≤
        polls ⟨0x0100007f, 3784, 0⟩ (run (polled.take 1 ++ .tick [] :: polled.drop 1)).log := by
  have hoff : ∀ p ∈ stored (run (polled.take 1)).kv, p.2.pollbitOn ≠ bfdOn := by decide +kernel
  have htick : ¬ LateFinal (run (polled.take 1)) (.tick []) := fun hmarked => by
    obtain ⟨R, hR⟩ := run_sound (polled.take 1)
    obtain ⟨p, hp, hon⟩ := (marked_iff hR).mp hmarked
    exact hoff p hp hon
  have hlate : ∀ before a after, polled.take 1 ++ .tick [] :: polled.drop 1 = before ++ a :: after →
      ¬ LateFinal (run before) a :=
    forall_split_cons id (forall_split_cons htick (forall_split_cons id forall_split_nil))
  exact ⟨by decide +kernel, by decide +kernel, finals_le_polls _ hlate _ [] (List.append_nil _).symm _⟩

/-- A tick after the poll: two finals for one poll. -/
theorem finals_exceed_polls : polls ⟨0x0100007f, 3784, 0⟩ (run (polled ++ [.tick []])).log = 1 ∧
    ¬ finals ⟨0x0100007f, 3784, 0⟩ (run (polled ++ [.tick []])).log ≤
      polls ⟨0x0100007f, 3784, 0⟩ (run (polled ++ [.tick []])).log := by
  decide +kernel

end Daemon

end NetworkBfd.Bfdd
