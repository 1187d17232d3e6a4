import NetworkBfd.Bfdd.Sound

/-!
# Why bfdd sends

bfdd stores a session for a peer only after a packet of that peer passed the checks, and sends to the BFD port of the
peer's address only: `run_caused` says so of every run, whether insertions succeed or not.
-/

namespace NetworkBfd.Bfdd

open Lib Smmr

/-- `dest` is the BFD port of the address of `peer`. -/
structure Aimed (peer : SessKey) (dest : SockaddrIn) : Prop where
  addr : dest.addr = peer.addr
  port : dest.port = htons bfddfltUdpport

section Step

variable {s : BfdSess} {bfd : Bfd} {curms incr : BitVec 64} {cAddr : SockaddrIn} {cAddrlen : BitVec 32}
  {stack : BfdSess}

theorem afterPacket_clientAddr (bfd : Bfd) (curms incr : BitVec 64) (s : BfdSess) :
    (afterPacket bfd curms incr s).clientAddr = s.clientAddr := by
  obtain ⟨on, discr, state, diag, poll, hframe⟩ := afterPacket_frame bfd curms incr s
  rw [hframe]
  rfl

theorem initSession_aimed (stack : BfdSess) (cAddr : SockaddrIn) (cAddrlen : BitVec 32) :
    Aimed (keyt cAddr) (initSession stack cAddr cAddrlen).clientAddr := ⟨rfl, rfl⟩

/-- What an accepted packet leaves is aimed at its sender. -/
theorem Outcome.aimed {before after : Option BfdSess} {incr' : BitVec 64} {called : List BfdSess}
    (ho : Outcome bfd cAddr cAddrlen stack curms incr before after incr' called)
    (h : ∀ s, before = some s → Aimed (keyt cAddr) s.clientAddr) :
    (∀ s, after = some s → Aimed (keyt cAddr) s.clientAddr) ∧ ∀ s ∈ called, Aimed (keyt cAddr) s.clientAddr := by
  cases ho with
  | nothing => exact ⟨h, fun s hs => (by cases hs)⟩
  | down hyour => exact ⟨fun s hs => Option.some.inj hs ▸ ⟨rfl, rfl⟩, fun s hs => (by cases hs)⟩
  | admin sess hstate => exact ⟨h, fun s hs => (by cases hs)⟩
  | known sess stored =>
    have hsess := h sess rfl
    have hafter : Aimed (keyt cAddr) (afterPacket bfd curms incr sess).clientAddr :=
      (afterPacket_clientAddr bfd curms incr sess).symm ▸ hsess
    refine ⟨fun s hs => ?_, fun s hs => ?_⟩
    · obtain rfl := Option.some.inj hs
      cases stored with
      | true => exact hafter
      | false => exact hsess
    · split at hs
      · exact List.mem_singleton.mp hs ▸ hafter
      · cases hs
  | new hyour hdown stored =>
    have hsess := initSession_aimed stack cAddr cAddrlen
    have hafter : Aimed (keyt cAddr) (afterPacket bfd curms incr (initSession stack cAddr cAddrlen)).clientAddr :=
      (afterPacket_clientAddr bfd curms incr _).symm ▸ hsess
    refine ⟨fun s hs => ?_, fun s hs => ?_⟩
    · obtain rfl := Option.some.inj hs
      cases stored with
      | true => exact hafter
      | false => exact hsess
    · split at hs
      · exact List.mem_singleton.mp hs ▸ hafter
      · cases hs

end Step

/-- Sessions and packets belong to peers that were heard, and are aimed at them. -/
structure Caused (d : Daemon) (R : Registry) : Prop where
  base : SoundTable d R
  stored : ∀ k s, R.sess k = some s → Aimed k s.clientAddr ∧ ∃ bfd, (k, bfd) ∈ arrivals d.log
  sent : ∀ p ∈ sents d.log, Aimed p.1 p.2.1 ∧ ∃ bfd, (p.1, bfd) ∈ arrivals d.log

namespace Daemon

theorem step_caused {d : Daemon} {R : Registry} (h : Caused d R) (a : Action) : ∃ R', Caused (step d a) R' := by
  cases a with
  | tick results =>
    obtain ⟨vs, hsub, hsents, harrivals⟩ := sendBfdEvent_step h.base.table results
    refine ⟨R, ⟨h.base.table, h.base.sound, h.base.incr⟩, fun k s hs => ?_, fun p hp => ?_⟩
    · rw [step, harrivals]
      exact h.stored k s hs
    · rw [step, hsents] at hp
      rw [step, harrivals]
      rcases List.mem_append.mp hp with hp | hp
      · obtain ⟨⟨k, s⟩, hmem, ht⟩ := List.mem_flatMap.mp hp
        obtain ⟨peer, dest, bfd⟩ := p
        obtain ⟨rfl, rfl, -⟩ := mem_transmission.mp ht
        exact h.stored _ s (Registry.mem_entries.mp (hsub.subset (List.mem_reverse.mp hmem)))
      · exact h.sent p hp
  | recv cAddr pkt stack curms results =>
    rcases @recvBfdEvent_step d R cAddr sizeofSockaddrIn curms results pkt stack h.base.table (by decide) with
      ⟨-, heq⟩ | ⟨hok, R', called, hR', hother, ho, hsents, harrivals⟩
    · rw [step, heq]
      exact ⟨R, h⟩
    · obtain ⟨hsound, -, hrange⟩ := ho.sound (recvAccepts_myDiscr hok) h.base.incr (h.base.sound _)
      obtain ⟨hafter, hcalled⟩ := ho.aimed fun s hs => (h.stored _ s hs).1
      have hself : ∃ bfd, (keyt cAddr, bfd) ∈ arrivals (step d (.recv cAddr pkt stack curms results)).log :=
        ⟨_, harrivals.symm ▸ List.mem_cons_self ..⟩
      have hmono : ∀ k, (∃ bfd, (k, bfd) ∈ arrivals d.log) →
          ∃ bfd, (k, bfd) ∈ arrivals (step d (.recv cAddr pkt stack curms results)).log := by
        rintro k ⟨bfd, hbfd⟩
        exact ⟨bfd, harrivals.symm ▸ List.mem_cons_of_mem _ hbfd⟩
      refine ⟨R', ⟨hR', fun k s hs => ?_, hrange⟩, fun k s hs => ?_, fun p hp => ?_⟩
      · by_cases hk : k = keyt cAddr
        · subst hk
          exact hsound s hs
        · exact h.base.sound k s (hother k hk ▸ hs)
      · by_cases hk : k = keyt cAddr
        · subst hk
          exact ⟨hafter s hs, hself⟩
        · obtain ⟨haimed, hheard⟩ := h.stored k s (hother k hk ▸ hs)
          exact ⟨haimed, hmono k hheard⟩
      · rw [step, hsents] at hp
        rcases List.mem_append.mp hp with hp | hp
        · obtain ⟨s, hmem, ht⟩ := List.mem_flatMap.mp hp
          obtain ⟨peer, dest, bfd⟩ := p
          obtain ⟨rfl, rfl, -⟩ := mem_transmission.mp ht
          exact ⟨hcalled s hmem, hself⟩
        · obtain ⟨haimed, hheard⟩ := h.sent p hp
          exact ⟨haimed, hmono p.1 hheard⟩

theorem foldl_caused : ∀ (actions : List Action) {d : Daemon} {R : Registry}, Caused d R →
    ∃ R', Caused (actions.foldl step d) R'
  | [], _, R, h => ⟨R, h⟩
  | a :: actions, _, _, h => by
    obtain ⟨R₁, h₁⟩ := step_caused h a
    exact foldl_caused actions h₁

theorem start_caused : Caused start Registry.empty :=
  ⟨start_soundTable, fun k s hs => (by cases hs), fun p hp => (by cases hp)⟩

/-- Every reachable table. -/
theorem run_caused (actions : List Action) : ∃ R, Caused (run actions) R := foldl_caused actions start_caused

end Daemon

end NetworkBfd.Bfdd
