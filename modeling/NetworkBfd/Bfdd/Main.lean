import NetworkBfd.Bfdd.Polls
import Mathlib.Algebra.Order.Ring.Nat

/-!
# The loop in main

`main` waits for a datagram or for the end of the waiting time; only then, and if `delay` has passed since the last
time, it calls `send_bfd_event`. However packets and timeouts come, the daemon is one after a run (`Paced`,
`foldl_paced`), and it sends to a peer at most once in each period of `delay`, besides one answer to each poll
(`sent_le`). While datagrams keep coming it sends nothing else.
-/

namespace NetworkBfd.Bfdd

open Lib Smmr

/-- `ETHER_MAX_LEN`, the size of `bf`. -/
@[simp] def etherMaxLen : Nat := 1518

/-- One pass through the loop: what `select` and `recvfrom` brought, or the clock before and after `send_bfd_event`. -/
inductive Pass
  | packet (cAddr : SockaddrIn) (datagram : List Byte) (stack : BfdSess) (curms : BitVec 64) (results : List Int)
  | failed
  | idle (now : BitVec 64) (results : List Int) (after : BitVec 64)

namespace Pass

/-- What `get_microsecond` returns in a pass. Where nothing is sent, the second reading is not made. -/
def readings : Pass → List (BitVec 64)
  | packet _ _ _ curms _ => [curms]
  | failed => []
  | idle now _ after => [now, after]

/-- The last reading, where the one before the pass was `t`. -/
def last (t : BitVec 64) : Pass → BitVec 64
  | packet _ _ _ curms _ => curms
  | failed => t
  | idle _ _ after => after

def isIdle : Pass → Bool
  | idle .. => true
  | _ => false

theorem last_mem (t : BitVec 64) (p : Pass) : p.last t ∈ t :: p.readings := by
  cases p with
  | packet cAddr datagram stack curms results => exact List.mem_cons_of_mem _ (List.mem_singleton_self _)
  | failed => exact List.mem_cons_self ..
  | idle now results after => exact List.mem_cons_of_mem _ (List.mem_cons_of_mem _ (List.mem_singleton_self _))

theorem le_last {t : BitVec 64} (p : Pass) (hclock : (t :: p.readings).Pairwise (· ≤ ·)) : t ≤ p.last t := by
  rcases List.mem_cons.mp (p.last_mem t) with he | hmem
  · rw [he]
    exact BitVec.le_refl t
  · exact List.rel_of_pairwise_cons hclock hmem

end Pass

/-- The variables of `main`. -/
structure Main where
  daemon : Daemon
  ptime : BitVec 64
  running : Bool

namespace Main

def start (now : BitVec 64) : Main := ⟨Daemon.start, now, true⟩

/-- The body of the loop. -/
def pass (delay : BitVec 32) (m : Main) (p : Pass) : Main :=
  if m.running then
    match p with
    | .packet cAddr datagram stack curms results =>
      { m with daemon := m.daemon.step (.recv cAddr (datagram.take etherMaxLen) stack curms results) }
    | .failed => { m with running := false }
    | .idle now results after =>
      if delay.signExtend 64 < now - m.ptime then { m with daemon := m.daemon.step (.tick results), ptime := after }
      else m
  else m

def run (delay : BitVec 32) (now : BitVec 64) (passes : List Pass) : Main := passes.foldl (pass delay) (start now)

end Main

/-- The packets that went to `peer`. -/
def sentTo (peer : SessKey) (log : List Event) : Nat := (sents log).countP fun p => p.1 = peer

/-! ## Steps of the daemon -/

theorem sentTo_transmission (peer k : SessKey) (psess : BfdSess) :
    (transmission k psess).countP (fun p => p.1 = peer) ≤ if k = peer then 1 else 0 := by
  unfold transmission
  cases outgoing psess with
  | none => exact Nat.zero_le _
  | some bfd =>
    simp only [Option.toList_some, List.map_cons, List.map_nil, List.countP_singleton, decide_eq_true_eq]
    exact Nat.le_refl _

/-- A list of sessions sends to a peer as often as it names it. -/
theorem sentTo_flatMap (peer : SessKey) : ∀ vs : List (SessKey × BfdSess),
    (vs.flatMap fun p => transmission p.1 p.2).countP (fun p => p.1 = peer) ≤ (vs.map Prod.fst).count peer
  | [] => Nat.le_refl _
  | p :: vs => by
    have ih := sentTo_flatMap peer vs
    have hp := sentTo_transmission peer p.1 p.2
    rw [List.flatMap_cons, List.countP_append, List.map_cons, List.count_cons]
    simp only [beq_iff_eq]
    omega

/-- What an accepted packet makes `iterate_on_session` be called on: one session if it polls. -/
theorem Outcome.called {bfd : Bfd} {cAddr : SockaddrIn} {cAddrlen : BitVec 32} {stack : BfdSess}
    {curms incr : BitVec 64} {before after : Option BfdSess} {incr' : BitVec 64} {called : List BfdSess}
    (ho : Outcome bfd cAddr cAddrlen stack curms incr before after incr' called) :
    called.length ≤ if bfd.poll = 1 then 1 else 0 := by
  cases ho with
  | nothing => exact Nat.zero_le _
  | down hyour => exact Nat.zero_le _
  | admin sess hstate => exact Nat.zero_le _
  | known sess stored => split <;> exact Nat.le_refl _
  | new hyour hdown stored => split <;> exact Nat.le_refl _

section Step

variable {d : Daemon} {R : Registry}

/-- A tick sends to a peer once at most. -/
theorem tick_sentTo (h : SoundTable d R) (results : List Int) (peer : SessKey) :
    sentTo peer (d.step (.tick results)).log ≤ sentTo peer d.log + 1 ∧
      polls peer (d.step (.tick results)).log = polls peer d.log := by
  obtain ⟨vs, hsub, hsents, harrivals⟩ := sendBfdEvent_step h.table results
  have hvs := sentTo_flatMap peer vs.reverse
  have hone : (vs.reverse.map Prod.fst).count peer ≤ 1 := by
    refine List.nodup_iff_count_le_one.mp ?_ peer
    obtain ⟨l, hperm, hsublist⟩ := hsub
    rw [List.map_reverse, List.nodup_reverse, ← (hperm.map Prod.fst).nodup_iff]
    exact R.nodup_entries.sublist (hsublist.map Prod.fst)
  constructor
  · simp only [Daemon.step, sentTo, hsents, List.countP_append]
    omega
  · rw [Daemon.step, polls, harrivals, polls]

/-- A packet is answered to its sender, if it polls. -/
theorem recv_sentTo (h : SoundTable d R) (cAddr : SockaddrIn) (pkt : List Byte) (stack : BfdSess) (curms : BitVec 64)
    (results : List Int) (peer : SessKey) :
    sentTo peer (d.step (.recv cAddr pkt stack curms results)).log + polls peer d.log ≤
      sentTo peer d.log + polls peer (d.step (.recv cAddr pkt stack curms results)).log := by
  rcases @recvBfdEvent_step d R cAddr sizeofSockaddrIn curms results pkt stack h.table (by decide) with
    ⟨-, heq⟩ | ⟨-, R', called, -, -, ho, hsents, harrivals⟩
  · rw [Daemon.step, heq]
  · have hcalled := ho.called
    have hcount := sentTo_flatMap peer (called.map (Prod.mk (keyt cAddr)))
    rw [List.flatMap_map, List.map_map] at hcount
    have hnames : (called.map (Prod.fst ∘ Prod.mk (keyt cAddr))).count peer ≤
        if keyt cAddr = peer then called.length else 0 := by
      split
      · exact List.count_le_length.trans (List.length_map _).le
      · rename_i hne
        refine (List.count_eq_zero.mpr fun hmem => ?_).le
        obtain ⟨s, -, hs⟩ := List.mem_map.mp hmem
        exact hne hs
    have hnew : (called.flatMap (transmission (keyt cAddr))).countP (fun p => p.1 = peer) ≤
        if keyt cAddr = peer ∧ (Bfd.ofPacket pkt).poll = 1 then 1 else 0 := by
      refine hcount.trans (hnames.trans ?_)
      by_cases hpeer : keyt cAddr = peer
      · rw [if_pos hpeer]
        simpa only [hpeer, true_and] using hcalled
      · rw [if_neg hpeer]
        exact Nat.zero_le _
    simp only [Daemon.step, sentTo, polls, hsents, harrivals, List.countP_append, List.countP_cons, decide_eq_true_eq]
    omega

end Step

/-! ## Runs of the loop -/

/-- After a reading `t` of the clock that started at `t0`, `k` ticks have come, more than `delay` apart. -/
structure Paced (delay : BitVec 32) (t0 t : BitVec 64) (k : Nat) (m : Main) : Prop where
  table : ∃ R, SoundTable m.daemon R
  past : m.ptime ≤ t
  apart : t0.toNat + k * ((delay.signExtend 64).toNat + 1) ≤ m.ptime.toNat
  sent : ∀ peer, sentTo peer m.daemon.log ≤ k + polls peer m.daemon.log

namespace Main

theorem start_paced (delay : BitVec 32) (t0 : BitVec 64) : Paced delay t0 t0 0 (start t0) :=
  ⟨⟨_, Daemon.start_soundTable⟩, BitVec.le_refl t0, by rw [Nat.zero_mul]; exact Nat.le_refl _, fun _ => Nat.zero_le _⟩

/-- One pass: a tick more, or none. -/
theorem pass_paced {delay : BitVec 32} {t0 t : BitVec 64} {k : Nat} {m : Main} (h : Paced delay t0 t k m) (p : Pass)
    (hclock : (t :: p.readings).Pairwise (· ≤ ·)) :
    ∃ k', Paced delay t0 (p.last t) k' (pass delay m p) ∧ k' ≤ k + if p.isIdle then 1 else 0 := by
  obtain ⟨R, hR⟩ := h.table
  have hkeep : Paced delay t0 (p.last t) k m := ⟨h.table, BitVec.le_trans h.past (p.le_last hclock), h.apart, h.sent⟩
  unfold pass
  by_cases hrunning : m.running = true
  · rw [if_pos hrunning]
    cases p with
    | failed => exact ⟨k, ⟨hkeep.table, hkeep.past, hkeep.apart, hkeep.sent⟩, Nat.le_refl _⟩
    | packet cAddr datagram stack curms results =>
      obtain ⟨R', hR'⟩ := Daemon.step_soundTable hR (.recv cAddr (datagram.take etherMaxLen) stack curms results)
      refine ⟨k, ⟨⟨R', hR'⟩, hkeep.past, hkeep.apart, fun peer => ?_⟩, Nat.le_refl _⟩
      have hsent := h.sent peer
      have hrecv := recv_sentTo hR cAddr (datagram.take etherMaxLen) stack curms results peer
      dsimp only
      omega
    | idle now results after =>
      dsimp only
      by_cases hdue : delay.signExtend 64 < now - m.ptime
      · have hnow : t ≤ now := List.rel_of_pairwise_cons hclock (List.mem_cons_self ..)
        have hnow' : now ≤ after := List.rel_of_pairwise_cons hclock.of_cons (List.mem_singleton_self _)
        rw [if_pos hdue]
        refine ⟨k + 1, ⟨⟨R, hR.table, hR.sound, hR.incr⟩, ?_, ?_, fun peer => ?_⟩, Nat.le_refl _⟩
        · exact BitVec.le_refl after
        · -- the subtraction does not wrap
          have hpast := BitVec.le_trans h.past hnow
          have hapart := h.apart
          simp only [BitVec.lt_def, BitVec.le_def, BitVec.toNat_sub] at hdue hpast hnow' ⊢
          have hlt := now.isLt
          rw [Nat.add_mul, Nat.one_mul]
          omega
        · obtain ⟨hsent, hpolls⟩ := tick_sentTo hR results peer
          have hle := h.sent peer
          dsimp only
          rw [hpolls]
          omega
      · rw [if_neg hdue]
        exact ⟨k, hkeep, Nat.le_add_right _ _⟩
  · rw [if_neg hrunning]
    exact ⟨k, hkeep, Nat.le_add_right _ _⟩

theorem foldl_paced {delay : BitVec 32} {t0 t1 : BitVec 64} :
    ∀ (passes : List Pass) {t : BitVec 64} {k : Nat} {m : Main},
    Paced delay t0 t k m → (t :: (passes.flatMap Pass.readings ++ [t1])).Pairwise (· ≤ ·) →
    ∃ k', Paced delay t0 t1 k' (passes.foldl (pass delay) m) ∧ k' ≤ k + passes.countP Pass.isIdle
  | [], t, k, m, h, hclock => by
    have hle : t ≤ t1 := List.rel_of_pairwise_cons hclock (List.mem_singleton_self t1)
    exact ⟨k, ⟨h.table, BitVec.le_trans h.past hle, h.apart, h.sent⟩, Nat.le_refl _⟩
  | p :: passes, t, k, m, h, hclock => by
    rw [List.flatMap_cons, List.append_assoc, ← List.cons_append, List.pairwise_append] at hclock
    obtain ⟨k₁, h₁, hk₁⟩ := pass_paced h p hclock.1
    obtain ⟨k', h', hk'⟩ := foldl_paced passes h₁
      (List.pairwise_cons.mpr ⟨fun u hu => hclock.2.2 _ (p.last_mem t) u hu, hclock.2.1⟩)
    refine ⟨k', h', ?_⟩
    rw [List.countP_cons]
    omega

/-- However datagrams and waiting times come, while the clock goes from `t0` to `t1` the daemon sends to a peer at most
once in each period of more than `delay`, and once for each poll of the peer. Without a waiting time it sends for polls
only. -/
theorem sent_le (delay : BitVec 32) (passes : List Pass) {t0 t1 : BitVec 64}
    (hclock : (t0 :: (passes.flatMap Pass.readings ++ [t1])).Pairwise (· ≤ ·)) (peer : SessKey) :
    sentTo peer (run delay t0 passes).daemon.log ≤
      (t1.toNat - t0.toNat) / ((delay.signExtend 64).toNat + 1) + polls peer (run delay t0 passes).daemon.log ∧
    sentTo peer (run delay t0 passes).daemon.log ≤
      passes.countP Pass.isIdle + polls peer (run delay t0 passes).daemon.log := by
  obtain ⟨k, h, hk⟩ := foldl_paced passes (start_paced delay t0) hclock
  have hsent := h.sent peer
  have hpast := h.past
  have hapart := h.apart
  simp only [BitVec.le_def] at hpast
  have hperiods : k ≤ (t1.toNat - t0.toNat) / ((delay.signExtend 64).toNat + 1) :=
    (Nat.le_div_iff_mul_le (Nat.lt_add_one_of_le (Nat.zero_le _))).mpr (by omega)
  rw [run]
  omega

/-- Down from a peer, and waiting times before and after the first second. -/
def second : List Pass :=
  [.packet ⟨2, 3784, 0x0100007f, 0⟩ [0x20, 0x40, 3, 24, 7, 0, 0, 0, 0, 0, 0, 0, 0, 0, 0, 0, 0, 0, 0, 0, 0, 0, 0, 0]
    default 5 [], .idle 900000 [] 900000, .idle 1000002 [] 1000003, .idle 1900000 [] 1900000]

theorem sent_le_second :
    sentTo ⟨0x0100007f, 3784, 0⟩ (run 1000000 1 second).daemon.log = 1 ∧
      sentTo ⟨0x0100007f, 3784, 0⟩ (run 1000000 1 second).daemon.log ≤
        1 + polls ⟨0x0100007f, 3784, 0⟩ (run 1000000 1 second).daemon.log := by
  refine ⟨by decide +kernel, ?_⟩
  have h := (sent_le 1000000 second (show ((1 : BitVec 64) :: (second.flatMap Pass.readings ++ [1900000])).Pairwise
    (· ≤ ·) by decide) ⟨0x0100007f, 3784, 0⟩).1
  rwa [show ((1900000 : BitVec 64).toNat - (1 : BitVec 64).toNat) /
    (((1000000 : BitVec 32).signExtend 64).toNat + 1) = 1 by decide] at h

end Main

end NetworkBfd.Bfdd
