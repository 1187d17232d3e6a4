import NetworkBfd.Bfdd.Sound

/-!
# The detection time

`detect_time` is stored with every packet and never read: a packet is processed from the stored state, whatever the
clock says (`recvBfdEvent_starts`). A step honours it (`Honoured`) where it finds no session whose time has run out
while it was not Down (`Overdue`), and, if the socket takes every packet, nowhere else (`detection_time_iff`).
-/

namespace NetworkBfd.Bfdd

open Lib Smmr

/-- One round of the loop in `main`, with the clock. -/
inductive Timed
  | recv (now : BitVec 64) (cAddr : SockaddrIn) (pkt : List Byte) (stack : BfdSess) (results : List Int)
  | tick (now : BitVec 64) (results : List Int)

namespace Timed

def now : Timed → BitVec 64
  | .recv now _ _ _ _ => now
  | .tick now _ => now

def action : Timed → Action
  | .recv now cAddr pkt stack results => .recv cAddr pkt stack now results
  | .tick _ results => .tick results

/-- No call of `sendto` fails. -/
def AllSent : Timed → Prop
  | .recv .. => True
  | .tick _ results => ∀ r ∈ results, 0 < r

end Timed

/-- The state from which a packet is processed. -/
def Event.start? : Event → Option (SessKey × BitVec 32)
  | .started peer state => some (peer, state)
  | _ => none

def starts (log : List Event) : List (SessKey × BitVec 32) := log.filterMap Event.start?

/-- A tick says Up for no session whose detection time is over, and a packet that comes after it is processed from
Down. -/
def Honoured (d : Daemon) : Timed → Prop
  | .tick now results => ∀ peer psess,
    d.kv.data (SessKey.codec.encode peer) = some (BfdSess.codec.encode psess) → psess.detectTime < now →
    ∀ new, sents (sendBfdEvent results d).log = new ++ sents d.log →
      ∀ dest bfd, (peer, dest, bfd) ∈ new → bfd.state ≠ BitVec.ofNat 2 bfdstateUp
  | .recv now cAddr pkt stack results => ∀ sess,
    d.kv.findSession cAddr sizeofSockaddrIn = some sess → sess.detectTime < now →
    ∀ new, starts (recvBfdEvent cAddr sizeofSockaddrIn pkt stack now results d).2.log = new ++ starts d.log →
      ∀ peer state, (peer, state) ∈ new → state = BitVec.ofNat 32 bfdstateDown

/-- The detection time of a session has run out: of one that is Up when a tick comes, or of one that is not Down when
its peer sends. -/
def Overdue (d : Daemon) : Timed → Prop
  | .tick now _ => ∃ peer psess,
    d.kv.data (SessKey.codec.encode peer) = some (BfdSess.codec.encode psess) ∧
      psess.sessionState = BitVec.ofNat 32 bfdstateUp ∧ psess.detectTime < now
  | .recv now cAddr pkt _ _ => recvAccepts pkt.length (Bfd.ofPacket pkt) = true ∧
    ∃ sess, d.kv.findSession cAddr sizeofSockaddrIn = some sess ∧
      sess.sessionState ≠ BitVec.ofNat 32 bfdstateDown ∧ sess.detectTime < now

/-! ## Ticks that reach every session -/

theorem iterateOnSession_quiet {peer : SessKey} {psess : BfdSess} {w : Wire} (h : ∀ r ∈ w.results, 0 < r) :
    (iterateOnSession peer psess w).1 = 0 ∧ ∀ r ∈ (iterateOnSession peer psess w).2.results, 0 < r := by
  unfold iterateOnSession
  dsimp only
  split
  · exact ⟨rfl, h⟩
  · split
    · exact ⟨rfl, h⟩
    · have hhead : 0 < w.results.headD bfdMinpktlen := by
        cases hr : w.results with
        | nil => decide
        | cons r rs => exact h r (by rw [hr]; exact List.mem_cons_self ..)
      exact ⟨if_pos hhead, fun r hr => h r (List.mem_of_mem_tail hr)⟩

theorem quiet_iterateOnSession : ∀ (vs : List (SessKey × BfdSess)) (w : Wire), (∀ r ∈ w.results, 0 < r) →
    Quiet (fun r : Int => r ≠ 0) (fun p => iterateOnSession p.1 p.2) vs w
  | [], _, _ => trivial
  | p :: vs, w, h => by
    obtain ⟨h1, h2⟩ := @iterateOnSession_quiet p.1 p.2 w h
    exact ⟨not_not.mpr h1, quiet_iterateOnSession vs _ h2⟩

/-- A tick sends for every stored session if the socket takes every packet. -/
theorem sendBfdEvent_all {d : Daemon} {R : Registry} (h : Represents d.kv R) {results : List Int}
    (hall : ∀ r ∈ results, 0 < r) :
    ∃ vs : List (SessKey × BfdSess), vs.Perm R.entries ∧
      sents (sendBfdEvent results d).log = vs.reverse.flatMap (fun p => transmission p.1 p.2) ++ sents d.log := by
  obtain ⟨vs, hrun, -, hperm⟩ := iterateAllSession_visits h iterateOnSession ⟨results, d.log⟩
  obtain ⟨h1, -⟩ := sents_callAll vs ⟨results, d.log⟩
  rw [← hrun] at h1
  exact ⟨vs, hperm (quiet_iterateOnSession vs ⟨results, d.log⟩ hall), h1⟩

/-! ## The start of a packet -/

theorem iterateOnSession_starts (peer : SessKey) (psess : BfdSess) (w : Wire) :
    starts (iterateOnSession peer psess w).2.log = starts w.log := by
  rcases iterateOnSession_log peer psess w with h | h
  · rw [h]
  · rw [h]
    rfl

theorem answerPoll_starts (peer : SessKey) (bfd : Bfd) (sess : BfdSess) (w : Wire) :
    starts (answerPoll peer bfd sess w).2.log = starts w.log := by
  unfold answerPoll
  split
  · exact iterateOnSession_starts ..
  · rfl

/-- An accepted packet is processed from the stored state. -/
theorem recvBfdEvent_starts {d : Daemon} {sess : BfdSess} {cAddr : SockaddrIn} {cAddrlen : BitVec 32}
    {pkt : List Byte} {stack : BfdSess} {curms : BitVec 64} {results : List Int}
    (hfind : d.kv.findSession cAddr cAddrlen = some sess)
    (hstate : sess.sessionState ≠ BitVec.ofNat 32 bfdstateAdmindown) :
    starts (recvBfdEvent cAddr cAddrlen pkt stack curms results d).2.log =
      (if recvAccepts pkt.length (Bfd.ofPacket pkt) = true then [(keyt cAddr, sess.sessionState)] else []) ++
        starts d.log := by
  simp only [recvBfdEvent]
  by_cases hok : recvAccepts pkt.length (Bfd.ofPacket pkt) = true
  · have hstart : ∀ curms incr, (recordPacket (Bfd.ofPacket pkt) curms (attach sess incr).1).sessionState =
        sess.sessionState := fun _ incr => attach_states sess incr
    rw [if_pos hok, if_pos hok]
    simp only [recvAccepted, hfind, recvOnSession, hstart]
    rw [if_neg hstate]
    exact answerPoll_starts ..
  · rw [if_neg hok, if_neg hok]
    rfl

/-! ## One step -/

/-- Up goes out for a sound session exactly if it is Up. -/
theorem Sound.outgoing_up {psess : BfdSess} (h : Sound psess) :
    (∃ bfd, outgoing psess = some bfd ∧ bfd.state = BitVec.ofNat 2 bfdstateUp) ↔
      psess.sessionState = BitVec.ofNat 32 bfdstateUp := by
  constructor
  · rintro ⟨bfd, hout, hup⟩
    obtain ⟨rfl, hon⟩ := outgoing_eq hout
    obtain ⟨-, hlocal, -⟩ := h.attached.resolve_left hon
    simp only [ctrlPacket, if_pos hlocal] at hup
    rcases h.states with hs | hs | hs
    · rw [hs] at hup
      exact absurd hup (by decide)
    · rw [hs] at hup
      exact absurd hup (by decide)
    · exact hs
  · intro hup
    have hon : psess.attached ≠ bfdOff := by
      intro hoff
      have hdown := h.waiting hoff
      rw [hup] at hdown
      exact absurd hdown (by decide)
    obtain ⟨-, hlocal, hremote⟩ := h.attached.resolve_left hon
    refine ⟨ctrlPacket psess, ?_, ?_⟩
    · unfold outgoing
      dsimp only
      rw [if_neg hon, if_neg]
      rintro ⟨hzero | hzero, -⟩
      · exact hremote hzero
      · exact hlocal hzero
    · simp only [ctrlPacket, if_pos hlocal, hup]
      rfl

section Step

variable {d : Daemon} {R : Registry} {t : Timed}

theorem SoundTable.not_admin (h : SoundTable d R) {cAddr : SockaddrIn} {sess : BfdSess}
    (hfind : d.kv.findSession cAddr sizeofSockaddrIn = some sess) :
    sess.sessionState ≠ BitVec.ofNat 32 bfdstateAdmindown := by
  rw [Kv.findSession_eq h.table cAddr (by decide)] at hfind
  rcases (h.sound _ sess hfind).states with hs | hs | hs <;> rw [hs] <;> decide

/-- Where nothing is overdue, the detection time is honoured. -/
theorem honoured_of_not_overdue (h : SoundTable d R) (hn : ¬ Overdue d t) : Honoured d t := by
  cases t with
  | tick now results =>
    intro peer psess hstored hlate new hnew dest bfd hmem hup
    obtain ⟨vs, hsub, hsents, -⟩ := sendBfdEvent_step h.table results
    rw [hsents] at hnew
    rw [← List.append_cancel_right hnew] at hmem
    obtain ⟨⟨k, s⟩, hv, ht⟩ := List.mem_flatMap.mp hmem
    obtain ⟨rfl, -, hout⟩ := mem_transmission.mp ht
    have hs := Registry.mem_entries.mp (hsub.subset (List.mem_reverse.mp hv))
    have hsame : psess = s := by
      rw [h.table.sessions, hs] at hstored
      exact (BfdSess.codec.encode_injective (Option.some.inj hstored)).symm
    subst hsame
    refine hn ⟨peer, psess, hstored, ?_, hlate⟩
    exact (h.sound peer psess hs).outgoing_up.mp ⟨bfd, hout, hup⟩
  | recv now cAddr pkt stack results =>
    intro sess hfind hlate new hnew peer state hmem
    rw [recvBfdEvent_starts hfind (h.not_admin hfind)] at hnew
    rw [← List.append_cancel_right hnew] at hmem
    split at hmem
    · rename_i hok
      obtain ⟨-, rfl⟩ := Prod.mk.inj (List.mem_singleton.mp hmem)
      by_contra hne
      exact hn ⟨hok, sess, hfind, hne, hlate⟩
    · cases hmem

/-- And only there, if no packet is lost. -/
theorem not_overdue_of_honoured (h : SoundTable d R) (hall : t.AllSent) (hh : Honoured d t) : ¬ Overdue d t := by
  cases t with
  | tick now results =>
    rintro ⟨peer, psess, hstored, hup, hlate⟩
    obtain ⟨vs, hperm, hsents⟩ := sendBfdEvent_all h.table hall
    have hs : R.sess peer = some psess := by
      rw [h.table.sessions] at hstored
      obtain ⟨s, hs, he⟩ := Option.map_eq_some_iff.mp hstored
      rw [hs, BfdSess.codec.encode_injective he]
    obtain ⟨bfd, hout, hbfd⟩ := (h.sound peer psess hs).outgoing_up.mpr hup
    refine hh peer psess hstored hlate _ hsents psess.clientAddr bfd (List.mem_flatMap.mpr ⟨(peer, psess), ?_, ?_⟩) hbfd
    · exact List.mem_reverse.mpr (hperm.mem_iff.mpr (Registry.mem_entries.mpr hs))
    · exact mem_transmission.mpr ⟨rfl, rfl, hout⟩
  | recv now cAddr pkt stack results =>
    rintro ⟨hok, sess, hfind, hne, hlate⟩
    have hstarts := @recvBfdEvent_starts d sess cAddr _ pkt stack now results hfind (h.not_admin hfind)
    rw [if_pos hok] at hstarts
    exact hne (hh sess hfind hlate _ hstarts (keyt cAddr) _ (List.mem_singleton_self _))

end Step

namespace Daemon

def runTimed (ts : List Timed) : Daemon := run (ts.map Timed.action)

/-- In every run, each step that finds nothing overdue honours the detection time; if the socket takes every packet, a
run honours it throughout exactly if no step of it finds a session overdue. -/
theorem detection_time_iff (ts : List Timed) :
    ((∀ before t after, ts = before ++ t :: after → ¬ Overdue (runTimed before) t) →
      ∀ before t after, ts = before ++ t :: after → Honoured (runTimed before) t) ∧
    ((∀ t ∈ ts, t.AllSent) →
      ((∀ before t after, ts = before ++ t :: after → Honoured (runTimed before) t) ↔
        ∀ before t after, ts = before ++ t :: after → ¬ Overdue (runTimed before) t)) := by
  have hgood : (∀ before t after, ts = before ++ t :: after → ¬ Overdue (runTimed before) t) →
      ∀ before t after, ts = before ++ t :: after → Honoured (runTimed before) t := by
    intro hn before t after heq
    obtain ⟨R, h⟩ := run_sound (before.map Timed.action)
    exact honoured_of_not_overdue h (hn before t after heq)
  refine ⟨hgood, fun hall => ⟨fun hh before t after heq => ?_, hgood⟩⟩
  obtain ⟨R, h⟩ := run_sound (before.map Timed.action)
  refine not_overdue_of_honoured h (hall t ?_) (hh before t after heq)
  rw [heq]
  exact List.mem_append_right _ (List.mem_cons_self ..)

/-- Down and Init, then a tick just after the detection time. -/
def silent : List Timed :=
  [.recv 5 ⟨2, 3784, 0x0100007f, 0⟩ [0x20, 0x40, 3, 24, 7, 0, 0, 0, 0, 0, 0, 0, 0, 0, 0, 0, 0, 0, 0, 0, 0, 0, 0, 0]
      default [],
    .recv 6 ⟨2, 3784, 0x0100007f, 0⟩ [0x20, 0x80, 3, 24, 7, 0, 0, 0, 0, 0, 0, 1, 0, 0, 0, 0, 0, 0, 0, 0, 0, 0, 0, 0]
      default []]

/-- The session is Up with its time at 3000006, and the tick at 3000007 still says Up. -/
theorem detection_time_ignored : (silent ++ [Timed.tick 3000007 []]).Pairwise (fun t u => t.now ≤ u.now) ∧
    ¬ ∀ before t after, silent ++ [Timed.tick 3000007 []] = before ++ t :: after → Honoured (runTimed before) t := by
  refine ⟨by decide, fun hh => ?_⟩
  have hstored : ((runTimed silent).kv.findSession ⟨2, 3784, 0x0100007f, 0⟩ sizeofSockaddrIn).map
      (fun s => (s.sessionState, s.detectTime)) = some (BitVec.ofNat 32 bfdstateUp, 3000006) := by decide +kernel
  obtain ⟨s, hs, he⟩ := Option.map_eq_some_iff.mp hstored
  obtain ⟨hup, htime⟩ := Prod.mk.inj he
  obtain ⟨R, h⟩ := run_sound (silent.map Timed.action)
  rw [runTimed, Kv.findSession_eq h.table _ (by decide)] at hs
  refine not_overdue_of_honoured h ?_ (hh silent (.tick 3000007 []) [] rfl)
    ⟨_, s, (h.table.sessions _).trans (congrArg _ hs), hup, ?_⟩
  · intro r hr
    cases hr
  · rw [htime]
    decide

end Daemon

end NetworkBfd.Bfdd
