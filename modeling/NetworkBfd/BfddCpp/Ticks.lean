import NetworkBfd.BfddCpp.Agree
import Mathlib.Data.Finset.Sort
import Mathlib.Data.Fintype.Basic

/-!
# The rounds of on_bfd_thread

What a session remembers of the packets of its peer (`Remembers`), over every run of packets and rounds. A round writes
to a live peer exactly if no packet on the session had Final set: `must_terminate` is never reset
(`round_transmits_iff`).
-/

namespace NetworkBfd.BfddCpp

open Lib Smmr Bfdd

/-- A datagram, or a round of `on_bfd_thread`. -/
inductive Action
  | recieve (endpR : Endpoint) (pkt : List Byte) (curms : BitVec 64)
  | tick (curms : BitVec 64) (itrs : List (BitVec 64))

namespace BfdSessionManager

def step (m : BfdSessionManager) : Action → BfdSessionManager
  | .recieve endpR pkt curms => recieve endpR pkt curms m
  | .tick curms itrs => onBfdThread curms itrs m

def run (actions : List Action) : BfdSessionManager := actions.foldl step new

theorem run_concat (actions : List Action) (a : Action) : run (actions ++ [a]) = step (run actions) a := by
  rw [run, List.foldl_append]
  rfl

/-- The iterator goes through the sessions in the order of the map. -/
structure Iterates (m : BfdSessionManager) (itrs : List (BitVec 64)) : Prop where
  ascending : itrs.Pairwise (· < ·)
  mem : ∀ k, k ∈ itrs ↔ (m.bfdSessions k).isSome

theorem exists_iterates (m : BfdSessionManager) : ∃ itrs, Iterates m itrs := by
  let keys : Finset (Fin (2 ^ 64)) := Finset.univ.filter fun k => (m.bfdSessions (BitVec.ofFin k)).isSome
  refine ⟨(keys.sort (· ≤ ·)).map BitVec.ofFin, ?_, fun k => ?_⟩
  · rw [List.pairwise_map]
    exact keys.sortedLT_sort.pairwise
  · simp only [List.mem_map, Finset.mem_sort, keys, Finset.mem_filter, Finset.mem_univ, true_and]
    constructor
    · rintro ⟨i, hi, rfl⟩
      exact hi
    · exact fun hk => ⟨k.toFin, hk, rfl⟩

/-- The round for the session of `endp` writes `bfd` to its connection. -/
def Transmitted (curms : BitVec 64) (itrs : List (BitVec 64)) (m : BfdSessionManager) (endp : Endpoint) (conn : Conn)
    (bfd : Bfd) : Prop :=
  ∃ before after, itrs = before ++ makeUll endp.address endp.port :: after ∧
    (visit curms (onBfdThread curms before m) (makeUll endp.address endp.port)).log =
      (conn.udpendp, bfd) :: (onBfdThread curms before m).log

end BfdSessionManager

/-! ## The history of a peer -/

namespace Action

/-- The packet of an action, if `endp` sent it and it passed the checks. -/
def acceptedFrom (endp : Endpoint) : Action → Option Bfd
  | recieve endpR pkt _ =>
    if endpR = endp ∧ recieveAccepts pkt.length (Bfd.ofPacket pkt) = true then some (Bfd.ofPacket pkt) else none
  | tick _ _ => none

/-- The packets from `endp` that passed the checks, oldest first. -/
def accepted (endp : Endpoint) (actions : List Action) : List Bfd := actions.filterMap (acceptedFrom endp)

/-- The packets on a session, newest first: the one that names a session which is not there makes it, and is not on
it. -/
def hear : Option (List Bfd) → Bfd → Option (List Bfd)
  | some bfds, bfd => some (bfd :: bfds)
  | none, bfd =>
    if bfd.yourDiscr ≠ 0 then some []
    else if bfd.state = BitVec.ofNat 2 bfdstateDown then some [bfd]
    else none

/-- The packets on the session of `endp`, if it has one. -/
def heard (endp : Endpoint) (actions : List Action) : Option (List Bfd) := (accepted endp actions).foldl hear none

theorem accepted_concat (endp : Endpoint) (actions : List Action) (a : Action) :
    accepted endp (actions ++ [a]) = accepted endp actions ++ (a.acceptedFrom endp).toList := by
  rw [accepted, List.filterMap_append]
  cases h : a.acceptedFrom endp with
  | none => simp [accepted, h]
  | some bfd => simp [accepted, h]

theorem heard_concat (endp : Endpoint) (actions : List Action) (a : Action) :
    heard endp (actions ++ [a]) = (a.acceptedFrom endp).toList.foldl hear (heard endp actions) := by
  rw [heard, accepted_concat, List.foldl_append]
  rfl

end Action

namespace BfdSessionManager

/-! ## What a session remembers -/

/-- The session after the packets `bfds` on it, newest first. -/
structure Remembers (psess : BfdSession) (bfds : List Bfd) : Prop where
  echo : psess.mustCeaseTxEcho = bfdOff
  terminate : psess.mustTerminate = bfdOff ↔ ∀ bfd ∈ bfds, bfd.final = 0
  discr : psess.remoteDiscr ≠ 0
  interval : psess.conn.isSome → ∃ bfd, bfds.head? = some bfd ∧ psess.remoteMinRxInterval = bfd.minRxInt

section Step

variable {endpR : Endpoint} {bfd : Bfd} {curms incr : BitVec 64} {psess : BfdSession} {bfds : List Bfd}

/-- The fields that `on_bfd_thread` reads, after a packet. -/
theorem afterPacket_remembered (endpR : Endpoint) (bfd : Bfd) (curms incr : BitVec 64) (s : BfdSession) :
    (afterPacket endpR bfd curms incr s).mustCeaseTxEcho = s.mustCeaseTxEcho ∧
      (afterPacket endpR bfd curms incr s).mustTerminate = (if bfd.final ≠ 0 then bfdOn else s.mustTerminate) ∧
      (afterPacket endpR bfd curms incr s).remoteDiscr = bfd.myDiscr ∧
      (afterPacket endpR bfd curms incr s).remoteMinRxInterval = bfd.minRxInt := by
  obtain ⟨conn, discr, state, diag, poll, hframe⟩ := afterPacket_frame endpR bfd curms incr s
  rw [hframe]
  exact ⟨rfl, rfl, rfl, rfl⟩

/-- One more packet on the session. -/
theorem afterPacket_remembers (hecho : psess.mustCeaseTxEcho = bfdOff)
    (hterm : psess.mustTerminate = bfdOff ↔ ∀ b ∈ bfds, b.final = 0) (hmy : bfd.myDiscr ≠ 0) :
    Remembers (afterPacket endpR bfd curms incr psess) (bfd :: bfds) := by
  obtain ⟨h1, h2, h3, h4⟩ := afterPacket_remembered endpR bfd curms incr psess
  refine ⟨h1.trans hecho, ?_, fun hz => hmy (h3.symm.trans hz), fun _ => ⟨bfd, rfl, h4⟩⟩
  rw [h2, List.forall_mem_cons]
  split
  · rename_i hfinal
    exact ⟨fun he => absurd he (by decide), fun hall => absurd hall.1 hfinal⟩
  · rename_i hfinal
    rw [hterm]
    exact ⟨fun hall => ⟨not_not.mp hfinal, hall⟩, fun hall => hall.2⟩

theorem downSession_remembers (endpR : Endpoint) (hmy : bfd.myDiscr ≠ 0) : Remembers (downSession endpR bfd) [] :=
  ⟨rfl, ⟨fun _ b hb => (by cases hb), fun _ => rfl⟩, hmy, fun hc => (by cases hc)⟩

end Step

/-- The sessions that are there, and what they remember. -/
def Remembering (m : BfdSessionManager) (history : Endpoint → Option (List Bfd)) : Prop :=
  ∀ endp, Option.Rel Remembers (m.findUnsafe endp.address endp.port) (history endp)

theorem recieveAccepts_myDiscr {size : Nat} {bfd : Bfd} (h : recieveAccepts size bfd = true) : bfd.myDiscr ≠ 0 := by
  unfold recieveAccepts at h
  split_ifs at h
  assumption

/-- The rounds leave the sessions. -/
theorem visit_bfdSessions (curms : BitVec 64) (m : BfdSessionManager) (itr : BitVec 64) :
    (visit curms m itr).bfdSessions = m.bfdSessions := by
  unfold visit
  split
  · split_ifs
    · exact transmitUnsafe_bfdSessions _ m
    · rfl
    · rfl
  · rfl

theorem onBfdThread_bfdSessions (curms : BitVec 64) : ∀ (itrs : List (BitVec 64)) (m : BfdSessionManager),
    (onBfdThread curms itrs m).bfdSessions = m.bfdSessions
  | [], _ => rfl
  | itr :: itrs, m => (onBfdThread_bfdSessions curms itrs (visit curms m itr)).trans (visit_bfdSessions curms m itr)

/-- The session of a peer after its packet. -/
theorem nextSession_remembers {endpR : Endpoint} {bfd : Bfd} {curms incr : BitVec 64} {before : Option BfdSession}
    {bfds : Option (List Bfd)} (h : Option.Rel Remembers before bfds) (hmy : bfd.myDiscr ≠ 0) :
    Option.Rel Remembers (nextSession endpR bfd curms incr before) (Action.hear bfds bfd) := by
  cases h with
  | some h => exact .some (afterPacket_remembers h.echo h.terminate hmy)
  | none =>
    simp only [nextSession, Action.hear]
    split
    · exact .some (downSession_remembers endpR hmy)
    · split
      · exact .some (afterPacket_remembers rfl ⟨fun _ b hb => (by cases hb), fun _ => rfl⟩ hmy)
      · exact .none

theorem step_remembering {m : BfdSessionManager} {history : Endpoint → Option (List Bfd)} (h : Remembering m history)
    (a : Action) :
    Remembering (step m a) fun endp => (a.acceptedFrom endp).toList.foldl Action.hear (history endp) := by
  intro endp
  cases a with
  | tick curms itrs =>
    rw [step, findUnsafe, onBfdThread_bfdSessions]
    exact h endp
  | recieve endpR pkt curms =>
    simp only [step, recieve, Action.acceptedFrom]
    by_cases hok : recieveAccepts pkt.length (Bfd.ofPacket pkt) = true
    · rw [if_pos hok, findUnsafe, onBfdRecieved_bfdSessions]
      by_cases he : endpR = endp
      · subst he
        rw [if_pos ⟨rfl, hok⟩, Function.update_self]
        exact nextSession_remembers (h endpR) (recieveAccepts_myDiscr hok)
      · have hkey : makeUll endp.address endp.port ≠ makeUll endpR.address endpR.port := by
          intro hk
          obtain ⟨haddr, hport⟩ := makeUll_injective hk
          apply he
          cases endp
          cases endpR
          exact (Endpoint.mk.injEq ..).mpr ⟨haddr.symm, hport.symm⟩
        rw [if_neg fun hn => he hn.1, Function.update_of_ne hkey]
        exact h endp
    · rw [if_neg hok, if_neg fun hn => hok hn.2]
      exact h endp

/-- What the sessions remember, after every run. -/
theorem run_remembering (actions : List Action) : Remembering (run actions) fun endp => Action.heard endp actions := by
  induction actions using List.reverseRecOn with
  | nil => exact fun endp => .none
  | append_singleton actions a ih =>
    rw [run_concat]
    simp only [Action.heard_concat]
    exact step_remembering ih a

/-- The newest packet on a session is the newest of its peer. -/
theorem head_heard {endp : Endpoint} {actions : List Action} {bfds : List Bfd} {bfd : Bfd}
    (h : Action.heard endp actions = some bfds) (hhead : bfds.head? = some bfd) :
    (Action.accepted endp actions).getLast? = some bfd := by
  unfold Action.heard at h
  rcases List.eq_nil_or_concat (Action.accepted endp actions) with hnil | ⟨before, last, hlast⟩
  · rw [hnil] at h
    cases h
  · rw [hlast, List.concat_eq_append] at h ⊢
    rw [List.getLast?_append, List.getLast?_singleton, Option.some_or]
    rw [List.foldl_append] at h
    simp only [List.foldl_cons, List.foldl_nil] at h
    cases hb : before.foldl Action.hear none with
    | some bs =>
      rw [hb] at h
      obtain rfl := Option.some.inj h
      exact hhead
    | none =>
      rw [hb] at h
      simp only [Action.hear] at h
      split_ifs at h
      · obtain rfl := Option.some.inj h
        cases hhead
      · obtain rfl := Option.some.inj h
        exact hhead

/-! ## Rounds -/

/-- A session with a connection and a peer is written to. -/
theorem transmitUnsafe_log {psess : BfdSession} {conn : Conn} (m : BfdSessionManager) (hconn : psess.conn = some conn)
    (hdiscr : psess.remoteDiscr ≠ 0) : (transmitUnsafe psess m).log = (conn.udpendp, ctrlPacket psess) :: m.log := by
  have hsent : ¬(((ctrlPacket psess).yourDiscr = 0 ∨ (ctrlPacket psess).myDiscr = 0) ∧
      (ctrlPacket psess).state ≠ BitVec.ofNat 2 bfdstateDown) := by
    rintro ⟨hzero | hzero, hstate⟩
    · exact hdiscr hzero
    · exact hstate (if_neg (not_not.mpr hzero))
  unfold transmitUnsafe
  dsimp only
  rw [if_neg hsent, hconn]

/-- The guard of `on_bfd_thread`, on the session of a live peer. -/
theorem visit_log_iff {m : BfdSessionManager} {psess : BfdSession} {conn : Conn} {bfds : List Bfd} {bfd : Bfd}
    {curms itr : BitVec 64} (hfind : m.bfdSessions itr = some psess) (h : Remembers psess bfds)
    (hconn : psess.conn = some conn) (hhead : bfds.head? = some bfd) (hmin : bfd.minRxInt ≠ 0)
    (hlive : curms < psess.detectTime) :
    (visit curms m itr).log = (conn.udpendp, ctrlPacket psess) :: m.log ↔ ∀ b ∈ bfds, b.final = 0 := by
  obtain ⟨bfd', hhead', hinterval⟩ := h.interval (by rw [hconn]; rfl)
  rw [hhead] at hhead'
  obtain rfl := Option.some.inj hhead'
  unfold visit
  simp only [hfind]
  rw [if_pos hlive, ← h.terminate]
  constructor
  · intro hlog
    by_contra hterm
    rw [if_neg fun hguard => hterm hguard.2.1] at hlog
    exact absurd (congrArg List.length hlog) (by simp)
  · intro hterm
    rw [if_pos ⟨h.echo, hterm, h.discr, hinterval ▸ hmin⟩]
    exact transmitUnsafe_log m hconn h.discr

/-- After every run, a round that comes before the detection time of a session with a connection, whose peer last
announced an interval other than zero, writes to the peer exactly if no packet on the session had Final set. -/
theorem round_transmits_iff (actions : List Action) {curms : BitVec 64} {itrs : List (BitVec 64)} {endp : Endpoint}
    {psess : BfdSession} {conn : Conn} {bfd : Bfd} (hitrs : Iterates (run actions) itrs)
    (hfind : (run actions).findUnsafe endp.address endp.port = some psess) (hconn : psess.conn = some conn)
    (hlast : (Action.accepted endp actions).getLast? = some bfd) (hmin : bfd.minRxInt ≠ 0)
    (hlive : curms < psess.detectTime) :
    Transmitted curms itrs (run actions) endp conn (ctrlPacket psess) ↔
      ∀ bfds, Action.heard endp actions = some bfds → ∀ b ∈ bfds, b.final = 0 := by
  have hrem := run_remembering actions endp
  simp only [hfind] at hrem
  obtain ⟨bfds, hheard⟩ : ∃ bfds, Action.heard endp actions = some bfds := by
    cases hh : Action.heard endp actions with
    | some bfds => exact ⟨bfds, rfl⟩
    | none =>
      rw [hh] at hrem
      cases hrem
  rw [hheard] at hrem
  obtain ⟨h⟩ := hrem
  obtain ⟨bfd', hhead, -⟩ := h.interval (by rw [hconn]; rfl)
  rw [head_heard hheard hhead] at hlast
  obtain rfl := Option.some.inj hlast
  have hvisit : ∀ before, (visit curms (onBfdThread curms before (run actions)) (makeUll endp.address endp.port)).log =
      (conn.udpendp, ctrlPacket psess) :: (onBfdThread curms before (run actions)).log ↔ ∀ b ∈ bfds, b.final = 0 := by
    intro before
    refine visit_log_iff ?_ h hconn hhead hmin hlive
    rw [onBfdThread_bfdSessions]
    exact hfind
  constructor
  · rintro ⟨before, after, -, hlog⟩ bfds' hheard'
    rw [hheard] at hheard'
    obtain rfl := Option.some.inj hheard'
    exact (hvisit before).mp hlog
  · intro hall
    obtain ⟨before, after, hsplit⟩ := List.append_of_mem
      ((hitrs.mem _).mpr (Option.isSome_iff_exists.mpr ⟨psess, hfind⟩))
    exact ⟨before, after, hsplit, (hvisit before).mpr (hall bfds hheard)⟩

/-- Down with `min_rx_int` one, without and with Final. -/
def downPacket (final : Bool) : List Byte :=
  [0x20, if final then 0x50 else 0x40, 3, 24, 7, 0, 0, 0, 0, 0, 0, 0, 0, 0, 0, 0, 1, 0, 0, 0, 0, 0, 0, 0]

/-- A peer that says Down, with or without a Final after it. -/
def downRun (final : Bool) : List Action :=
  [.recieve ⟨0x7f000001, 3784⟩ (downPacket false) 5, .recieve ⟨0x7f000001, 3784⟩ (downPacket final) 6]

/-- Its session is live, with a connection. -/
theorem downRun_live (final : Bool) : ∃ psess conn bfd,
    (run (downRun final)).findUnsafe 0x7f000001 3784 = some psess ∧ psess.conn = some conn ∧
      (Action.accepted ⟨0x7f000001, 3784⟩ (downRun final)).getLast? = some bfd ∧ bfd.minRxInt ≠ 0 ∧
      7 < psess.detectTime := by
  have hfind : ∀ b, ((run (downRun b)).findUnsafe 0x7f000001 3784).map (fun s => (s.conn, s.detectTime)) =
      some (some ⟨⟨0, 3784⟩, ⟨0x7f000001, 3784⟩⟩, 3000006) := by decide +kernel
  have hlast : ∀ b, ((Action.accepted ⟨0x7f000001, 3784⟩ (downRun b)).getLast?).map Bfd.minRxInt = some 1 := by
    decide +kernel
  obtain ⟨psess, hs, he⟩ := Option.map_eq_some_iff.mp (hfind final)
  obtain ⟨bfd, hb, hmin⟩ := Option.map_eq_some_iff.mp (hlast final)
  obtain ⟨hconn, htime⟩ := Prod.mk.inj he
  refine ⟨psess, _, bfd, hs, hconn, hb, ?_, ?_⟩
  · rw [hmin]
    decide
  · rw [htime]
    decide

/-- A round at clock 7 writes to the peer. -/
theorem round_transmits_iff_down : ∃ itrs psess conn, Iterates (run (downRun false)) itrs ∧
    (run (downRun false)).findUnsafe 0x7f000001 3784 = some psess ∧
    (Transmitted 7 itrs (run (downRun false)) ⟨0x7f000001, 3784⟩ conn (ctrlPacket psess) ↔
      ∀ bfds, Action.heard ⟨0x7f000001, 3784⟩ (downRun false) = some bfds → ∀ b ∈ bfds, b.final = 0) := by
  obtain ⟨itrs, hitrs⟩ := exists_iterates (run (downRun false))
  obtain ⟨psess, conn, bfd, hfind, hconn, hlast, hmin, hlive⟩ := downRun_live false
  exact ⟨itrs, psess, conn, hitrs, hfind,
    round_transmits_iff (downRun false) hitrs hfind hconn hlast hmin hlive⟩

/-- After a Final the same round is silent. -/
theorem final_silences : ∃ psess conn bfd,
    (run (downRun true)).findUnsafe 0x7f000001 3784 = some psess ∧ psess.conn = some conn ∧
      (Action.accepted ⟨0x7f000001, 3784⟩ (downRun true)).getLast? = some bfd ∧ bfd.minRxInt ≠ 0 ∧
      7 < psess.detectTime ∧
      ∀ itrs, Iterates (run (downRun true)) itrs →
        ¬ Transmitted 7 itrs (run (downRun true)) ⟨0x7f000001, 3784⟩ conn (ctrlPacket psess) := by
  obtain ⟨psess, conn, bfd, hfind, hconn, hlast, hmin, hlive⟩ := downRun_live true
  refine ⟨psess, conn, bfd, hfind, hconn, hlast, hmin, hlive, fun itrs hitrs => ?_⟩
  have hterm : ((run (downRun true)).findUnsafe 0x7f000001 3784).map (·.mustTerminate) = some 1 := by decide +kernel
  rintro ⟨before, after, -, hlog⟩
  rw [hfind] at hterm
  have hon : psess.mustTerminate = 1 := Option.some.inj hterm
  have hthere : (onBfdThread 7 before (run (downRun true))).bfdSessions (makeUll 0x7f000001 3784) = some psess := by
    rw [onBfdThread_bfdSessions]
    exact hfind
  simp only [visit, hthere] at hlog
  rw [if_pos hlive, if_neg fun hguard => absurd (hon.symm.trans hguard.2.1) (by decide)] at hlog
  exact absurd (congrArg List.length hlog) (by simp)

end BfdSessionManager

end NetworkBfd.BfddCpp
