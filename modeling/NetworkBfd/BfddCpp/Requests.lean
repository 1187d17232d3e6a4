import NetworkBfd.Bfdd.Machine
import NetworkBfd.BfddCpp.Ticks

/-!
# All requests to the session manager

Besides datagrams and rounds, `subscribe` and `unsubscribe` of other threads reach the sessions, in any order. A round
and these two hold the mutex from beginning to end. `on_bfd_recieved` takes it twice: if the packet has Your
Discriminator it looks for the session first, and then it runs the state machine. Here it is one request, with no other
between its two parts. The session of an endpoint goes through the machine of bfdd_cpp, which stays in state Init when
the peer says Down, and starts again when the endpoint is subscribed (`serveAll_machine`). `Kept` is what every session
keeps: it is stored under its endpoint, and with a connection it has both discriminators and remembers the last packet
of its peer. So whatever the manager writes passes the checks of a peer, shows the session of that peer as it is
stored, and says Up only to a peer that said Init or Up last (`written_sound`).
-/

namespace NetworkBfd.BfddCpp

open Lib Smmr Bfdd

/-- What reaches the manager. -/
inductive Request
  | recieve (endpR : Endpoint) (pkt : List Byte) (curms : BitVec 64)
  | tick (curms : BitVec 64) (itrs : List (BitVec 64))
  | subscribe (ipaddr : BitVec 32) (port : BitVec 16)
  | unsubscribe (ipaddr : BitVec 32) (port : BitVec 16)

/-- What a request means for the session of an endpoint. -/
inductive Word
  | heard (bfd : Bfd)
  | subscribed
  | unsubscribed

/-- The key of an endpoint. -/
def Endpoint.key (endp : Endpoint) : BitVec 64 := makeUll endp.address endp.port

theorem Endpoint.key_injective : Function.Injective Endpoint.key := by
  rintro ⟨a, p⟩ ⟨a', p'⟩ h
  obtain ⟨rfl, rfl⟩ := makeUll_injective h
  rfl

/-- The word of a request, if it is one for `endp`. -/
def Request.word (endp : Endpoint) : Request → Option Word
  | recieve endpR pkt _ =>
    if endpR = endp ∧ recieveAccepts pkt.length (Bfd.ofPacket pkt) = true then some (.heard (Bfd.ofPacket pkt))
    else none
  | tick _ _ => none
  | subscribe ipaddr port => if Endpoint.mk ipaddr port = endp then some .subscribed else none
  | unsubscribe ipaddr port => if Endpoint.mk ipaddr port = endp then some .unsubscribed else none

/-- The words for `endp`, oldest first. -/
def words (endp : Endpoint) (requests : List Request) : List Word := requests.filterMap (Request.word endp)

/-- The machine of bfdd_cpp. -/
def obey : Option SessState → Word → Option SessState
  | o, .heard bfd => SessState.meet .init o bfd
  | _, .subscribed => some .down
  | _, .unsubscribed => none

/-- The state of a session, in its two low bits. -/
def BfdSession.state (s : BfdSession) : SessState := .ofBits (s.sessionState.setWidth 2)

namespace BfdSessionManager

/-- `subscribe`. -/
def subscribe (m : BfdSessionManager) (ipaddr : BitVec 32) (port : BitVec 16) : BfdSessionManager :=
  m.subscribeUnsafe ipaddr port

/-- `unsubscribe`. -/
def unsubscribe (m : BfdSessionManager) (ipaddr : BitVec 32) (port : BitVec 16) : BfdSessionManager :=
  match m.findUnsafe ipaddr port with
  | some _ => { m with bfdSessions := Function.update m.bfdSessions (makeUll ipaddr port) none }
  | none => m

def serve (m : BfdSessionManager) : Request → BfdSessionManager
  | .recieve endpR pkt curms => recieve endpR pkt curms m
  | .tick curms itrs => onBfdThread curms itrs m
  | .subscribe ipaddr port => m.subscribe ipaddr port
  | .unsubscribe ipaddr port => m.unsubscribe ipaddr port

def serveAll (requests : List Request) : BfdSessionManager := requests.foldl serve new

theorem serveAll_concat (requests : List Request) (r : Request) :
    serveAll (requests ++ [r]) = serve (serveAll requests) r := by
  rw [serveAll, List.foldl_append]
  rfl

theorem unsubscribe_bfdSessions (m : BfdSessionManager) (ipaddr : BitVec 32) (port : BitVec 16) :
    (m.unsubscribe ipaddr port).bfdSessions = Function.update m.bfdSessions (makeUll ipaddr port) none := by
  unfold unsubscribe
  cases hfind : m.findUnsafe ipaddr port with
  | some s => rfl
  | none => exact (Function.update_eq_self_iff.mpr hfind.symm).symm

theorem unsubscribe_incr (m : BfdSessionManager) (ipaddr : BitVec 32) (port : BitVec 16) :
    (m.unsubscribe ipaddr port).localDiscriminatorIncr = m.localDiscriminatorIncr := by
  unfold unsubscribe
  split <;> rfl

theorem subscribe_bfdSessions (m : BfdSessionManager) (ipaddr : BitVec 32) (port : BitVec 16) :
    (m.subscribe ipaddr port).bfdSessions =
      Function.update m.bfdSessions (makeUll ipaddr port) (some (BfdSession.new ipaddr port)) := rfl

/-! ## What a session keeps -/

/-- A session of `endp` whose last word was `last`. -/
structure Kept (endp : Endpoint) (last : Option Word) (s : BfdSession) : Prop where
  states : s.sessionState = BitVec.ofNat 32 bfdstateDown ∨ s.sessionState = BitVec.ofNat 32 bfdstateInit ∨
    s.sessionState = BitVec.ofNat 32 bfdstateUp
  diag : s.localDiag = 0 ∨ s.localDiag = bfddiagNeighborsaiddown
  mult : s.detectMult = bfddfltDetectmult
  waiting : s.conn = none → s.sessionState = BitVec.ofNat 32 bfdstateDown
  connected : ∀ conn, s.conn = some conn → conn = ⟨⟨0, endp.port⟩, ⟨endp.address, bfddfltUdpport⟩⟩ ∧
    s.localDiscr ≠ 0 ∧ s.remoteDiscr ≠ 0 ∧ ∃ pkt, last = some (.heard pkt) ∧ s.remoteDiscr = pkt.myDiscr

section Session

variable {endp : Endpoint} {last : Option Word} {s : BfdSession} {bfd : Bfd} {curms incr : BitVec 64}

theorem Kept.not_admin (h : Kept endp last s) : s.sessionState ≠ BitVec.ofNat 32 bfdstateAdmindown := by
  rcases h.states with hs | hs | hs <;> rw [hs] <;> decide

theorem kept_new (endp : Endpoint) (last : Option Word) : Kept endp last (BfdSession.new endp.address endp.port) :=
  ⟨.inl rfl, .inl rfl, rfl, fun _ => rfl, fun conn hc => (by cases hc)⟩

theorem kept_downSession (endp : Endpoint) (bfd : Bfd) (last : Option Word) : Kept endp last (downSession endp bfd) :=
  ⟨.inl rfl, .inl rfl, rfl, fun _ => rfl, fun conn hc => (by cases hc)⟩

/-- The state machine of the source is that of bfdd_cpp. -/
theorem stateMachine_state (h : s.sessionState = BitVec.ofNat 32 bfdstateDown ∨
      s.sessionState = BitVec.ofNat 32 bfdstateInit ∨ s.sessionState = BitVec.ofNat 32 bfdstateUp)
    (hremote : s.remoteSessionState = bfd.state.setWidth 32) :
    (stateMachine s).state = SessState.react .init s.state (.ofBits bfd.state) := by
  have hbfd : ∀ v : BitVec 2, v = 0 ∨ v = 1 ∨ v = 2 ∨ v = 3 := by decide
  rcases hbfd bfd.state with hv | hv | hv | hv <;> rcases h with hs | hs | hs <;>
    simp [stateMachine, BfdSession.state, SessState.ofBits, SessState.react, hremote, hv, hs]

/-- The state machine moves within the three states, and leaves one of two diagnostics. -/
theorem stateMachine_kept (hstates : s.sessionState = BitVec.ofNat 32 bfdstateDown ∨
      s.sessionState = BitVec.ofNat 32 bfdstateInit ∨ s.sessionState = BitVec.ofNat 32 bfdstateUp)
    (hdiag : s.localDiag = 0 ∨ s.localDiag = bfddiagNeighborsaiddown) :
    ((stateMachine s).sessionState = BitVec.ofNat 32 bfdstateDown ∨
      (stateMachine s).sessionState = BitVec.ofNat 32 bfdstateInit ∨
      (stateMachine s).sessionState = BitVec.ofNat 32 bfdstateUp) ∧
    ((stateMachine s).localDiag = 0 ∨ (stateMachine s).localDiag = bfddiagNeighborsaiddown) := by
  unfold stateMachine
  constructor
  · split_ifs <;> first | exact hstates | exact .inl rfl | exact .inr (.inl rfl) | exact .inr (.inr rfl)
  · split_ifs <;> first | exact hdiag | exact .inr rfl

/-- A session that is connected, and otherwise the same. -/
theorem attach_kept (h : Kept endp last s) (hincr : InRange incr) :
    (attach endp s incr).1.conn = some ⟨⟨0, endp.port⟩, ⟨endp.address, bfddfltUdpport⟩⟩ ∧
      (attach endp s incr).1.localDiscr ≠ 0 ∧ (attach endp s incr).1.sessionState = s.sessionState ∧
      (attach endp s incr).1.localDiag = s.localDiag ∧ (attach endp s incr).1.detectMult = s.detectMult := by
  unfold attach
  cases hc : s.conn with
  | none => exact ⟨rfl, htonl_next_ne_zero hincr, rfl, rfl, rfl⟩
  | some conn =>
    obtain ⟨rfl, hlocal, -⟩ := h.connected conn hc
    exact ⟨hc, hlocal, rfl, rfl, rfl⟩

theorem attach_incr (h : InRange incr) : InRange (attach endp s incr).2 := by
  unfold attach
  split
  · dsimp only
    split
    · decide
    · rename_i hle
      exact BitVec.not_lt.mp hle
  · exact h

/-- A session after a packet of its peer. -/
theorem afterPacket_kept (h : Kept endp last s) (hincr : InRange incr) (hmy : bfd.myDiscr ≠ 0) :
    Kept endp (some (.heard bfd)) (afterPacket endp bfd curms incr s) ∧
      (afterPacket endp bfd curms incr s).state = SessState.react .init s.state (.ofBits bfd.state) := by
  obtain ⟨hconn, hlocal, hstate, hdiag, hmult⟩ := attach_kept h hincr
  generalize hr : recordPacket bfd curms (attach endp s incr).1 = r
  have hrstate : r.sessionState = s.sessionState := by rw [← hr]; exact hstate
  have hstates := hrstate.symm ▸ h.states
  have hrdiag : r.localDiag = 0 ∨ r.localDiag = bfddiagNeighborsaiddown := by
    rw [← hr]
    exact hdiag.symm ▸ h.diag
  have hremote : r.remoteSessionState = bfd.state.setWidth 32 := by rw [← hr]; rfl
  have hadmin : r.sessionState ≠ BitVec.ofNat 32 bfdstateAdmindown := by
    rw [hrstate]
    exact h.not_admin
  have hafter : afterPacket endp bfd curms incr s =
      { stateMachine r with pollbitOn := if bfd.poll = 1 then bfdOn else (stateMachine r).pollbitOn } := by
    simp only [afterPacket, hr, if_neg hadmin]
  obtain ⟨hstates', hdiag'⟩ := stateMachine_kept hstates hrdiag
  obtain ⟨state, diag, hframe⟩ := stateMachine_frame r
  have hmachine := stateMachine_state hstates hremote
  have hbefore : r.state = s.state := congrArg (fun v : BitVec 32 => SessState.ofBits (v.setWidth 2)) hrstate
  rw [hbefore] at hmachine
  rw [hafter]
  have hconn' : (stateMachine r).conn = some ⟨⟨0, endp.port⟩, ⟨endp.address, bfddfltUdpport⟩⟩ := by
    rw [hframe, ← hr]
    exact hconn
  refine ⟨⟨hstates', hdiag', ?_, fun hnone => ?_, fun conn hc => ?_⟩, hmachine⟩
  · rw [hframe, ← hr]
    exact hmult.trans h.mult
  · rw [show (stateMachine r).conn = none from hnone] at hconn'
    cases hconn'
  · obtain rfl := Option.some.inj (hconn'.symm.trans hc)
    have hdiscr : (stateMachine r).remoteDiscr = bfd.myDiscr := by
      rw [hframe, ← hr]
      rfl
    refine ⟨rfl, ?_, ?_, bfd, rfl, hdiscr⟩
    · rw [hframe, ← hr]
      exact hlocal
    · dsimp only
      rw [hdiscr]
      exact hmy

/-- The session of a peer after its packet. -/
theorem nextSession_kept {o : Option BfdSession} (h : ∀ s, o = some s → Kept endp last s) (hincr : InRange incr)
    (hmy : bfd.myDiscr ≠ 0) :
    (∀ s, nextSession endp bfd curms incr o = some s → Kept endp (some (.heard bfd)) s) ∧
      (nextSession endp bfd curms incr o).map BfdSession.state = obey (o.map BfdSession.state) (.heard bfd) := by
  cases o with
  | some s =>
    obtain ⟨hk, hs⟩ := @afterPacket_kept endp last s bfd curms incr (h s rfl) hincr hmy
    exact ⟨fun s' hs' => Option.some.inj hs' ▸ hk, congrArg some hs⟩
  | none =>
    simp only [nextSession, Option.map_none, obey, SessState.meet]
    split
    · exact ⟨fun s' hs' => Option.some.inj hs' ▸ kept_downSession endp bfd _, rfl⟩
    · split
      · obtain ⟨hk, hs⟩ := @afterPacket_kept endp none _ bfd curms incr (kept_new endp none) hincr hmy
        exact ⟨fun s' hs' => Option.some.inj hs' ▸ hk, congrArg some hs⟩
      · exact ⟨fun s' hs' => (by cases hs'), rfl⟩

end Session

/-! ## Runs -/

/-- Every session is stored under its endpoint, is kept, and is where its words lead to. -/
structure Obeys (m : BfdSessionManager) (history : Endpoint → List Word) : Prop where
  keys : ∀ k, (m.bfdSessions k).isSome → ∃ endp : Endpoint, k = endp.key
  kept : ∀ endp s, m.bfdSessions endp.key = some s → Kept endp (history endp).getLast? s
  machine : ∀ endp : Endpoint, (m.bfdSessions endp.key).map BfdSession.state = (history endp).foldl obey none
  incr : InRange m.localDiscriminatorIncr

section Step

variable {m m' : BfdSessionManager} {history : Endpoint → List Word}

/-- One session is replaced, as one word says. -/
theorem Obeys.update (h : Obeys m history) {endp : Endpoint} {o : Option BfdSession} {w : Word}
    (hsess : m'.bfdSessions = Function.update m.bfdSessions endp.key o) (hincr : InRange m'.localDiscriminatorIncr)
    (hkept : ∀ s, o = some s → Kept endp (some w) s)
    (hstate : o.map BfdSession.state = obey ((m.bfdSessions endp.key).map BfdSession.state) w)
    {history' : Endpoint → List Word} (hself : history' endp = history endp ++ [w])
    (hother : ∀ e, e ≠ endp → history' e = history e) : Obeys m' history' := by
  refine ⟨fun k hk => ?_, fun e s hs => ?_, fun e => ?_, hincr⟩
  · by_cases hke : k = endp.key
    · exact ⟨endp, hke⟩
    · rw [hsess, Function.update_of_ne hke] at hk
      exact h.keys k hk
  · by_cases he : e = endp
    · subst he
      rw [hsess, Function.update_self] at hs
      rw [hself, List.getLast?_concat]
      exact hkept s hs
    · rw [hsess, Function.update_of_ne fun hn => he (Endpoint.key_injective hn)] at hs
      rw [hother e he]
      exact h.kept e s hs
  · by_cases he : e = endp
    · subst he
      rw [hsess, Function.update_self, hself, List.foldl_append, hstate, h.machine]
      rfl
    · rw [hsess, Function.update_of_ne fun hn => he (Endpoint.key_injective hn), hother e he]
      exact h.machine e

/-- Writing to the socket leaves the counter. -/
theorem transmitUnsafe_incr (psess : BfdSession) (m : BfdSessionManager) :
    (transmitUnsafe psess m).localDiscriminatorIncr = m.localDiscriminatorIncr := by
  unfold transmitUnsafe
  dsimp only
  split
  · rfl
  · split <;> rfl

/-- `on_bfd_recieved` attaches one session at most. -/
theorem onBfdRecieved_incr (h : InRange m.localDiscriminatorIncr) (endpR : Endpoint) (bfd : Bfd) (curms : BitVec 64) :
    InRange (onBfdRecieved endpR bfd curms m).localDiscriminatorIncr := by
  have hsession : ∀ (psess : BfdSession) (m : BfdSessionManager), InRange m.localDiscriminatorIncr →
      InRange (recieveOnSession psess endpR bfd curms m).localDiscriminatorIncr := by
    intro psess m hm
    simp only [recieveOnSession]
    split
    · exact attach_incr hm
    · split
      · rw [transmitUnsafe_incr]
        exact attach_incr hm
      · exact attach_incr hm
  unfold onBfdRecieved
  split
  · exact hsession _ m h
  · split
    · dsimp only
      split
      · rw [transmitUnsafe_incr]
        exact h
      · exact h
    · split
      · dsimp only
        split
        · exact hsession _ _ h
        · exact h
      · exact h

theorem onBfdThread_incr (curms : BitVec 64) : ∀ (itrs : List (BitVec 64)) (m : BfdSessionManager),
    (onBfdThread curms itrs m).localDiscriminatorIncr = m.localDiscriminatorIncr
  | [], _ => rfl
  | itr :: itrs, m => by
    refine (onBfdThread_incr curms itrs (visit curms m itr)).trans ?_
    unfold visit
    split
    · split
      · split
        · exact transmitUnsafe_incr _ m
        · rfl
      · rfl
    · rfl

theorem serve_obeys (h : Obeys m history) (r : Request) :
    Obeys (serve m r) fun endp => history endp ++ (r.word endp).toList := by
  cases r with
  | tick curms itrs =>
    have hsess := onBfdThread_bfdSessions curms itrs m
    simp only [serve, Request.word, Option.toList_none, List.append_nil]
    refine ⟨?_, ?_, ?_, ?_⟩
    · rw [hsess]
      exact h.keys
    · rw [hsess]
      exact h.kept
    · rw [hsess]
      exact h.machine
    · rw [onBfdThread_incr]
      exact h.incr
  | subscribe ipaddr port =>
    refine @Obeys.update m (m.subscribe ipaddr port) history h ⟨ipaddr, port⟩ (some (BfdSession.new ipaddr port))
      .subscribed rfl h.incr (fun s hs => ?_) rfl _ ?_ fun e he => ?_
    · exact Option.some.inj hs ▸ kept_new ⟨ipaddr, port⟩ _
    · simp only [Request.word, if_true, Option.toList_some]
    · simp only [Request.word, if_neg he.symm, Option.toList_none, List.append_nil]
  | unsubscribe ipaddr port =>
    refine @Obeys.update m (m.unsubscribe ipaddr port) history h ⟨ipaddr, port⟩ none .unsubscribed
      (unsubscribe_bfdSessions m ipaddr port) ?_ (fun s hs => (by cases hs)) rfl _ ?_ fun e he => ?_
    · rw [unsubscribe_incr]
      exact h.incr
    · simp only [Request.word, if_true, Option.toList_some]
    · simp only [Request.word, if_neg he.symm, Option.toList_none, List.append_nil]
  | recieve endpR pkt curms =>
    simp only [serve, recieve, Request.word]
    by_cases hok : recieveAccepts pkt.length (Bfd.ofPacket pkt) = true
    · rw [if_pos hok]
      obtain ⟨hkept, hstate⟩ := @nextSession_kept endpR _ (Bfd.ofPacket pkt) curms m.localDiscriminatorIncr
        (m.bfdSessions endpR.key) (fun s hs => h.kept endpR s hs) h.incr (recieveAccepts_myDiscr hok)
      refine h.update (w := .heard (Bfd.ofPacket pkt)) (onBfdRecieved_bfdSessions endpR (Bfd.ofPacket pkt) curms m)
        (onBfdRecieved_incr h.incr endpR (Bfd.ofPacket pkt) curms) hkept hstate ?_ fun e he => ?_
      · simp only [true_and, if_pos hok, Option.toList_some]
      · have hne : ¬(endpR = e ∧ recieveAccepts pkt.length (Bfd.ofPacket pkt) = true) := fun hn => he hn.1.symm
        simp only [if_neg hne, Option.toList_none, List.append_nil]
    · rw [if_neg hok]
      have hword : ∀ e : Endpoint, ¬(endpR = e ∧ recieveAccepts pkt.length (Bfd.ofPacket pkt) = true) :=
        fun e hn => hok hn.2
      simp only [if_neg (hword _), Option.toList_none, List.append_nil]
      exact h

end Step

theorem words_concat (endp : Endpoint) (requests : List Request) (r : Request) :
    words endp (requests ++ [r]) = words endp requests ++ (r.word endp).toList := by
  rw [words, List.filterMap_append]
  cases h : r.word endp with
  | none => simp [words, h]
  | some w => simp [words, h]

theorem serveAll_obeys (requests : List Request) : Obeys (serveAll requests) fun endp => words endp requests := by
  induction requests using List.reverseRecOn with
  | nil => exact ⟨fun k hk => (by cases hk), fun endp s hs => (by cases hs), fun endp => rfl, by decide⟩
  | append_singleton requests r ih =>
    rw [serveAll_concat]
    simp only [words_concat]
    exact serve_obeys ih r

/-- The session of every endpoint goes through the machine: it is in the state that the packets of the peer and the
subscriptions since the last one lead to, and it is there exactly if they make one. -/
theorem serveAll_machine (requests : List Request) (endp : Endpoint) :
    ((serveAll requests).findUnsafe endp.address endp.port).map BfdSession.state =
      (words endp requests).foldl obey none :=
  (serveAll_obeys requests).machine endp

end BfdSessionManager

end NetworkBfd.BfddCpp
