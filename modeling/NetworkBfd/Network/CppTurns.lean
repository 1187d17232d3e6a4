import NetworkBfd.Network.BfddTurns

/-!
# bfdd_cpp takes turns with a peer

The turns of bfdd_cpp are those of bfdd, with the rounds of `on_bfd_thread` for ticks, as long as each comes before the
detection time of the peer. A connected session to which nothing with Final came, and the last packet of which announced
an interval, is written for in every round (`cppParty`).
-/

namespace NetworkBfd.Network

open Lib Smmr Bfdd BfddCpp BfddCpp.BfdSessionManager

/-- What was written to the BFD port of `a`, oldest first. -/
def wroteTo (a : BitVec 32) (log : List (Endpoint × Bfd)) : List (List Byte) :=
  (log.filter fun w => w.1 = ⟨a, bfddfltUdpport⟩).reverse.map fun w => w.2.toPacket

/-- A request that does not name `a`, or a whole round before the detection time of the session for `a`. -/
def AsideCpp (a : BitVec 32) (m : BfdSessionManager) : Request → Prop
  | .recieve endpR _ _ => endpR.address ≠ a
  | .subscribe ipaddr _ => ipaddr ≠ a
  | .unsubscribe ipaddr _ => ipaddr ≠ a
  | .tick curms itrs => m.Iterates itrs ∧ ∀ s, m.findUnsafe a bfdSrcportinit = some s → curms < s.detectTime

/-- Each request finds the manager as the ones before left it. -/
def AllAside (a : BitVec 32) : BfdSessionManager → List Request → Prop
  | _, [] => True
  | m, r :: requests => AsideCpp a m r ∧ AllAside a (m.serve r) requests

/-- A datagram, from the client side port if `a` sent it, or a subscription of another host. -/
def HeedsCpp (a : BitVec 32) : Request → Prop
  | .recieve endpR _ _ => endpR.address = a → endpR = ⟨a, bfdSrcportinit⟩
  | .subscribe ipaddr _ => ipaddr ≠ a
  | .unsubscribe ipaddr _ => ipaddr ≠ a
  | .tick _ _ => False

def isRound : Request → Bool
  | .tick _ _ => true
  | _ => false

/-- The datagram, if `a` sent it. -/
def payloadCpp (a : BitVec 32) : Request → Option (List Byte)
  | .recieve endpR pkt _ => if endpR = ⟨a, bfdSrcportinit⟩ then some pkt else none
  | _ => none

/-- bfdd_cpp makes `n` rounds, and writes `pkts` to `a`. -/
def SpeaksCpp (a : BitVec 32) (n : ℕ) (m m' : BfdSessionManager) (pkts : List (List Byte)) : Prop :=
  ∃ requests : List Request, m' = requests.foldl serve m ∧ AllAside a m requests ∧ requests.countP isRound = n ∧
    wroteTo a m'.log = wroteTo a m.log ++ pkts

/-- bfdd_cpp takes `pkts` from `a`. -/
def HearsCpp (a : BitVec 32) (pkts : List (List Byte)) (m m' : BfdSessionManager) : Prop :=
  ∃ requests : List Request, m' = requests.foldl serve m ∧ (∀ r ∈ requests, HeedsCpp a r) ∧
    requests.filterMap (payloadCpp a) = pkts

/-- The manager has a connected session for the peer at `a` that is to be written for, and no other one for this
address. -/
structure TouchCpp (a : BitVec 32) (m : BfdSessionManager) (s : BfdSession) : Prop where
  obeys : ∃ history, Obeys m history
  only : ∀ endp : Endpoint, (m.bfdSessions endp.key).isSome → endp.address = a → endp = ⟨a, bfdSrcportinit⟩
  stored : m.bfdSessions (Endpoint.mk a bfdSrcportinit).key = some s
  connected : s.conn.isSome
  echo : s.mustCeaseTxEcho = bfdOff
  terminate : s.mustTerminate = bfdOff
  interval : s.remoteMinRxInterval ≠ 0

/-- The session for the peer at `a` is in state `s`. -/
def InTouchCpp (a : BitVec 32) (m : BfdSessionManager) (s : SessState) : Prop :=
  ∃ psess, TouchCpp a m psess ∧ psess.state = s

section Turn

variable {a : BitVec 32} {m : BfdSessionManager} {s : BfdSession}

/-- The one session that is written for to `a`. -/
theorem TouchCpp.aimed (h : TouchCpp a m s) {k : BitVec 64} {s' : BfdSession} {w : Endpoint × Bfd}
    (hs : m.bfdSessions k = some s') (hw : w ∈ writes s') :
    w.1 = ⟨a, bfddfltUdpport⟩ ↔ k = (Endpoint.mk a bfdSrcportinit).key := by
  obtain ⟨history, hobeys⟩ := h.obeys
  have hsome : (m.bfdSessions k).isSome := by rw [hs, Option.isSome_some]
  obtain ⟨endp, rfl⟩ := hobeys.keys k hsome
  obtain ⟨rfl, -⟩ := (hobeys.kept endp s' hs).written hw
  rw [Endpoint.mk.injEq, and_iff_left rfl]
  constructor
  · intro haddr
    rw [h.only endp hsome haddr]
  · intro hkey
    rw [Endpoint.key_injective hkey]

/-- What is written for the session. -/
theorem TouchCpp.writes (h : TouchCpp a m s) : writes s = [(⟨a, bfddfltUdpport⟩, ctrlPacket s)] := by
  obtain ⟨history, hobeys⟩ := h.obeys
  obtain ⟨conn, hconn⟩ := Option.isSome_iff_exists.mp h.connected
  obtain ⟨rfl, hlocal, hremote, -⟩ := (hobeys.kept _ s h.stored).connected conn hconn
  unfold BfdSessionManager.writes
  dsimp only
  rw [if_neg, hconn]
  · rfl
  · rintro ⟨hzero | hzero, -⟩
    · exact hremote hzero
    · exact hlocal hzero

theorem TouchCpp.tells (h : TouchCpp a m s) : Tells False (ctrlPacket s).toPacket s.state := by
  obtain ⟨history, hobeys⟩ := h.obeys
  obtain ⟨conn, hconn⟩ := Option.isSome_iff_exists.mp h.connected
  have hkept := hobeys.kept _ s h.stored
  obtain ⟨-, hlocal, hremote, -⟩ := hkept.connected conn hconn
  obtain ⟨hok, hsays⟩ := hkept.shows hlocal hremote
  have hwide : ∀ v : BitVec 2, (v.setWidth 32).setWidth 2 = v := by decide
  refine ⟨hok, ?_, ?_, False.elim⟩
  · rw [BfdSession.state, ← hsays.state, hwide]
  · rw [Bfd.ofPacket_toPacket]
    rfl

/-- What a round writes for the session under an iterator. -/
def due (curms : BitVec 64) (m : BfdSessionManager) (itr : BitVec 64) : List (Endpoint × Bfd) :=
  match m.bfdSessions itr with
  | some psess =>
    if curms < psess.detectTime ∧ psess.mustCeaseTxEcho = bfdOff ∧ psess.mustTerminate = bfdOff ∧
        psess.remoteDiscr ≠ 0 ∧ psess.remoteMinRxInterval ≠ 0 then writes psess
    else []
  | none => []

theorem visit_due (curms : BitVec 64) (m : BfdSessionManager) (itr : BitVec 64) :
    (visit curms m itr).log = due curms m itr ++ m.log := by
  unfold visit due
  cases m.bfdSessions itr with
  | none => rfl
  | some psess =>
    dsimp only
    by_cases hlive : curms < psess.detectTime
    · rw [if_pos hlive]
      split
      · rename_i hguard
        rw [if_pos ⟨hlive, hguard⟩]
        exact transmitUnsafe_writes psess m
      · rename_i hguard
        rw [if_neg fun hn => hguard hn.2]
        rfl
    · rw [if_neg hlive, if_neg fun hn => hlive hn.1]
      rfl

theorem onBfdThread_due (curms : BitVec 64) : ∀ (itrs : List (BitVec 64)) (m : BfdSessionManager),
    (onBfdThread curms itrs m).log = itrs.reverse.flatMap (due curms m) ++ m.log
  | [], _ => rfl
  | itr :: itrs, m => by
    have hdue : due curms (visit curms m itr) = due curms m := by
      funext i
      rw [due, visit_bfdSessions, due]
    have ih := onBfdThread_due curms itrs (visit curms m itr)
    rw [hdue, visit_due] at ih
    rw [List.reverse_cons, List.flatMap_append, List.flatMap_singleton, List.append_assoc]
    exact ih

/-- A round says the state to `a`, once. -/
theorem TouchCpp.tick (h : TouchCpp a m s) {curms : BitVec 64} {itrs : List (BitVec 64)}
    (haside : AsideCpp a m (.tick curms itrs)) :
    TouchCpp a (m.serve (.tick curms itrs)) s ∧
      wroteTo a (m.serve (.tick curms itrs)).log = wroteTo a m.log ++ [(ctrlPacket s).toPacket] := by
  obtain ⟨hitrs, hlive⟩ := haside
  obtain ⟨history, hobeys⟩ := h.obeys
  have hsess := onBfdThread_bfdSessions curms itrs m
  have hone : itrs.reverse.filter (fun k => k = (Endpoint.mk a bfdSrcportinit).key) =
      [(Endpoint.mk a bfdSrcportinit).key] := by
    have hnodup : itrs.Nodup := hitrs.ascending.imp fun hlt heq => by
      rw [heq] at hlt
      exact BitVec.lt_irrefl _ hlt
    refine List.perm_singleton.mp ((List.perm_ext_iff_of_nodup ((List.nodup_reverse.mpr hnodup).filter _)
      (List.nodup_singleton _)).mpr fun k => ?_)
    rw [List.mem_filter, List.mem_reverse, List.mem_singleton, decide_eq_true_iff, and_iff_right_iff_imp]
    rintro rfl
    rw [hitrs.mem, h.stored, Option.isSome_some]
  have hnew : (itrs.reverse.flatMap (due curms m)).filter (fun w => w.1 = ⟨a, bfddfltUdpport⟩) =
      [(⟨a, bfddfltUdpport⟩, ctrlPacket s)] := by
    refine (filter_flatMap_eq (q := fun k => k = (Endpoint.mk a bfdSrcportinit).key) _ fun k hk w hw => ?_).trans ?_
    · unfold due at hw
      split at hw
      · rename_i s' hs'
        split at hw
        · exact decide_eq_decide.mpr (h.aimed hs' hw)
        · cases hw
      · cases hw
    · obtain ⟨conn, hconn⟩ := Option.isSome_iff_exists.mp h.connected
      obtain ⟨-, -, hremote, -⟩ := (hobeys.kept _ s h.stored).connected conn hconn
      rw [hone, List.flatMap_singleton, due, h.stored]
      exact (if_pos ⟨hlive s h.stored, h.echo, h.terminate, hremote, h.interval⟩).trans h.writes
  refine ⟨⟨⟨_, serve_obeys hobeys (.tick curms itrs)⟩, ?_, ?_, h.connected, h.echo, h.terminate, h.interval⟩, ?_⟩
  · rw [serve, hsess]
    exact h.only
  · rw [serve, hsess]
    exact h.stored
  · rw [serve, onBfdThread_due, wroteTo, List.filter_append, hnew, List.reverse_append, List.map_append]
    rfl

/-- What does not name `a` leaves the session, and writes nothing to `a`. -/
theorem TouchCpp.other (h : TouchCpp a m s) {r : Request} (hr : isRound r = false)
    (haside : ∀ endp w, r.word endp = some w → endp.address ≠ a) :
    TouchCpp a (m.serve r) s ∧ wroteTo a (m.serve r).log = wroteTo a m.log := by
  obtain ⟨history, hobeys⟩ := h.obeys
  have hkey : ∀ {e e' : Endpoint}, e.address = a → e'.address ≠ a → e.key ≠ e'.key := by
    rintro e e' he he' heq
    rw [Endpoint.key_injective heq] at he
    exact he' he
  have hsess : ∀ endp : Endpoint, endp.address = a →
      (m.serve r).bfdSessions endp.key = m.bfdSessions endp.key := by
    intro endp hendp
    cases r with
    | tick curms itrs => cases hr
    | subscribe ipaddr port =>
      rw [serve, subscribe_bfdSessions]
      exact Function.update_of_ne (hkey hendp (haside ⟨ipaddr, port⟩ .subscribed (if_pos rfl))) _ _
    | unsubscribe ipaddr port =>
      rw [serve, unsubscribe_bfdSessions]
      exact Function.update_of_ne (hkey hendp (haside ⟨ipaddr, port⟩ .unsubscribed (if_pos rfl))) _ _
    | recieve endpR pkt curms =>
      simp only [serve, recieve]
      by_cases hok : recieveAccepts pkt.length (Bfd.ofPacket pkt) = true
      · rw [if_pos hok, onBfdRecieved_bfdSessions]
        exact Function.update_of_ne (hkey hendp (haside endpR (.heard (Bfd.ofPacket pkt)) (if_pos ⟨rfl, hok⟩))) _ _
      · rw [if_neg hok]
  have hlog : wroteTo a (m.serve r).log = wroteTo a m.log := by
    cases r with
    | tick curms itrs => cases hr
    | subscribe ipaddr port => rfl
    | unsubscribe ipaddr port =>
      simp only [serve, unsubscribe]
      split <;> rfl
    | recieve endpR pkt curms =>
      simp only [serve, recieve]
      by_cases hok : recieveAccepts pkt.length (Bfd.ofPacket pkt) = true
      · have hne := haside endpR (.heard (Bfd.ofPacket pkt)) (if_pos ⟨rfl, hok⟩)
        have hkept := @nextSession_kept endpR _ (Bfd.ofPacket pkt) curms m.localDiscriminatorIncr
          (m.bfdSessions endpR.key) (fun s hs => hobeys.kept endpR s hs) hobeys.incr (recieveAccepts_myDiscr hok)
        rw [if_pos hok, onBfdRecieved_writes fun s hs => (hobeys.kept endpR s hs).not_admin, wroteTo,
          List.filter_append, List.filter_eq_nil_iff.mpr, List.nil_append, wroteTo]
        intro w hw
        split at hw
        · obtain ⟨s', hs', hws⟩ := List.mem_flatMap.mp hw
          obtain ⟨rfl, -⟩ := (hkept.1 s' (Option.mem_toList.mp hs')).written hws
          rw [decide_eq_true_iff, Endpoint.mk.injEq]
          exact fun he => hne he.1
        · cases hw
      · rw [if_neg hok]
  refine ⟨⟨⟨_, serve_obeys hobeys r⟩, fun endp hendp haddr => ?_, ?_, h.connected, h.echo, h.terminate,
    h.interval⟩, hlog⟩
  · rw [hsess endp haddr] at hendp
    exact h.only endp hendp haddr
  · rw [hsess _ rfl]
    exact h.stored

/-- A datagram of the peer moves the session. -/
theorem TouchCpp.heard (h : TouchCpp a m s) {pkt : List Byte} {curms : BitVec 64} {t : SessState}
    (htells : Tells True pkt t) :
    ∃ s', TouchCpp a (m.serve (.recieve ⟨a, bfdSrcportinit⟩ pkt curms)) s' ∧
      s'.state = SessState.react .init s.state t := by
  obtain ⟨history, hobeys⟩ := h.obeys
  obtain ⟨hfinal, hmin⟩ := htells.plain trivial
  obtain ⟨hecho, hterm, -, hinterval⟩ :=
    afterPacket_remembered ⟨a, bfdSrcportinit⟩ (Bfd.ofPacket pkt) curms m.localDiscriminatorIncr s
  obtain ⟨hconn, -⟩ := afterPacket_stamp ⟨a, bfdSrcportinit⟩ (Bfd.ofPacket pkt) curms m.localDiscriminatorIncr s
  obtain ⟨conn, hc⟩ := Option.isSome_iff_exists.mp h.connected
  rw [attach_of_some hc] at hconn
  obtain ⟨-, hstate⟩ := @afterPacket_kept ⟨a, bfdSrcportinit⟩ _ s (Bfd.ofPacket pkt) curms m.localDiscriminatorIncr
    (hobeys.kept _ s h.stored) hobeys.incr (recvAccepts_myDiscr htells.accepted)
  have hserve : m.serve (.recieve ⟨a, bfdSrcportinit⟩ pkt curms) =
      m.onBfdRecieved ⟨a, bfdSrcportinit⟩ (Bfd.ofPacket pkt) curms := if_pos htells.accepted
  have hsess : (m.onBfdRecieved ⟨a, bfdSrcportinit⟩ (Bfd.ofPacket pkt) curms).bfdSessions =
      Function.update m.bfdSessions (Endpoint.mk a bfdSrcportinit).key
        (some (BfdSessionManager.afterPacket ⟨a, bfdSrcportinit⟩ (Bfd.ofPacket pkt) curms
          m.localDiscriminatorIncr s)) := by
    rw [onBfdRecieved_bfdSessions, show m.findUnsafe a bfdSrcportinit = some s from h.stored]
    rfl
  refine ⟨BfdSessionManager.afterPacket ⟨a, bfdSrcportinit⟩ (Bfd.ofPacket pkt) curms m.localDiscriminatorIncr s,
    ⟨⟨_, serve_obeys hobeys _⟩, fun endp hendp haddr => ?_, ?_, ?_, ?_, ?_, ?_⟩, ?_⟩
  · by_contra hne
    rw [hserve, hsess, Function.update_of_ne fun hkey => hne (Endpoint.key_injective hkey)] at hendp
    exact hne (h.only endp hendp haddr)
  · rw [hserve, hsess]
    exact Function.update_self _ _ _
  · rw [hconn]
    exact h.connected
  · rw [hecho, h.echo]
  · rw [hterm, if_neg (not_not.mpr hfinal), h.terminate]
  · rw [hinterval]
    exact hmin
  · rw [hstate, htells.state]

/-- A request that does not name `a`, in a turn. -/
theorem TouchCpp.aside (h : TouchCpp a m s) {r : Request} (haside : AsideCpp a m r) : TouchCpp a (m.serve r) s ∧
    wroteTo a (m.serve r).log =
      wroteTo a m.log ++ List.replicate (if isRound r then 1 else 0) (ctrlPacket s).toPacket := by
  cases r with
  | tick curms itrs => exact h.tick haside
  | recieve endpR pkt curms =>
    refine (h.other rfl fun endp w hw => ?_).imp_right fun hlog => hlog.trans (List.append_nil _).symm
    obtain ⟨rfl, -⟩ := (Option.ite_none_right_eq_some.mp hw).1
    exact haside
  | subscribe ipaddr port =>
    refine (h.other rfl fun endp w hw => ?_).imp_right fun hlog => hlog.trans (List.append_nil _).symm
    obtain rfl := (Option.ite_none_right_eq_some.mp hw).1
    exact haside
  | unsubscribe ipaddr port =>
    refine (h.other rfl fun endp w hw => ?_).imp_right fun hlog => hlog.trans (List.append_nil _).symm
    obtain rfl := (Option.ite_none_right_eq_some.mp hw).1
    exact haside

theorem TouchCpp.foldl_speaks : ∀ (requests : List Request) {m : BfdSessionManager}, TouchCpp a m s →
    AllAside a m requests → TouchCpp a (requests.foldl serve m) s ∧ wroteTo a (requests.foldl serve m).log =
      wroteTo a m.log ++ List.replicate (requests.countP isRound) (ctrlPacket s).toPacket
  | [], _, h, _ => ⟨h, (List.append_nil _).symm⟩
  | r :: requests, m, h, haside => by
    obtain ⟨h₁, hlog⟩ := h.aside haside.1
    obtain ⟨h', hlog'⟩ := foldl_speaks requests h₁ haside.2
    refine ⟨h', ?_⟩
    rw [List.foldl_cons, hlog', hlog, List.append_assoc, List.replicate_append_replicate, List.countP_cons,
      Nat.add_comm]

/-- A request that is heeded: a datagram of the peer is heard. -/
theorem TouchCpp.heeds {t : SessState} (h : TouchCpp a m s) {r : Request} (hr : HeedsCpp a r)
    (htells : ∀ pkt, payloadCpp a r = some pkt → Tells True pkt t) :
    ∃ s', TouchCpp a (m.serve r) s' ∧
      s'.state = hear (SessState.react .init) (payloadCpp a r).toList.length s.state t := by
  cases r with
  | tick curms itrs => exact hr.elim
  | subscribe ipaddr port =>
    refine ⟨s, (h.other rfl fun endp w hw => ?_).1, rfl⟩
    obtain rfl := (Option.ite_none_right_eq_some.mp hw).1
    exact hr
  | unsubscribe ipaddr port =>
    refine ⟨s, (h.other rfl fun endp w hw => ?_).1, rfl⟩
    obtain rfl := (Option.ite_none_right_eq_some.mp hw).1
    exact hr
  | recieve endpR pkt curms =>
    by_cases hpeer : endpR = ⟨a, bfdSrcportinit⟩
    · subst hpeer
      have hpayload : payloadCpp a (.recieve ⟨a, bfdSrcportinit⟩ pkt curms) = some pkt := if_pos rfl
      rw [hpayload]
      exact h.heard (htells pkt hpayload)
    · have hpayload : payloadCpp a (.recieve endpR pkt curms) = none := if_neg hpeer
      rw [hpayload]
      refine ⟨s, (h.other rfl fun endp w hw => ?_).1, rfl⟩
      obtain ⟨rfl, -⟩ := (Option.ite_none_right_eq_some.mp hw).1
      exact fun haddr => hpeer (hr haddr)

theorem TouchCpp.foldl_hears {t : SessState} : ∀ (requests : List Request) {m : BfdSessionManager} {s : BfdSession},
    TouchCpp a m s → (∀ r ∈ requests, HeedsCpp a r) → (∀ pkt ∈ requests.filterMap (payloadCpp a), Tells True pkt t) →
    ∃ s', TouchCpp a (requests.foldl serve m) s' ∧ s'.state =
      hear (SessState.react .init) (requests.filterMap (payloadCpp a)).length s.state t
  | [], _, s, h, _, _ => ⟨s, h, rfl⟩
  | r :: requests, m, s, h, hheeds, htells => by
    have hpkts : (r :: requests).filterMap (payloadCpp a) =
        (payloadCpp a r).toList ++ requests.filterMap (payloadCpp a) := by
      cases hp : payloadCpp a r with
      | none => exact List.filterMap_cons_none hp
      | some pkt => exact List.filterMap_cons_some hp
    rw [hpkts] at htells ⊢
    obtain ⟨s₁, h₁, hstate⟩ := h.heeds (hheeds r (List.mem_cons_self ..)) fun pkt hpkt =>
      htells pkt (List.mem_append_left _ (Option.mem_toList.mpr hpkt))
    obtain ⟨s', h', hstate'⟩ := foldl_hears requests h₁ (fun r hr => hheeds r (List.mem_cons_of_mem _ hr))
      fun p hp => htells p (List.mem_append_right _ hp)
    refine ⟨s', h', ?_⟩
    rw [hstate', hstate, List.length_append, Nat.add_comm, hear_add]

theorem SpeaksCpp.tells {n : ℕ} {m' : BfdSessionManager} {pkts : List (List Byte)} {t : SessState}
    (h : SpeaksCpp a n m m' pkts) (hs : InTouchCpp a m t) :
    InTouchCpp a m' t ∧ pkts.length = n ∧ ∀ pkt ∈ pkts, Tells False pkt t := by
  obtain ⟨s, htouch, rfl⟩ := hs
  obtain ⟨requests, rfl, haside, rfl, hto⟩ := h
  obtain ⟨h', hto'⟩ := htouch.foldl_speaks requests haside
  obtain rfl : pkts = List.replicate (requests.countP isRound) (ctrlPacket s).toPacket :=
    List.append_cancel_left (hto.symm.trans hto')
  refine ⟨⟨s, h', rfl⟩, List.length_replicate, fun pkt hpkt => ?_⟩
  obtain rfl := List.eq_of_mem_replicate hpkt
  exact htouch.tells

theorem HearsCpp.reacts {m' : BfdSessionManager} {pkts : List (List Byte)} {s t : SessState}
    (h : HearsCpp a pkts m m') (hs : InTouchCpp a m s) (ht : ∀ pkt ∈ pkts, Tells True pkt t) :
    InTouchCpp a m' (hear (SessState.react .init) pkts.length s t) := by
  obtain ⟨psess, htouch, rfl⟩ := hs
  obtain ⟨requests, rfl, hheeds, rfl⟩ := h
  obtain ⟨s', h', hstate⟩ := htouch.foldl_hears requests hheeds ht
  exact ⟨s', h', hstate⟩

end Turn

/-- bfdd_cpp with a peer at `a`. -/
def cppParty (a : BitVec 32) : Party BfdSessionManager (List Byte) SessState (Tells False) (Tells True) where
  react := SessState.react .init
  inState := InTouchCpp a
  speaks := SpeaksCpp a
  hears := HearsCpp a
  speaks_shows := SpeaksCpp.tells
  hears_react := HearsCpp.reacts

end NetworkBfd.Network
