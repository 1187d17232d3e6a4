import NetworkBfd.Lib.Exchange
import NetworkBfd.Bfdd.Detection
import NetworkBfd.Network.Hosts

/-!
# bfdd takes turns with a peer

In its turn bfdd ticks, and packets of other hosts may come in between (`Speaks`); then it takes what the peer sent
(`Hears`). While it has one attached session for the address of the peer, its ticks say the state of that session, once
each, and the packets of the peer move it as `SessState.react` says (`bfddParty`).
-/

namespace NetworkBfd.Network

open Lib Smmr Bfdd BfddCpp

/-- The packet passes the checks and says `t`, without Poll. If it is plain, it has no Final and announces an
interval. -/
structure Tells (plain : Prop) (pkt : List Byte) (t : SessState) : Prop where
  accepted : recvAccepts pkt.length (Bfd.ofPacket pkt) = true
  state : SessState.ofBits (Bfd.ofPacket pkt).state = t
  poll : (Bfd.ofPacket pkt).poll = 0
  plain : plain → (Bfd.ofPacket pkt).final = 0 ∧ (Bfd.ofPacket pkt).minRxInt ≠ 0

/-! ## bfdd in a turn -/

/-- The peer at address `b`, which sends from the client side port. -/
def peerOf (b : BitVec 32) : SockaddrIn := sockaddrOf ⟨b, bfdSrcportinit⟩

/-- What was sent to the BFD port of `b`, oldest first. -/
def toHost (b : BitVec 32) (log : List Event) : List (List Byte) :=
  ((sents log).filter fun p => endpointOf p.2.1 = ⟨b, bfddfltUdpport⟩).reverse.map fun p => p.2.2.toPacket

/-- A packet from another host than `b`, or a tick whose packets the socket takes. -/
def Aside (b : BitVec 32) : Bfdd.Action → Prop
  | .recv cAddr _ _ _ _ => cAddr.addr ≠ htonl b
  | .tick results => ∀ r ∈ results, 0 < r

/-- A packet, from the client side port if `b` sent it. -/
def Heeds (b : BitVec 32) : Bfdd.Action → Prop
  | .recv cAddr _ _ _ _ => cAddr.addr = htonl b → cAddr = peerOf b
  | .tick _ => False

def isTick : Bfdd.Action → Bool
  | .recv .. => false
  | .tick _ => true

/-- The packet, if `b` sent it. -/
def payload (b : BitVec 32) : Bfdd.Action → Option (List Byte)
  | .recv cAddr pkt _ _ _ => if cAddr = peerOf b then some pkt else none
  | .tick _ => none

/-- bfdd ticks `n` times, and sends `pkts` to `b`. -/
def Speaks (b : BitVec 32) (n : ℕ) (d d' : Daemon) (pkts : List (List Byte)) : Prop :=
  ∃ actions : List Bfdd.Action, d' = actions.foldl Daemon.step d ∧ AllInserted d'.log ∧ (∀ a ∈ actions, Aside b a) ∧
    actions.countP isTick = n ∧ toHost b d'.log = toHost b d.log ++ pkts

/-- bfdd takes `pkts` from `b`. -/
def Hears (b : BitVec 32) (pkts : List (List Byte)) (d d' : Daemon) : Prop :=
  ∃ actions : List Bfdd.Action, d' = actions.foldl Daemon.step d ∧ AllInserted d'.log ∧ (∀ a ∈ actions, Heeds b a) ∧
    actions.filterMap (payload b) = pkts

/-- The daemon has an attached session for the peer at `b`, and for no other one at this address. -/
structure Touch (plain : Prop) (b : BitVec 32) (d : Daemon) (R : Registry) (sess : BfdSess) : Prop where
  caused : Caused d R
  only : ∀ k bfd, (k, bfd) ∈ arrivals d.log → k.addr = htonl b → k = keyt (peerOf b)
  stored : R.sess (keyt (peerOf b)) = some sess
  on : sess.attached ≠ bfdOff
  plain : plain → sess.pollbitOn ≠ bfdOn ∧ sess.requiredMinRxInterval ≠ 0

/-- The session for the peer at `b` is in state `s`. -/
def InTouch (plain : Prop) (b : BitVec 32) (d : Daemon) (s : SessState) : Prop :=
  ∃ R sess, Touch plain b d R sess ∧ sess.state = s

section Turn

variable {plain : Prop} {b : BitVec 32} {d : Daemon} {R : Registry} {sess : BfdSess}

/-- The one session that is sent for to `b`. -/
theorem Touch.aimed (h : Touch plain b d R sess) {k : SessKey} {s : BfdSess} (hs : R.sess k = some s) :
    endpointOf s.clientAddr = ⟨b, bfddfltUdpport⟩ ↔ k = keyt (peerOf b) := by
  obtain ⟨haimed, bfd, hbfd⟩ := h.caused.stored k s hs
  have haddr : endpointOf s.clientAddr = ⟨htonl k.addr, bfddfltUdpport⟩ := by
    rw [endpointOf, haimed.addr, haimed.port, htons_htons]
  rw [haddr, Endpoint.mk.injEq, and_iff_left rfl]
  constructor
  · intro hb
    exact h.only k bfd hbfd (by rw [← hb, htonl_htonl])
  · rintro rfl
    exact htonl_htonl b

/-- What is sent for the session. -/
theorem Touch.outgoing (h : Touch plain b d R sess) : outgoing sess = some (ctrlPacket sess) := by
  obtain ⟨-, hlocal, hremote⟩ := ((h.caused.base.sound _ sess h.stored).attached).resolve_left h.on
  unfold Bfdd.outgoing
  dsimp only
  rw [if_neg h.on, if_neg]
  rintro ⟨hzero | hzero, -⟩
  · exact hremote hzero
  · exact hlocal hzero

theorem Touch.tells (h : Touch plain b d R sess) : Tells plain (ctrlPacket sess).toPacket sess.state := by
  have hsound := h.caused.base.sound _ sess h.stored
  obtain ⟨hok, hshows⟩ := hsound.shown h.outgoing
  refine ⟨hok, ?_, ?_, fun hp => ?_⟩
  · have hwide : ∀ v : BitVec 2, (v.setWidth 32).setWidth 2 = v := by decide
    rw [BfdSess.state, ← hshows.state, hwide]
  · rw [Bfd.ofPacket_toPacket]
    rfl
  · obtain ⟨hpoll, hint⟩ := h.plain hp
    rw [Bfd.ofPacket_toPacket]
    refine ⟨if_neg hpoll, fun hz => hint ?_⟩
    rw [← htonl_htonl sess.requiredMinRxInterval, show htonl sess.requiredMinRxInterval = 0 from hz]
    rfl

/-- The sessions of a store are determined. -/
theorem caused_of_table {R' : Registry} (h : Caused d R) (h' : SoundTable d R') : Caused d R' := by
  have hsess : ∀ k s, R'.sess k = some s → R.sess k = some s := by
    intro k s hs
    have h1 := (h.base.table.sessions k).symm.trans (h'.table.sessions k)
    rw [hs] at h1
    obtain ⟨s', hs', he⟩ := Option.map_eq_some_iff.mp h1
    rw [hs', BfdSess.codec.encode_injective he]
  exact ⟨h', fun k s hs => h.stored k s (hsess k s hs), h.sent⟩

/-- The packets to `b`, with more of them in front. -/
theorem toHost_append {log log' : List Event} {new : List (SessKey × SockaddrIn × Bfd)}
    (h : sents log' = new ++ sents log) :
    toHost b log' = toHost b log ++
      ((new.filter fun p => endpointOf p.2.1 = ⟨b, bfddfltUdpport⟩).reverse.map fun p => p.2.2.toPacket) := by
  simp only [toHost, h, List.filter_append, List.reverse_append, List.map_append]

/-- All that comes from an element is kept, or nothing. -/
theorem filter_flatMap_eq {α β : Type*} {f : α → List β} {P : β → Bool} {q : α → Bool} : ∀ l : List α,
    (∀ p ∈ l, ∀ x ∈ f p, P x = q p) → (l.flatMap f).filter P = (l.filter q).flatMap f
  | [], _ => rfl
  | p :: l, h => by
    have ih := filter_flatMap_eq l fun p' hp' => h p' (List.mem_cons_of_mem _ hp')
    have hp := h p (List.mem_cons_self ..)
    rw [List.flatMap_cons, List.filter_append, ih]
    cases hq : q p with
    | true =>
      rw [List.filter_cons_of_pos hq, List.flatMap_cons, List.filter_eq_self.mpr fun x hx => (hp x hx).trans hq]
    | false =>
      have hnone : (f p).filter P = [] := List.filter_eq_nil_iff.mpr fun x hx => by
        rw [hp x hx, hq]
        exact Bool.false_ne_true
      rw [hnone, List.filter_cons_of_neg (by rw [hq]; exact Bool.false_ne_true), List.nil_append]

/-- A tick says the state to `b`, once. -/
theorem Touch.tick (h : Touch plain b d R sess) {results : List Int} (hsent : ∀ r ∈ results, 0 < r) :
    Touch plain b (d.step (.tick results)) R sess ∧
      toHost b (d.step (.tick results)).log = toHost b d.log ++ [(ctrlPacket sess).toPacket] := by
  obtain ⟨-, -, -, harrivals⟩ := sendBfdEvent_step h.caused.base.table results
  obtain ⟨vs, hperm, hsents⟩ := sendBfdEvent_all h.caused.base.table hsent
  have hone : vs.reverse.filter (fun p => p.1 = keyt (peerOf b)) = [(keyt (peerOf b), sess)] := by
    have hperm' : vs.reverse.Perm R.entries := (List.reverse_perm vs).trans hperm
    have hnodup : vs.reverse.Nodup := (List.Perm.nodup_iff hperm').mpr R.nodup_entries.of_map
    refine List.perm_singleton.mp ((List.perm_ext_iff_of_nodup (hnodup.filter _) (List.nodup_singleton _)).mpr ?_)
    rintro ⟨k, s⟩
    rw [List.mem_filter, hperm'.mem_iff, Registry.mem_entries, List.mem_singleton, Prod.mk.injEq, decide_eq_true_iff]
    constructor
    · rintro ⟨hs, rfl⟩
      exact ⟨rfl, Option.some.inj (hs.symm.trans h.stored)⟩
    · rintro ⟨rfl, rfl⟩
      exact ⟨h.stored, rfl⟩
  have hnew : (vs.reverse.flatMap fun p => transmission p.1 p.2).filter
      (fun p => endpointOf p.2.1 = ⟨b, bfddfltUdpport⟩) = transmission (keyt (peerOf b)) sess := by
    refine (filter_flatMap_eq (q := fun p => p.1 = keyt (peerOf b)) _ fun p hp x hx => ?_).trans ?_
    · obtain ⟨k, dest, bfd⟩ := x
      obtain ⟨rfl, rfl, -⟩ := mem_transmission.mp hx
      exact decide_eq_decide.mpr (h.aimed (Registry.mem_entries.mp (hperm.mem_iff.mp (List.mem_reverse.mp hp))))
    · rw [hone, List.flatMap_singleton]
  obtain ⟨R', hR'⟩ := Daemon.step_caused h.caused (.tick results)
  refine ⟨⟨caused_of_table hR' ⟨h.caused.base.table, h.caused.base.sound, h.caused.base.incr⟩, fun k bfd hk => ?_,
    h.stored, h.on, h.plain⟩, ?_⟩
  · rw [Daemon.step, harrivals] at hk
    exact h.only k bfd hk
  · rw [Daemon.step, toHost_append hsents, hnew, transmission, h.outgoing]
    rfl

/-- A packet of another host leaves the session, and is not answered to `b`. -/
theorem Touch.other (h : Touch plain b d R sess) {cAddr : SockaddrIn} {pkt : List Byte} {stack : BfdSess}
    {curms : BitVec 64} {results : List Int} (hne : cAddr.addr ≠ htonl b)
    (hall : AllInserted (d.step (.recv cAddr pkt stack curms results)).log) :
    ∃ R', Touch plain b (d.step (.recv cAddr pkt stack curms results)) R' sess ∧
      toHost b (d.step (.recv cAddr pkt stack curms results)).log = toHost b d.log := by
  obtain ⟨R₁, hR₁⟩ := Daemon.step_caused h.caused (.recv cAddr pkt stack curms results)
  obtain ⟨R', hR', hsess⟩ := step_table h.caused.base hall
  have hkey : keyt (peerOf b) ≠ keyt cAddr := fun he => hne (congrArg SessKey.addr he).symm
  rcases @recvBfdEvent_step d R cAddr sizeofSockaddrIn curms results pkt stack h.caused.base.table (by decide) with
    ⟨-, heq⟩ | ⟨hok, R₂, called, hR₂, hother, ho, hsents, harrivals⟩
  · rw [Daemon.step, heq]
    exact ⟨R, h, rfl⟩
  · obtain ⟨-, hcalled⟩ := ho.aimed fun s hs => (h.caused.stored _ s hs).1
    have hnone : (called.flatMap (transmission (keyt cAddr))).filter
        (fun p => endpointOf p.2.1 = ⟨b, bfddfltUdpport⟩) = [] := by
      refine List.filter_eq_nil_iff.mpr fun p hp => ?_
      obtain ⟨s, hs, ht⟩ := List.mem_flatMap.mp hp
      obtain ⟨peer, dest, bfd⟩ := p
      obtain ⟨-, rfl, -⟩ := mem_transmission.mp ht
      rw [decide_eq_true_iff]
      intro he
      have hb : htonl cAddr.addr = b :=
        (congrArg htonl (hcalled s hs).addr).symm.trans (congrArg Endpoint.address he)
      exact hne (by rw [← hb, htonl_htonl])
    refine ⟨R', ⟨caused_of_table hR₁ hR', fun k bfd hk => ?_, ?_, h.on, h.plain⟩, ?_⟩
    · rw [Daemon.step, harrivals] at hk
      rcases List.mem_cons.mp hk with hk | hk
      · obtain ⟨rfl, -⟩ := Prod.mk.inj hk
        exact fun haddr => absurd haddr hne
      · exact h.only k bfd hk
    · rw [hsess, if_pos hok, Function.update_of_ne hkey]
      exact h.stored
    · rw [Daemon.step, toHost_append hsents, hnone]
      exact List.append_nil _

/-- The fields that a packet without Poll leaves. -/
theorem afterPacket_quiet {bfd : Bfd} {curms incr : BitVec 64} (h : Sound sess) (hincr : InRange incr)
    (hpoll : bfd.poll = 0) : (afterPacket bfd curms incr sess).attached = bfdOn ∧
      (afterPacket bfd curms incr sess).pollbitOn = sess.pollbitOn ∧
      (afterPacket bfd curms incr sess).requiredMinRxInterval = sess.requiredMinRxInterval := by
  have hon := (@attach_sound sess incr h hincr).1
  have hattach : (attach sess incr).1.pollbitOn = sess.pollbitOn ∧
      (attach sess incr).1.requiredMinRxInterval = sess.requiredMinRxInterval := by
    unfold attach
    split <;> exact ⟨rfl, rfl⟩
  obtain ⟨state, diag, hframe⟩ := stateMachine_frame (recordPacket bfd curms (attach sess incr).1)
  have hno : bfd.poll ≠ 1 := by
    rw [hpoll]
    decide
  simp only [afterPacket, hframe, if_neg hno]
  exact ⟨hon, hattach⟩

/-- A packet of the peer moves the session. -/
theorem Touch.heard (h : Touch plain b d R sess) {pkt : List Byte} {stack : BfdSess} {curms : BitVec 64}
    {results : List Int} {t : SessState} (htells : Tells False pkt t)
    (hall : AllInserted (d.step (.recv (peerOf b) pkt stack curms results)).log) :
    ∃ R' sess', Touch plain b (d.step (.recv (peerOf b) pkt stack curms results)) R' sess' ∧
      sess'.state = SessState.react .down sess.state t := by
  obtain ⟨R₁, hR₁⟩ := Daemon.step_caused h.caused (.recv (peerOf b) pkt stack curms results)
  obtain ⟨R', hR', hsess⟩ := step_table h.caused.base hall
  have hsound := h.caused.base.sound _ sess h.stored
  obtain ⟨hon, hpoll, hint⟩ := @afterPacket_quiet sess (Bfd.ofPacket pkt) curms d.localDiscriminatorIncr hsound
    h.caused.base.incr htells.poll
  rcases @recvBfdEvent_step d R (peerOf b) sizeofSockaddrIn curms results pkt stack h.caused.base.table (by decide) with
    ⟨hno, -⟩ | ⟨-, -, -, -, -, -, -, harrivals⟩
  · rw [htells.accepted] at hno
    cases hno
  · refine ⟨R', afterPacket (Bfd.ofPacket pkt) curms d.localDiscriminatorIncr sess,
      ⟨caused_of_table hR₁ hR', fun k bfd hk => ?_, ?_, ?_, fun hp => ?_⟩, ?_⟩
    · rw [Daemon.step, harrivals] at hk
      rcases List.mem_cons.mp hk with hk | hk
      · exact fun _ => (Prod.mk.inj hk).1
      · exact h.only k bfd hk
    · rw [hsess, if_pos htells.accepted, Function.update_self, h.stored]
      rfl
    · rw [hon]
      decide
    · rw [hpoll, hint]
      exact h.plain hp
    · rw [← htells.state]
      exact afterPacket_state hsound

/-! ## Turns of bfdd -/

theorem Touch.foldl_speaks : ∀ (actions : List Bfdd.Action) {d : Daemon} {R : Registry}, Touch plain b d R sess →
    (∀ a ∈ actions, Aside b a) → AllInserted (actions.foldl Daemon.step d).log →
    ∃ R', Touch plain b (actions.foldl Daemon.step d) R' sess ∧ toHost b (actions.foldl Daemon.step d).log =
      toHost b d.log ++ List.replicate (actions.countP isTick) (ctrlPacket sess).toPacket
  | [], _, R, h, _, _ => ⟨R, h, (List.append_nil _).symm⟩
  | .tick results :: actions, d, R, h, haside, hall => by
    obtain ⟨h₁, hto⟩ := h.tick (haside _ (List.mem_cons_self ..))
    obtain ⟨R', hR', hto'⟩ := foldl_speaks actions h₁ (fun a ha => haside a (List.mem_cons_of_mem _ ha)) hall
    refine ⟨R', hR', ?_⟩
    rw [List.countP_cons_of_pos rfl, List.foldl_cons, hto', hto, List.append_assoc, List.replicate_succ]
    rfl
  | .recv cAddr pkt stack curms results :: actions, d, R, h, haside, hall => by
    have hall₁ : AllInserted (d.step (.recv cAddr pkt stack curms results)).log :=
      hall.suffix (Daemon.foldl_step_suffix actions _)
    obtain ⟨R₁, h₁, hto⟩ := h.other (haside _ (List.mem_cons_self ..)) hall₁
    obtain ⟨R', hR', hto'⟩ := foldl_speaks actions h₁ (fun a ha => haside a (List.mem_cons_of_mem _ ha)) hall
    refine ⟨R', hR', ?_⟩
    rw [List.countP_cons_of_neg Bool.false_ne_true, List.foldl_cons, hto', hto]

theorem Touch.foldl_hears {t : SessState} : ∀ (actions : List Bfdd.Action) {d : Daemon} {R : Registry} {sess : BfdSess},
    Touch plain b d R sess → (∀ a ∈ actions, Heeds b a) →
    (∀ pkt ∈ actions.filterMap (payload b), Tells False pkt t) → AllInserted (actions.foldl Daemon.step d).log →
    ∃ R' sess', Touch plain b (actions.foldl Daemon.step d) R' sess' ∧ sess'.state =
      hear (SessState.react .down) (actions.filterMap (payload b)).length sess.state t
  | [], _, R, sess, h, _, _, _ => ⟨R, sess, h, rfl⟩
  | .tick results :: actions, _, _, _, _, hheeds, _, _ => (hheeds _ (List.mem_cons_self ..)).elim
  | .recv cAddr pkt stack curms results :: actions, d, R, sess, h, hheeds, htells, hall => by
    have hall₁ : AllInserted (d.step (.recv cAddr pkt stack curms results)).log :=
      hall.suffix (Daemon.foldl_step_suffix actions _)
    have hheeds' : ∀ a ∈ actions, Heeds b a := fun a ha => hheeds a (List.mem_cons_of_mem _ ha)
    by_cases hpeer : cAddr = peerOf b
    · subst hpeer
      have hpayload : payload b (.recv (peerOf b) pkt stack curms results) = some pkt := if_pos rfl
      rw [List.filterMap_cons_some hpayload] at htells ⊢
      obtain ⟨R₁, sess₁, h₁, hstate⟩ := h.heard (htells pkt (List.mem_cons_self ..)) hall₁
      obtain ⟨R', sess', hR', hstate'⟩ := foldl_hears actions h₁ hheeds'
        (fun p hp => htells p (List.mem_cons_of_mem _ hp)) hall
      refine ⟨R', sess', hR', ?_⟩
      rw [hstate', hstate, List.length_cons, hear_add]
      rfl
    · have hpayload : payload b (.recv cAddr pkt stack curms results) = none := if_neg hpeer
      rw [List.filterMap_cons_none hpayload] at htells ⊢
      obtain ⟨R₁, h₁, -⟩ := h.other (fun haddr => hpeer (hheeds _ (List.mem_cons_self ..) haddr)) hall₁
      exact foldl_hears actions h₁ hheeds' htells hall

theorem Speaks.tells {n : ℕ} {d' : Daemon} {pkts : List (List Byte)} {s : SessState} (h : Speaks b n d d' pkts)
    (hs : InTouch plain b d s) : InTouch plain b d' s ∧ pkts.length = n ∧ ∀ pkt ∈ pkts, Tells plain pkt s := by
  obtain ⟨R, sess, htouch, rfl⟩ := hs
  obtain ⟨actions, rfl, hall, haside, rfl, hto⟩ := h
  obtain ⟨R', hR', hto'⟩ := htouch.foldl_speaks actions haside hall
  obtain rfl : pkts = List.replicate (actions.countP isTick) (ctrlPacket sess).toPacket :=
    List.append_cancel_left (hto.symm.trans hto')
  refine ⟨⟨R', sess, hR', rfl⟩, List.length_replicate, fun pkt hpkt => ?_⟩
  obtain rfl := List.eq_of_mem_replicate hpkt
  exact htouch.tells

theorem Hears.reacts {d' : Daemon} {pkts : List (List Byte)} {s t : SessState} (h : Hears b pkts d d')
    (hs : InTouch plain b d s) (ht : ∀ pkt ∈ pkts, Tells False pkt t) :
    InTouch plain b d' (hear (SessState.react .down) pkts.length s t) := by
  obtain ⟨R, sess, htouch, rfl⟩ := hs
  obtain ⟨actions, rfl, hall, hheeds, rfl⟩ := h
  obtain ⟨R', sess', hR', hstate⟩ := htouch.foldl_hears actions hheeds ht hall
  exact ⟨R', sess', hR', hstate⟩

end Turn

/-- bfdd with a peer at `b`. -/
def bfddParty (plain : Prop) (b : BitVec 32) : Party Daemon (List Byte) SessState (Tells plain) (Tells False) where
  react := SessState.react .down
  inState := InTouch plain b
  speaks := Speaks b
  hears := Hears b
  speaks_shows := Speaks.tells
  hears_react := Hears.reacts

end NetworkBfd.Network
