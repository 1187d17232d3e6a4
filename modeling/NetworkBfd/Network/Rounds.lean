import NetworkBfd.Network.CppTurns

/-!
# Two daemons take turns

What rounds of two parties do to their states is the work of nine pairs of states and nine pairs of small numbers
(`exchange_few`). Two bfdd come Up together after three rounds in which someone ticks an odd number of times; two that
start Down stay there as long as everyone ticks an even number of times, since bfdd in state Init goes back to Down
(`pair_settles`). bfdd and bfdd_cpp, which stays in state Init, come Up in three rounds of any kind
(`pair_settles_cpp`).
-/

namespace NetworkBfd.Network

open Lib Smmr Bfdd Bfdd.SessState BfddCpp

/-! ## The states of two parties -/

/-- The states that stored sessions are in. -/
def moving : List SessState := [.down, .init, .up]

def Moving (q : SessState × SessState) : Prop := q.1 ∈ moving ∧ q.2 ∈ moving

/-- How many rounds two daemons are away from Up at most. -/
def rank : SessState × SessState → ℕ
  | (.up, .up) => 0
  | (.init, _) => 1
  | (.up, .init) => 1
  | (.down, .down) => 2
  | _ => 3

/-- The same, if the right one is bfdd_cpp. -/
def rankCpp : SessState × SessState → ℕ
  | (.up, .up) => 0
  | (.init, _) => 1
  | (.up, .init) => 1
  | (.down, .up) => 3
  | (.up, .down) => 3
  | _ => 2

/-- Both say something. -/
def Talking (r : ℕ × ℕ) : Prop := 0 < r.1 ∧ 0 < r.2

/-- One of the two says its state an odd number of times. -/
def uneven (r : ℕ × ℕ) : Bool := r.1 % 2 = 1 || r.2 % 2 = 1

theorem alternates_react {back : SessState} (hback : back = .down ∨ back = .init) : Alternates (react back) := by
  intro s t
  rcases hback with rfl | rfl <;> cases s <;> cases t <;> rfl

/-- The rounds that stand for all. -/
def few : List ℕ := [1, 2, 3]

theorem short_few {n : ℕ} (hn : 0 < n) : short n ∈ few := by
  have hpos := short_pos hn
  have hlt := short_lt n
  simp only [few, List.mem_cons, List.not_mem_nil, or_false]
  omega

theorem exchange_few : ∀ m ∈ few, ∀ n ∈ few, ∀ s ∈ moving, ∀ t ∈ moving,
    (exchange (react .down) (react .down) (m, n) (s, t)).1 ∈ moving ∧
    (exchange (react .down) (react .down) (m, n) (s, t)).2 ∈ moving ∧
    rank (exchange (react .down) (react .down) (m, n) (s, t)) ≤ rank (s, t) ∧
    (uneven (m, n) = true → rank (exchange (react .down) (react .down) (m, n) (s, t)) ≤ rank (s, t) - 1) ∧
    (rank (s, t) = 1 → rank (exchange (react .down) (react .down) (m, n) (s, t)) = 0) := by
  decide

theorem exchange_few_down : ∀ m ∈ few, ∀ n ∈ few,
    if uneven (m, n) = true then rank (exchange (react .down) (react .down) (m, n) (.down, .down)) = 1
    else exchange (react .down) (react .down) (m, n) (.down, .down) = (.down, .down) := by
  decide

theorem exchange_few_cpp : ∀ m ∈ few, ∀ n ∈ few, ∀ s ∈ moving, ∀ t ∈ moving,
    (exchange (react .down) (react .init) (m, n) (s, t)).1 ∈ moving ∧
    (exchange (react .down) (react .init) (m, n) (s, t)).2 ∈ moving ∧
    rankCpp (exchange (react .down) (react .init) (m, n) (s, t)) ≤ rankCpp (s, t) - 1 := by
  decide

theorem uneven_short (r : ℕ × ℕ) : uneven (short r.1, short r.2) = uneven r := by
  simp only [uneven, short_mod_two]

theorem rank_eq_zero {q : SessState × SessState} : rank q = 0 ↔ q = (.up, .up) := by
  obtain ⟨s, t⟩ := q
  cases s <;> cases t <;> decide

theorem rankCpp_eq_zero {q : SessState × SessState} : rankCpp q = 0 ↔ q = (.up, .up) := by
  obtain ⟨s, t⟩ := q
  cases s <;> cases t <;> decide

/-- The rounds of two parties that go back to Down. -/
abbrev together (q : SessState × SessState) (r : ℕ × ℕ) : SessState × SessState :=
  exchange (react .down) (react .down) r q

/-- The rounds of two parties the right one of which stays in state Init. -/
abbrev togetherCpp (q : SessState × SessState) (r : ℕ × ℕ) : SessState × SessState :=
  exchange (react .down) (react .init) r q

section Round

variable {q : SessState × SessState} {r : ℕ × ℕ}

theorem together_short (q : SessState × SessState) (r : ℕ × ℕ) : together q r = together q (short r.1, short r.2) :=
  exchange_short (alternates_react (.inl rfl)) (alternates_react (.inl rfl)) r q

theorem together_moving (hq : Moving q) (hr : Talking r) : Moving (together q r) := by
  rw [together_short]
  obtain ⟨h1, h2, -⟩ := exchange_few _ (short_few hr.1) _ (short_few hr.2) _ hq.1 _ hq.2
  exact ⟨h1, h2⟩

theorem rank_together (hq : Moving q) (hr : Talking r) : rank (together q r) ≤ rank q := by
  rw [together_short]
  exact (exchange_few _ (short_few hr.1) _ (short_few hr.2) _ hq.1 _ hq.2).2.2.1

theorem rank_together_uneven (hq : Moving q) (hr : Talking r) (hu : uneven r = true) :
    rank (together q r) ≤ rank q - 1 := by
  rw [together_short]
  exact (exchange_few _ (short_few hr.1) _ (short_few hr.2) _ hq.1 _ hq.2).2.2.2.1 ((uneven_short r).trans hu)

theorem rank_together_one (hq : Moving q) (hr : Talking r) (hrank : rank q = 1) : rank (together q r) = 0 := by
  rw [together_short]
  exact (exchange_few _ (short_few hr.1) _ (short_few hr.2) _ hq.1 _ hq.2).2.2.2.2 hrank

theorem together_down (hr : Talking r) :
    if uneven r = true then rank (together (.down, .down) r) = 1 else together (.down, .down) r = (.down, .down) := by
  rw [together_short, ← uneven_short r]
  exact exchange_few_down _ (short_few hr.1) _ (short_few hr.2)

theorem togetherCpp_settles (hq : Moving q) (hr : Talking r) :
    Moving (togetherCpp q r) ∧ rankCpp (togetherCpp q r) ≤ rankCpp q - 1 := by
  rw [togetherCpp, exchange_short (alternates_react (.inl rfl)) (alternates_react (.inr rfl))]
  obtain ⟨h1, h2, h3⟩ := exchange_few_cpp _ (short_few hr.1) _ (short_few hr.2) _ hq.1 _ hq.2
  exact ⟨⟨h1, h2⟩, h3⟩

end Round

/-- Uneven rounds bring the parties closer to Up, and no round takes them away. -/
theorem rank_foldl {rounds : List (ℕ × ℕ)} {q : SessState × SessState} (hq : Moving q) (hr : ∀ r ∈ rounds, Talking r) :
    rank (rounds.foldl together q) ≤ rank q - rounds.countP uneven :=
  (@foldl_rank _ _ together Moving Talking rank uneven (fun _ _ => together_moving) (fun _ _ => rank_together)
    (fun _ _ => rank_together_uneven) rounds q hq hr).2

/-- All rounds do where the right party is bfdd_cpp. -/
theorem rankCpp_foldl {rounds : List (ℕ × ℕ)} {q : SessState × SessState} (hq : Moving q)
    (hr : ∀ r ∈ rounds, Talking r) : rankCpp (rounds.foldl togetherCpp q) ≤ rankCpp q - rounds.length := by
  have h := (@foldl_rank _ _ togetherCpp Moving Talking rankCpp (fun _ => true)
    (fun _ _ hq hr => (togetherCpp_settles hq hr).1)
    (fun _ _ hq hr => (togetherCpp_settles hq hr).2.trans (Nat.sub_le _ _))
    (fun _ _ hq hr _ => (togetherCpp_settles hq hr).2) rounds q hq hr).2
  rwa [List.countP_true] at h

theorem rank_le (q : SessState × SessState) : rank q ≤ 3 ∧ rankCpp q ≤ 3 := by
  obtain ⟨s, t⟩ := q
  cases s <;> cases t <;> decide

/-- Three uneven rounds are enough. -/
theorem foldl_together {rounds : List (ℕ × ℕ)} {q : SessState × SessState} (hq : Moving q)
    (hr : ∀ r ∈ rounds, Talking r) (hthree : 3 ≤ rounds.countP uneven) : rounds.foldl together q = (.up, .up) := by
  have hrank := rank_foldl hq hr
  have hle := (rank_le q).1
  exact rank_eq_zero.mp (by omega)

/-- From Down on both sides, it takes an uneven round before the last one. -/
theorem foldl_together_down : ∀ (rounds : List (ℕ × ℕ)), (∀ r ∈ rounds, Talking r) →
    (rounds.foldl together (.down, .down) = (.up, .up) ↔ ∃ r ∈ rounds.dropLast, uneven r = true)
  | [], _ => by simp
  | [r], hr => by
    have h := together_down (hr r (List.mem_cons_self ..))
    simp only [List.foldl_cons, List.foldl_nil, List.dropLast_singleton, List.not_mem_nil, false_and, exists_false,
      iff_false]
    intro hup
    rw [hup] at h
    split at h <;> cases h
  | r :: r' :: rounds, hr => by
    have hr' : ∀ r'' ∈ r' :: rounds, Talking r'' := fun r'' h => hr r'' (List.mem_cons_of_mem _ h)
    have h := together_down (hr r (List.mem_cons_self ..))
    rw [List.foldl_cons, List.dropLast_cons_cons]
    split at h
    · rename_i hu
      have hmoving : Moving (together (.down, .down) r) :=
        together_moving ⟨List.mem_cons_self .., List.mem_cons_self ..⟩ (hr r (List.mem_cons_self ..))
      have hone := rank_together_one hmoving (hr' r' (List.mem_cons_self ..)) h
      have hle := rank_foldl (together_moving hmoving (hr' r' (List.mem_cons_self ..)))
        fun r'' hmem => hr' r'' (List.mem_cons_of_mem _ hmem)
      refine iff_of_true (rank_eq_zero.mp ?_) ⟨r, List.mem_cons_self .., hu⟩
      rw [List.foldl_cons]
      omega
    · rename_i hu
      rw [h, foldl_together_down (r' :: rounds) hr']
      simp only [List.mem_cons, exists_eq_or_imp, hu, Bool.false_eq_true, false_or]

/-- With bfdd_cpp, three rounds are. -/
theorem foldl_togetherCpp {rounds : List (ℕ × ℕ)} {q : SessState × SessState} (hq : Moving q)
    (hr : ∀ r ∈ rounds, Talking r) (hthree : 3 ≤ rounds.length) : rounds.foldl togetherCpp q = (.up, .up) := by
  have hrank := rankCpp_foldl hq hr
  have hle := (rank_le q).2
  exact rankCpp_eq_zero.mp (by omega)

/-! ## Two daemons -/

/-- bfdd has an attached session for the peer at `b`, and every packet from there came from its port. -/
structure Touching (b : BitVec 32) (d : Daemon) (sess : BfdSess) : Prop where
  found : d.kv.findSession (peerOf b) sizeofSockaddrIn = some sess
  on : sess.attached ≠ bfdOff
  only : ∀ k bfd, (k, bfd) ∈ arrivals d.log → k.addr = htonl b → k = keyt (peerOf b)

/-- bfdd_cpp has a connected session for the peer at `a`, no other one for this address, and writes for it. -/
structure TouchingCpp (a : BitVec 32) (m : BfdSessionManager) (s : BfdSession) : Prop where
  found : m.findUnsafe a bfdSrcportinit = some s
  connected : s.conn.isSome
  only : ∀ endp : Endpoint, (m.findUnsafe endp.address endp.port).isSome → endp.address = a → endp.port = bfdSrcportinit
  echo : s.mustCeaseTxEcho = bfdOff
  terminate : s.mustTerminate = bfdOff
  interval : s.remoteMinRxInterval ≠ 0

/-- The session of bfdd for the peer at `b` is Up. -/
def UpTo (b : BitVec 32) (d : Daemon) : Prop :=
  (d.kv.findSession (peerOf b) sizeofSockaddrIn).map BfdSess.state = some .up

/-- The session of bfdd_cpp for the peer at `a` is Up. -/
def UpToCpp (a : BitVec 32) (m : BfdSessionManager) : Prop :=
  (m.findUnsafe a bfdSrcportinit).map BfdSession.state = some .up

section Pair

variable {a b : BitVec 32} {plain : Prop}

theorem Touch.moving {d : Daemon} {R : Registry} {sess : BfdSess} (h : Touch plain b d R sess) :
    sess.state ∈ moving := by
  have hsound := h.caused.base.sound _ sess h.stored
  unfold BfdSess.state
  rcases hsound.states with hs | hs | hs <;> rw [hs] <;> decide

theorem TouchCpp.moving {m : BfdSessionManager} {s : BfdSession} (h : TouchCpp a m s) : s.state ∈ moving := by
  obtain ⟨history, hobeys⟩ := h.obeys
  unfold BfdSession.state
  rcases (hobeys.kept _ s h.stored).states with hs | hs | hs <;> rw [hs] <;> decide

theorem InTouch.upTo {d : Daemon} {s : SessState} (h : InTouch plain b d s) : UpTo b d ↔ s = .up := by
  obtain ⟨R, sess, htouch, rfl⟩ := h
  rw [UpTo, Kv.findSession_eq htouch.caused.base.table (peerOf b) (by decide), htouch.stored, Option.map_some,
    Option.some.injEq]

theorem InTouchCpp.upTo {m : BfdSessionManager} {s : SessState} (h : InTouchCpp a m s) : UpToCpp a m ↔ s = .up := by
  obtain ⟨psess, htouch, rfl⟩ := h
  rw [UpToCpp, show m.findUnsafe a bfdSrcportinit = some psess from htouch.stored, Option.map_some, Option.some.injEq]

theorem Touching.touch {actions : List Bfdd.Action} {sess : BfdSess} (h : Touching b (Daemon.run actions) sess)
    (hplain : plain → sess.pollbitOn ≠ bfdOn ∧ sess.requiredMinRxInterval ≠ 0) :
    ∃ R, Touch plain b (Daemon.run actions) R sess := by
  obtain ⟨R, hR⟩ := Daemon.run_caused actions
  have hfind := h.found
  rw [Kv.findSession_eq hR.base.table (peerOf b) (by decide)] at hfind
  exact ⟨R, hR, h.only, hfind, h.on, hplain⟩

theorem TouchingCpp.touch {requests : List Request} {s : BfdSession}
    (h : TouchingCpp a (BfdSessionManager.serveAll requests) s) :
    TouchCpp a (BfdSessionManager.serveAll requests) s := by
  refine ⟨⟨_, BfdSessionManager.serveAll_obeys requests⟩, fun endp hendp haddr => ?_, h.found, h.connected, h.echo,
    h.terminate, h.interval⟩
  have hport := h.only endp hendp haddr
  cases endp
  cases haddr
  cases hport
  rfl

end Pair

/-- Two bfdd that take turns, each with any number of ticks in its turn and with packets of other peers in between.
Three turns with an odd number of ticks bring them both Up; if both start Down, an odd number before the last round
does, and without one they never come Up. -/
theorem pair_settles {before before' : List Bfdd.Action} {a b : BitVec 32} {s t : BfdSess} {rounds : List (ℕ × ℕ)}
    {d e : Daemon} (hs : Touching b (Daemon.run before) s) (ht : Touching a (Daemon.run before') t)
    (hrounds : Rounds (bfddParty False b) (bfddParty False a) rounds (Daemon.run before) (Daemon.run before') d e)
    (htalk : ∀ r ∈ rounds, Talking r) :
    (3 ≤ rounds.countP uneven → UpTo b d ∧ UpTo a e) ∧
    (s.state = .down → t.state = .down → (UpTo b d ∧ UpTo a e ↔ ∃ r ∈ rounds.dropLast, uneven r = true)) := by
  obtain ⟨R, htouch⟩ : ∃ R, Touch False b (Daemon.run before) R s := hs.touch False.elim
  obtain ⟨R', htouch'⟩ : ∃ R', Touch False a (Daemon.run before') R' t := ht.touch False.elim
  obtain ⟨h1, h2⟩ := hrounds.inState (s := s.state) (t := t.state) ⟨R, s, htouch, rfl⟩ ⟨R', t, htouch', rfl⟩
  have hup : UpTo b d ∧ UpTo a e ↔ rounds.foldl together (s.state, t.state) = (.up, .up) := by
    rw [h1.upTo, h2.upTo, Prod.ext_iff]
    exact Iff.rfl
  refine ⟨fun hthree => hup.mpr (foldl_together ⟨htouch.moving, htouch'.moving⟩ htalk hthree), fun hs ht => ?_⟩
  rw [hup, hs, ht]
  exact foldl_together_down rounds htalk

/-! ### One tick in each turn -/

/-- The packets of the next tick to `b`. -/
def nextTo (b : BitVec 32) (d : Daemon) : List (List Byte) :=
  (toHost b (d.step (.tick [])).log).drop (toHost b d.log).length

/-- `d` takes `pkts` from `b`. -/
def takes (b : BitVec 32) (pkts : List (List Byte)) (d : Daemon) : Daemon :=
  (pkts.map fun pkt => Bfdd.Action.recv (peerOf b) pkt default 7 []).foldl Daemon.step d

theorem speaks_once {b : BitVec 32} {d : Daemon} (hall : AllInserted (d.step (.tick [])).log) :
    Speaks b 1 d (d.step (.tick [])) (nextTo b d) := by
  refine ⟨[.tick []], rfl, hall, ?_, rfl, ?_⟩
  · intro a ha
    obtain rfl := List.mem_singleton.mp ha
    exact fun r hr => (by cases hr)
  · obtain ⟨new, hnew⟩ := Daemon.step_suffix d (.tick [])
    have hsents : sents (d.step (.tick [])).log = sents new ++ sents d.log := by
      rw [← hnew, sents, List.filterMap_append]
      rfl
    have hto := toHost_append (b := b) hsents
    rw [nextTo, hto, List.drop_left]

theorem hears_takes {b : BitVec 32} {pkts : List (List Byte)} {d : Daemon} (hall : AllInserted (takes b pkts d).log) :
    Hears b pkts d (takes b pkts d) := by
  refine ⟨_, rfl, hall, fun a ha => ?_, ?_⟩
  · obtain ⟨pkt, -, rfl⟩ := List.mem_map.mp ha
    exact fun _ => rfl
  · rw [List.filterMap_map]
    exact (List.filterMap_congr fun pkt _ => if_pos rfl).trans List.filterMap_some

/-- One tick of each. -/
def oneEach (a b : BitVec 32) (p : Daemon × Daemon) : Daemon × Daemon :=
  let e := takes a (nextTo b p.1) p.2
  (takes b (nextTo a e) (p.1.step (.tick [])), e.step (.tick []))

theorem takes_suffix (b : BitVec 32) (pkts : List (List Byte)) (d : Daemon) : d.log <:+ (takes b pkts d).log :=
  Daemon.foldl_step_suffix _ d

theorem oneEach_rounds {a b : BitVec 32} {p : Daemon × Daemon} {rounds : List (ℕ × ℕ)} {d e : Daemon}
    (hall : AllInserted (oneEach a b p).1.log) (hall' : AllInserted (oneEach a b p).2.log)
    (h : Rounds (bfddParty False b) (bfddParty False a) rounds (oneEach a b p).1 (oneEach a b p).2 d e) :
    Rounds (bfddParty False b) (bfddParty False a) ((1, 1) :: rounds) p.1 p.2 d e :=
  .cons (speaks_once (hall.suffix (takes_suffix ..))) (hears_takes (hall'.suffix (Daemon.step_suffix ..)))
    (speaks_once hall') (hears_takes hall) h

/-- Down, with an interval. -/
def downPkt : List Byte :=
  [0x20, 0x40, 3, 24, 7, 0, 0, 0, 0, 0, 0, 0, 0, 0, 0, 0, 0, 0, 0, 1, 0, 0, 0, 0]

/-- A daemon that heard Down from `b` twice. -/
def downTwiceFrom (b : BitVec 32) : List Bfdd.Action :=
  [.recv (peerOf b) downPkt default 5 [], .recv (peerOf b) downPkt default 6 []]

/-- The session is there, Down, and plain. -/
theorem touching_downTwice {b : BitVec 32} (hall : AllInserted (Daemon.run (downTwiceFrom b)).log) :
    ∃ sess, Touching b (Daemon.run (downTwiceFrom b)) sess ∧ sess.state = .down ∧ sess.pollbitOn ≠ bfdOn ∧
      sess.requiredMinRxInterval ≠ 0 := by
  have hok : recvAccepts downPkt.length (Bfd.ofPacket downPkt) = true := by decide +kernel
  have hsaid : SessState.ofBits (Bfd.ofPacket downPkt).state = .down ∧ (Bfd.ofPacket downPkt).poll = 0 ∧
      (Bfd.ofPacket downPkt).yourDiscr = 0 ∧ (Bfd.ofPacket downPkt).state = BitVec.ofNat 2 bfdstateDown := by
    decide +kernel
  obtain ⟨hdown, hpoll, hyour, hstate⟩ := hsaid
  have hall₁ : AllInserted (Daemon.start.step (.recv (peerOf b) downPkt default 5 [])).log :=
    hall.suffix (Daemon.step_suffix _ (.recv (peerOf b) downPkt default 6 []))
  obtain ⟨R₁, hR₁, hsess₁⟩ := step_table Daemon.start_soundTable hall₁
  obtain ⟨R₂, hR₂, hsess₂⟩ := step_table hR₁ hall
  have harrivals : ∀ {d : Daemon} {R : Registry}, SoundTable d R → ∀ curms,
      arrivals (d.step (.recv (peerOf b) downPkt default curms [])).log =
        (keyt (peerOf b), Bfd.ofPacket downPkt) :: arrivals d.log := by
    intro d R hR curms
    rcases @recvBfdEvent_step d R (peerOf b) sizeofSockaddrIn curms [] downPkt default hR.table (by decide) with
      ⟨hno, -⟩ | ⟨-, -, -, -, -, -, -, h⟩
    · rw [hok] at hno
      cases hno
    · exact h
  have hinit := initSession_sound default (peerOf b) sizeofSockaddrIn
  have hfirst : R₁.sess (keyt (peerOf b)) =
      some (afterPacket (Bfd.ofPacket downPkt) 5 Daemon.start.localDiscriminatorIncr
      (initSession default (peerOf b) sizeofSockaddrIn)) := by
    rw [hsess₁, if_pos hok, Function.update_self, show Registry.empty.sess (keyt (peerOf b)) = none from rfl,
      nextSession, if_neg (not_not.mpr hyour), if_pos hstate]
  have hinitial := @afterPacket_state _ (Bfd.ofPacket downPkt) 5 Daemon.start.localDiscriminatorIncr hinit
  rw [hdown, show BfdSess.state (initSession default (peerOf b) sizeofSockaddrIn) = .down from rfl] at hinitial
  have hsound := hR₁.sound _ _ hfirst
  have hfind := Kv.findSession_eq hR₂.table (peerOf b) (show sizeofSockaddrIn ≠ 0 by decide)
  rw [hsess₂, if_pos hok, Function.update_self, hfirst] at hfind
  obtain ⟨-, hpoll₁, hint₁⟩ := @afterPacket_quiet _ (Bfd.ofPacket downPkt) 5
    Daemon.start.localDiscriminatorIncr hinit Daemon.start_soundTable.incr hpoll
  obtain ⟨hon, hpoll₂, hint₂⟩ := @afterPacket_quiet _ (Bfd.ofPacket downPkt) 6 _ hsound hR₁.incr hpoll
  refine ⟨_, ⟨hfind, ?_, ?_⟩, ?_, ?_, ?_⟩
  · rw [hon]
    decide
  · intro k bfd hk _
    have hboth := harrivals hR₁ 6
    rw [harrivals Daemon.start_soundTable 5] at hboth
    rw [show arrivals (Daemon.run (downTwiceFrom b)).log = _ from hboth] at hk
    rcases List.mem_cons.mp hk with hk | hk
    · exact (Prod.mk.inj hk).1
    · obtain hk := List.mem_singleton.mp hk
      exact (Prod.mk.inj hk).1
  · rw [afterPacket_state hsound, hinitial, hdown]
    rfl
  · rw [hpoll₂, hpoll₁]
    exact show bfdOff ≠ bfdOn by decide
  · rw [hint₂, hint₁]
    exact show bfddfltRequiredminrx ≠ 0 by decide

/-- Two daemons that are Down. -/
def pairDown : Daemon × Daemon := (Daemon.run (downTwiceFrom 2), Daemon.run (downTwiceFrom 1))

theorem allInserted_oneEach : AllInserted (oneEach 1 2 (oneEach 1 2 pairDown)).1.log ∧
    AllInserted (oneEach 1 2 (oneEach 1 2 pairDown)).2.log := by
  decide +kernel

theorem oneEach_suffix (a b : BitVec 32) (p : Daemon × Daemon) :
    p.1.log <:+ (oneEach a b p).1.log ∧ p.2.log <:+ (oneEach a b p).2.log :=
  ⟨(Daemon.step_suffix p.1 (.tick [])).trans (takes_suffix b _ _),
    (takes_suffix a _ p.2).trans (Daemon.step_suffix _ (.tick []))⟩

/-- The two come Up in two rounds. -/
theorem pair_settles_twoRounds : ∃ d e, Rounds (bfddParty False 2) (bfddParty False 1) [(1, 1), (1, 1)]
    pairDown.1 pairDown.2 d e ∧ UpTo 2 d ∧ UpTo 1 e := by
  obtain ⟨h2, h2'⟩ := allInserted_oneEach
  have h1 := h2.suffix (oneEach_suffix 1 2 (oneEach 1 2 pairDown)).1
  have h1' := h2'.suffix (oneEach_suffix 1 2 (oneEach 1 2 pairDown)).2
  have hrounds : ∃ d e, Rounds (bfddParty False 2) (bfddParty False 1) [(1, 1), (1, 1)] pairDown.1 pairDown.2 d e :=
    ⟨_, _, oneEach_rounds h1 h1' (oneEach_rounds h2 h2' (.nil _ _))⟩
  obtain ⟨d, e, hrounds⟩ := hrounds
  have h0 : AllInserted pairDown.1.log := h1.suffix (oneEach_suffix 1 2 pairDown).1
  have h0' : AllInserted pairDown.2.log := h1'.suffix (oneEach_suffix 1 2 pairDown).2
  obtain ⟨s, hs, hdown, -⟩ := touching_downTwice (b := 2) h0
  obtain ⟨t, ht, hdown', -⟩ := touching_downTwice (b := 1) h0'
  refine ⟨d, e, hrounds, ?_⟩
  simp only [pairDown] at hrounds
  refine ((pair_settles hs ht hrounds fun r hr => ?_).2 hdown hdown').mpr ?_
  · rcases List.mem_cons.mp hr with rfl | hr
    · exact ⟨Nat.one_pos, Nat.one_pos⟩
    · obtain rfl := List.mem_singleton.mp hr
      exact ⟨Nat.one_pos, Nat.one_pos⟩
  · exact ⟨(1, 1), List.mem_cons_self .., rfl⟩

/-- bfdd and bfdd_cpp that take turns: after three rounds both are Up, whatever they start with. -/
theorem pair_settles_cpp {before : List Bfdd.Action} {requests : List Request} {a b : BitVec 32} {s : BfdSess}
    {t : BfdSession} {rounds : List (ℕ × ℕ)} {d : Daemon} {e : BfdSessionManager}
    (hs : Touching b (Daemon.run before) s) (hpoll : s.pollbitOn ≠ bfdOn) (hint : s.requiredMinRxInterval ≠ 0)
    (ht : TouchingCpp a (BfdSessionManager.serveAll requests) t)
    (hrounds : Rounds (bfddParty True b) (cppParty a) rounds (Daemon.run before)
      (BfdSessionManager.serveAll requests) d e)
    (htalk : ∀ r ∈ rounds, Talking r) (hthree : 3 ≤ rounds.length) : UpTo b d ∧ UpToCpp a e := by
  obtain ⟨R, htouch⟩ : ∃ R, Touch True b (Daemon.run before) R s := hs.touch fun _ => ⟨hpoll, hint⟩
  have htouch' := ht.touch
  obtain ⟨h1, h2⟩ := hrounds.inState (s := s.state) (t := t.state) ⟨R, s, htouch, rfl⟩ ⟨t, htouch', rfl⟩
  have hup := foldl_togetherCpp (q := (s.state, t.state)) ⟨htouch.moving, htouch'.moving⟩ htalk hthree
  exact ⟨h1.upTo.mpr (congrArg Prod.fst hup), h2.upTo.mpr (congrArg Prod.snd hup)⟩

/-- The peer of bfdd_cpp. -/
def onlyPeer : Endpoint := ⟨1, bfdSrcportinit⟩

/-- A datagram of the peer, or a round. -/
def Own : Request → Prop
  | .recieve endpR _ _ => endpR = onlyPeer
  | .tick _ _ => True
  | _ => False

/-- The session of the peer is there, and its detection time is after 9. -/
def inTime (m : BfdSessionManager) : Bool :=
  match m.findUnsafe 1 bfdSrcportinit with
  | some s => decide (9 < s.detectTime)
  | none => false

/-- A manager with one peer has no session for another one. -/
theorem own_only {requests : List Request} (hown : ∀ r ∈ requests, Own r) {endp : Endpoint}
    (h : ((BfdSessionManager.serveAll requests).bfdSessions endp.key).isSome) : endp = onlyPeer := by
  by_contra hne
  have hwords : words endp requests = [] := by
    refine List.filterMap_eq_nil_iff.mpr fun r hr => ?_
    have hr' := hown r hr
    cases r with
    | tick curms itrs => rfl
    | subscribe ipaddr port => exact hr'.elim
    | unsubscribe ipaddr port => exact hr'.elim
    | recieve endpR pkt curms =>
      obtain rfl : endpR = onlyPeer := hr'
      exact if_neg fun he => hne he.1.symm
  have hnone := (BfdSessionManager.serveAll_obeys requests).machine endp
  rw [hwords] at hnone
  rw [Option.map_eq_none_iff.mp hnone] at h
  cases h

/-- It goes through the one session. -/
theorem iterates_own {requests : List Request} (hown : ∀ r ∈ requests, Own r)
    (htime : inTime (BfdSessionManager.serveAll requests) = true) :
    (BfdSessionManager.serveAll requests).Iterates [onlyPeer.key] := by
  refine ⟨List.pairwise_singleton _ _, fun k => ?_⟩
  rw [List.mem_singleton]
  constructor
  · rintro rfl
    unfold inTime at htime
    split at htime
    · rename_i s hs
      rw [show (BfdSessionManager.serveAll requests).bfdSessions onlyPeer.key = some s from hs]
      rfl
    · cases htime
  · intro hk
    obtain ⟨endp, rfl⟩ := (BfdSessionManager.serveAll_obeys requests).keys k hk
    exact congrArg Endpoint.key (own_only hown hk)

/-- bfdd_cpp takes datagrams of its peer. -/
def takesCpp (pkts : List (List Byte)) : List Request := pkts.map fun pkt => .recieve onlyPeer pkt 8

/-- What bfdd_cpp writes in its next round. -/
def nextToCpp (requests : List Request) : List (List Byte) :=
  (wroteTo 1 (BfdSessionManager.serveAll (requests ++ [.tick 9 [onlyPeer.key]])).log).drop
    (wroteTo 1 (BfdSessionManager.serveAll requests).log).length

theorem speaks_once_cpp {requests : List Request} (hown : ∀ r ∈ requests, Own r)
    (htime : inTime (BfdSessionManager.serveAll requests) = true) :
    SpeaksCpp 1 1 (BfdSessionManager.serveAll requests)
      (BfdSessionManager.serveAll (requests ++ [.tick 9 [onlyPeer.key]])) (nextToCpp requests) := by
  refine ⟨[.tick 9 [onlyPeer.key]], List.foldl_append, ⟨⟨iterates_own hown htime, fun s hs => ?_⟩, trivial⟩, rfl, ?_⟩
  · unfold inTime at htime
    rw [hs] at htime
    exact of_decide_eq_true htime
  · have hlog : wroteTo 1 (BfdSessionManager.serveAll (requests ++ [.tick 9 [onlyPeer.key]])).log =
        wroteTo 1 (BfdSessionManager.serveAll requests).log ++
          wroteTo 1 ([onlyPeer.key].reverse.flatMap (due 9 (BfdSessionManager.serveAll requests))) := by
      rw [BfdSessionManager.serveAll_concat, BfdSessionManager.serve, onBfdThread_due, wroteTo, List.filter_append,
        List.reverse_append, List.map_append]
      rfl
    rw [nextToCpp, hlog, List.drop_left]

theorem hears_takes_cpp (requests : List Request) (pkts : List (List Byte)) :
    HearsCpp 1 pkts (BfdSessionManager.serveAll requests) (BfdSessionManager.serveAll (requests ++ takesCpp pkts)) := by
  refine ⟨takesCpp pkts, List.foldl_append, fun r hr => ?_, ?_⟩
  · obtain ⟨pkt, -, rfl⟩ := List.mem_map.mp hr
    exact fun _ => rfl
  · have hpayload : (payloadCpp 1 ∘ fun pkt => Request.recieve onlyPeer pkt 8) = some := by
      funext pkt
      simp [payloadCpp, onlyPeer]
    rw [takesCpp, List.filterMap_map, hpayload, List.filterMap_some]

/-- bfdd_cpp has heard a tick of bfdd. -/
def heardOne (p : Daemon × List Request) : List Request := p.2 ++ takesCpp (nextTo 2 p.1)

/-- One tick of bfdd, and one round of bfdd_cpp. -/
def oneEachCpp (p : Daemon × List Request) : Daemon × List Request :=
  (takes 2 (nextToCpp (heardOne p)) (p.1.step (.tick [])), heardOne p ++ [.tick 9 [onlyPeer.key]])

theorem own_heardOne {p : Daemon × List Request} (hown : ∀ r ∈ p.2, Own r) : ∀ r ∈ heardOne p, Own r := by
  intro r hr
  rcases List.mem_append.mp hr with hr | hr
  · exact hown r hr
  · obtain ⟨pkt, -, rfl⟩ := List.mem_map.mp hr
    rfl

theorem own_oneEach {p : Daemon × List Request} (hown : ∀ r ∈ p.2, Own r) : ∀ r ∈ (oneEachCpp p).2, Own r := by
  intro r hr
  rcases List.mem_append.mp hr with hr | hr
  · exact own_heardOne hown r hr
  · obtain rfl := List.mem_singleton.mp hr
    trivial

theorem oneEachCpp_rounds {p : Daemon × List Request} {rounds : List (ℕ × ℕ)} {d : Daemon} {e : BfdSessionManager}
    (hown : ∀ r ∈ p.2, Own r) (hall : AllInserted (oneEachCpp p).1.log)
    (htime : inTime (BfdSessionManager.serveAll (heardOne p)) = true)
    (h : Rounds (bfddParty True 2) (cppParty 1) rounds (oneEachCpp p).1 (BfdSessionManager.serveAll (oneEachCpp p).2)
      d e) :
    Rounds (bfddParty True 2) (cppParty 1) ((1, 1) :: rounds) p.1 (BfdSessionManager.serveAll p.2) d e :=
  .cons (speaks_once (hall.suffix (takes_suffix ..))) (hears_takes_cpp p.2 _)
    (speaks_once_cpp (own_heardOne hown) htime) (hears_takes hall) h

/-- bfdd that is Down, and bfdd_cpp that is in state Init. -/
def pairCpp : Daemon × List Request :=
  (Daemon.run (downTwiceFrom 2), [.recieve onlyPeer downPkt 5, .recieve onlyPeer downPkt 6])

theorem own_pairCpp : ∀ r ∈ pairCpp.2, Own r := by
  intro r hr
  rcases List.mem_cons.mp hr with rfl | hr
  · rfl
  · obtain rfl := List.mem_singleton.mp hr
    rfl

theorem touching_pairCpp : ∃ t, TouchingCpp 1 (BfdSessionManager.serveAll pairCpp.2) t := by
  have hfind : ((BfdSessionManager.serveAll pairCpp.2).findUnsafe 1 bfdSrcportinit).map (fun s =>
      (s.conn.isSome, s.mustCeaseTxEcho, s.mustTerminate, s.remoteMinRxInterval)) =
      some (true, bfdOff, bfdOff, 0x01000000) := by decide +kernel
  obtain ⟨t, ht, heq⟩ := Option.map_eq_some_iff.mp hfind
  obtain ⟨hconn, heq⟩ := Prod.mk.inj heq
  obtain ⟨hecho, heq⟩ := Prod.mk.inj heq
  obtain ⟨hterm, hint⟩ := Prod.mk.inj heq
  refine ⟨t, ht, hconn, fun endp h _ => ?_, hecho, hterm, ?_⟩
  · rw [own_only own_pairCpp h]
    rfl
  · rw [hint]
    decide

theorem allInserted_oneEachCpp : AllInserted (oneEachCpp (oneEachCpp (oneEachCpp pairCpp))).1.log := by
  decide +kernel

theorem inTime_heardOne : inTime (BfdSessionManager.serveAll (heardOne pairCpp)) = true ∧
    inTime (BfdSessionManager.serveAll (heardOne (oneEachCpp pairCpp))) = true ∧
    inTime (BfdSessionManager.serveAll (heardOne (oneEachCpp (oneEachCpp pairCpp)))) = true := by
  decide +kernel

theorem oneEachCpp_suffix (p : Daemon × List Request) : p.1.log <:+ (oneEachCpp p).1.log :=
  (Daemon.step_suffix p.1 (.tick [])).trans (takes_suffix 2 _ _)

/-- The two come Up. -/
theorem pair_settles_cpp_threeRounds : ∃ d e, Rounds (bfddParty True 2) (cppParty 1) [(1, 1), (1, 1), (1, 1)]
    pairCpp.1 (BfdSessionManager.serveAll pairCpp.2) d e ∧ UpTo 2 d ∧ UpToCpp 1 e := by
  have h3 := allInserted_oneEachCpp
  have h2 := h3.suffix (oneEachCpp_suffix (oneEachCpp (oneEachCpp pairCpp)))
  have h1 := h2.suffix (oneEachCpp_suffix (oneEachCpp pairCpp))
  have h0 : AllInserted pairCpp.1.log := h1.suffix (oneEachCpp_suffix pairCpp)
  obtain ⟨ht1, ht2, ht3⟩ := inTime_heardOne
  have hown := own_oneEach own_pairCpp
  have hrounds : ∃ d e, Rounds (bfddParty True 2) (cppParty 1) [(1, 1), (1, 1), (1, 1)] pairCpp.1
      (BfdSessionManager.serveAll pairCpp.2) d e :=
    ⟨_, _, oneEachCpp_rounds own_pairCpp h1 ht1 (oneEachCpp_rounds hown h2 ht2
      (oneEachCpp_rounds (own_oneEach hown) h3 ht3 (.nil _ _)))⟩
  obtain ⟨d, e, hrounds⟩ := hrounds
  obtain ⟨s, hs, -, hpoll, hint⟩ := touching_downTwice (b := 2) h0
  obtain ⟨t, ht⟩ := touching_pairCpp
  refine ⟨d, e, hrounds, ?_⟩
  simp only [pairCpp] at hrounds ht
  refine pair_settles_cpp hs hpoll hint ht hrounds (fun r hr => ?_) (Nat.le_refl _)
  obtain rfl : r = (1, 1) := by simpa using hr
  exact ⟨Nat.one_pos, Nat.one_pos⟩

end NetworkBfd.Network
