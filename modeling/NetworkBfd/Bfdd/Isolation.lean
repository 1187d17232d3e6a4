import NetworkBfd.Bfdd.Sound

/-!
# Peers do not interfere

The session of a peer depends on the packets of that peer alone (`session_of_own_packets`). Two daemons are run side by
side, one on all packets and one on those of the peer, and their sessions of the peer stay the same up to what `erase`
takes away (`Alike`, `step_alike`). What `erase` may take away is said once (`Blind`), for the discriminator and for the
bytes that no assignment reaches.
-/

namespace NetworkBfd.Bfdd

open Lib Smmr

/-- The session without its local discriminator. -/
def BfdSess.unstamped (s : BfdSess) : BfdSess := { s with localDiscr := 0 }

/-- The session without its local discriminator and the bytes that were on the stack. -/
def BfdSess.assigned (s : BfdSess) : BfdSess :=
  { s with localDiscr := 0, padding := 0, clientAddr := { s.clientAddr with zero := 0 } }

/-- The sender of a packet. -/
def Action.peer : Action → Option SessKey
  | .recv cAddr _ _ _ _ => some (keyt cAddr)
  | .tick _ => none

/-- The same packet at the same clock, on stacks that are related by `same`. -/
def SameDelivery (same : BfdSess → BfdSess → Prop) : Action → Action → Prop
  | .recv cAddr pkt stack curms _, .recv cAddr' pkt' stack' curms' _ =>
    cAddr = cAddr' ∧ pkt = pkt' ∧ curms = curms' ∧ same stack stack'
  | _, _ => False

/-- `erase` takes away nothing that a packet is judged by. -/
structure Blind (erase : BfdSess → BfdSess) (same : BfdSess → BfdSess → Prop) : Prop where
  after : ∀ bfd curms incr incr' s s', erase s = erase s' →
    erase (afterPacket bfd curms incr s) = erase (afterPacket bfd curms incr' s')
  init : ∀ stack stack' cAddr cAddrlen, same stack stack' →
    erase (initSession stack cAddr cAddrlen) = erase (initSession stack' cAddr cAddrlen)
  down : ∀ stack stack' cAddr cAddrlen bfd, same stack stack' →
    erase (downSession stack cAddr cAddrlen bfd) = erase (downSession stack' cAddr cAddrlen bfd)

/-- The session without its local discriminator, and with other bytes where nothing is assigned. -/
def relabel (f : BitVec 32 → BitVec 32) (g : BitVec 64 → BitVec 64) (s : BfdSess) : BfdSess :=
  { s with localDiscr := 0, padding := f s.padding, clientAddr := { s.clientAddr with zero := g s.clientAddr.zero } }

section Relabel

variable (f : BitVec 32 → BitVec 32) (g : BitVec 64 → BitVec 64)

theorem relabel_attach (s : BfdSess) (incr : BitVec 64) :
    relabel f g (attach s incr).1 =
      { relabel f g s with
        attached := if (relabel f g s).attached = bfdOff then bfdOn else (relabel f g s).attached } := by
  unfold attach
  split
  · rename_i hoff
    rw [if_pos (show (relabel f g s).attached = bfdOff from hoff)]
    rfl
  · rename_i hon
    rw [if_neg (show ¬(relabel f g s).attached = bfdOff from hon)]

theorem relabel_recordPacket (bfd : Bfd) (curms : BitVec 64) (s : BfdSess) :
    relabel f g (recordPacket bfd curms s) = recordPacket bfd curms (relabel f g s) := rfl

theorem relabel_stateMachine (s : BfdSess) : relabel f g (stateMachine s) = stateMachine (relabel f g s) := by
  -- the two states decide, and these stay
  have hlocal : (relabel f g s).sessionState = s.sessionState := rfl
  have hremote : (relabel f g s).remoteSessionState = s.remoteSessionState := rfl
  unfold stateMachine
  rw [hlocal, hremote]
  simp only [apply_ite (relabel f g)]
  rfl

theorem relabel_afterPacket {bfd : Bfd} {curms incr incr' : BitVec 64} {s s' : BfdSess}
    (h : relabel f g s = relabel f g s') :
    relabel f g (afterPacket bfd curms incr s) = relabel f g (afterPacket bfd curms incr' s') := by
  have hmachine : relabel f g (stateMachine (recordPacket bfd curms (attach s incr).1)) =
      relabel f g (stateMachine (recordPacket bfd curms (attach s' incr').1)) := by
    rw [relabel_stateMachine, relabel_stateMachine, relabel_recordPacket, relabel_recordPacket, relabel_attach,
      relabel_attach, h]
  exact congrArg (fun t : BfdSess => { t with pollbitOn := if bfd.poll = 1 then bfdOn else t.pollbitOn }) hmachine

end Relabel

theorem blind_unstamped : Blind BfdSess.unstamped Eq where
  after _ _ _ _ _ _ h := relabel_afterPacket id id h
  init _ _ _ _ h := by rw [h]
  down _ _ _ _ _ h := by rw [h]

theorem blind_assigned : Blind BfdSess.assigned (fun _ _ => True) where
  after _ _ _ _ _ _ h := relabel_afterPacket (fun _ => 0) (fun _ => 0) h
  init _ _ _ _ _ := rfl
  down _ _ _ _ _ _ := rfl

section Alone

variable {d : Daemon} {R : Registry} {cAddr : SockaddrIn} {cAddrlen : BitVec 32} {bfd : Bfd} {curms : BitVec 64}
  {results : List Int} {sess : BfdSess}

/-- Only `k` has a session. -/
def OnlyFor (k : SessKey) (R : Registry) : Prop := ∀ k', k' ≠ k → R.sess k' = none

/-- A single peer finds room. -/
theorem OnlyFor.room {k : SessKey} (h : OnlyFor k R) (g : Fin sessionKeysMax) :
    (R.listed g).length < sessionKeysListcnt := by
  have hone : (R.listed g).length ≤ 1 := by
    refine (List.subperm_of_subset (R.nodup g) (fun k' hk' => ?_) : (R.listed g).Subperm [k]).length_le
    by_contra hne
    have hstored := (R.stored k').mpr (by rw [R.group g k' hk']; exact hk')
    rw [h k' fun he => hne (List.mem_singleton.mpr he)] at hstored
    cases hstored
  exact Nat.lt_of_le_of_lt hone (by decide)

theorem insertLogged_alone (h : Represents d.kv R) (halone : OnlyFor (keyt cAddr) R) (hlen : cAddrlen ≠ 0)
    (hall : AllInserted d.log) :
    AllInserted (insertLogged sess cAddr cAddrlen d).2.log ∧
      ∃ R', Represents (insertLogged sess cAddr cAddrlen d).2.kv R' ∧ OnlyFor (keyt cAddr) R' := by
  obtain ⟨kv, hrun, hR'⟩ := @insertSession_refines d.kv R sess cAddr cAddrlen h hlen (halone.room _)
  simp only [insertLogged, hrun]
  exact ⟨hall.cons rfl, _, hR', fun k' hk' => (Function.update_of_ne hk' _ _).trans (halone k' hk')⟩

theorem iterateOnSession_allInserted {peer : SessKey} {w : Wire} (hall : AllInserted w.log) :
    AllInserted (iterateOnSession peer sess w).2.log := by
  rcases iterateOnSession_log peer sess w with hlog | hlog
  · rw [hlog]
    exact hall
  · rw [hlog]
    exact hall.cons rfl

theorem recvOnSession_alone (h : Represents d.kv R) (halone : OnlyFor (keyt cAddr) R) (hlen : cAddrlen ≠ 0)
    (hall : AllInserted d.log) : AllInserted (recvOnSession sess cAddr cAddrlen bfd curms results d).2.log := by
  simp only [recvOnSession]
  split
  · exact hall
  · refine And.left (insertLogged_alone ?_ halone hlen ?_)
    · exact h
    · unfold answerPoll
      split
      · exact iterateOnSession_allInserted (hall.cons rfl)
      · exact hall.cons rfl

theorem recvAccepted_alone {stack : BfdSess} (h : Represents d.kv R) (halone : OnlyFor (keyt cAddr) R)
    (hlen : cAddrlen ≠ 0) (hall : AllInserted d.log) :
    AllInserted (recvAccepted cAddr cAddrlen bfd stack curms results d).2.log := by
  unfold recvAccepted
  split
  · exact recvOnSession_alone h halone hlen hall
  · split
    · exact iterateOnSession_allInserted
        (insertLogged_alone h halone hlen hall).1
    · split
      · obtain ⟨hall₁, R₁, hR₁, halone₁⟩ := @insertLogged_alone d R cAddr cAddrlen (initSession stack cAddr cAddrlen) h
          halone hlen hall
        dsimp only
        split
        · exact recvOnSession_alone hR₁ halone₁ hlen hall₁
        · exact hall₁
      · exact hall

/-- A daemon with a single peer inserts every session. -/
theorem recvBfdEvent_alone {pkt : List Byte} {stack : BfdSess} (h : Represents d.kv R)
    (halone : OnlyFor (keyt cAddr) R) (hlen : cAddrlen ≠ 0) (hall : AllInserted d.log) :
    AllInserted (recvBfdEvent cAddr cAddrlen pkt stack curms results d).2.log := by
  simp only [recvBfdEvent]
  split
  · refine @recvAccepted_alone ⟨d.kv, d.localDiscriminatorIncr, _⟩ R cAddr cAddrlen _ curms results stack h
      halone hlen ?_
    intro e he
    rcases List.mem_cons.mp he with rfl | he
    · rfl
    · exact hall e he
  · exact hall

end Alone

/-! ## Two daemons -/

section Alike

variable {erase : BfdSess → BfdSess} {same : BfdSess → BfdSess → Prop} {k : SessKey} {d own : Daemon}

/-- The sessions of `k` are the same up to `erase`, and `own` has no other. -/
structure Alike (erase : BfdSess → BfdSess) (k : SessKey) (d own : Daemon) : Prop where
  inserted : AllInserted own.log
  tables : ∃ R Rown, SoundTable d R ∧ SoundTable own Rown ∧ OnlyFor k Rown ∧
    (R.sess k).map erase = (Rown.sess k).map erase

theorem nextSession_alike (hb : Blind erase same) {bfd : Bfd} {cAddr : SockaddrIn} {cAddrlen : BitVec 32}
    {stack stack' : BfdSess} {curms incr incr' : BitVec 64} {o o' : Option BfdSess} (hstack : same stack stack')
    (h : o.map erase = o'.map erase) :
    (nextSession bfd cAddr cAddrlen stack curms incr o).map erase =
      (nextSession bfd cAddr cAddrlen stack' curms incr' o').map erase := by
  cases o with
  | some s =>
    cases o' with
    | some s' => exact congrArg some (hb.after _ _ _ _ _ _ (Option.some.inj h))
    | none => cases h
  | none =>
    cases o' with
    | some s' => cases h
    | none =>
      unfold nextSession
      dsimp only
      split_ifs
      · exact congrArg some (hb.down _ _ _ _ _ hstack)
      · exact congrArg some (hb.after _ _ _ _ _ _ (hb.init _ _ _ _ hstack))
      · rfl

/-- The table after a packet whose insertions succeeded. -/
theorem step_table {R : Registry} (h : SoundTable d R) {cAddr : SockaddrIn} {pkt : List Byte} {stack : BfdSess}
    {curms : BitVec 64} {results : List Int}
    (hall : AllInserted (Daemon.step d (.recv cAddr pkt stack curms results)).log) :
    ∃ R', SoundTable (Daemon.step d (.recv cAddr pkt stack curms results)) R' ∧
      R'.sess = if recvAccepts pkt.length (Bfd.ofPacket pkt) = true then
        Function.update R.sess (keyt cAddr) (nextSession (Bfd.ofPacket pkt) cAddr sizeofSockaddrIn stack curms
          d.localDiscriminatorIncr (R.sess (keyt cAddr)))
        else R.sess := by
  obtain ⟨R', hR', hsess⟩ := recvBfdEvent_effect hall h.table (by decide) fun s hs => (h.sound _ s hs).not_admin
  obtain ⟨R₁, hR₁, hsound, hincr⟩ := Daemon.step_soundTable h (.recv cAddr pkt stack curms results)
  refine ⟨R', ⟨hR', fun k s hs => hsound k s ?_, hincr⟩, hsess⟩
  -- both registries are read off the same store
  have h1 := (hR₁.sessions k).symm.trans (hR'.sessions k)
  rw [hs] at h1
  obtain ⟨s', hs', he⟩ := Option.map_eq_some_iff.mp h1
  rw [hs', BfdSess.codec.encode_injective he]

/-- What is not a packet of `k` does nothing to its session. -/
theorem step_other (h : Alike erase k d own) {a : Action} (hne : a.peer ≠ some k)
    (hall : AllInserted (Daemon.step d a).log) : Alike erase k (Daemon.step d a) own := by
  obtain ⟨hown, R, Rown, hR, hRown, halone, heq⟩ := h
  cases a with
  | tick results => exact ⟨hown, R, Rown, ⟨hR.table, hR.sound, hR.incr⟩, hRown, halone, heq⟩
  | recv cAddr pkt stack curms results =>
    obtain ⟨R', hR', hsess⟩ := step_table hR hall
    refine ⟨hown, R', Rown, hR', hRown, halone, ?_⟩
    rw [hsess]
    split
    · rw [Function.update_of_ne fun he => hne (congrArg some he.symm)]
      exact heq
    · exact heq

/-- A packet of `k` that both get. -/
theorem step_alike (hb : Blind erase same) (h : Alike erase k d own) {a a' : Action} (hpeer : a.peer = some k)
    (hsame : SameDelivery same a a') (hall : AllInserted (Daemon.step d a).log) :
    Alike erase k (Daemon.step d a) (Daemon.step own a') := by
  obtain ⟨hown, R, Rown, hR, hRown, halone, heq⟩ := h
  cases a with
  | tick results => cases hpeer
  | recv cAddr pkt stack curms results =>
    cases a' with
    | tick results' => cases hsame
    | recv cAddr' pkt' stack' curms' results' =>
      obtain ⟨rfl, rfl, rfl, hstack⟩ := hsame
      obtain rfl := Option.some.inj hpeer
      have hall' : AllInserted (Daemon.step own (.recv cAddr pkt stack' curms results')).log :=
        recvBfdEvent_alone hRown.table halone (by decide) hown
      obtain ⟨R', hR', hsess⟩ := step_table hR hall
      obtain ⟨Rown', hRown', hsess'⟩ := step_table hRown hall'
      refine ⟨hall', R', Rown', hR', hRown', fun k' hk' => ?_, ?_⟩
      · rw [hsess']
        split
        · rw [Function.update_of_ne hk']
          exact halone k' hk'
        · exact halone k' hk'
      · rw [hsess, hsess']
        split
        · rw [Function.update_self, Function.update_self]
          exact nextSession_alike hb hstack heq
        · exact heq

/-- Two runs side by side. -/
theorem foldl_alike (hb : Blind erase same) : ∀ (actions own' : List Action) {d own : Daemon}, Alike erase k d own →
    List.Forall₂ (SameDelivery same) (actions.filter fun a => a.peer = some k) own' →
    AllInserted (actions.foldl Daemon.step d).log →
    Alike erase k (actions.foldl Daemon.step d) (own'.foldl Daemon.step own)
  | [], own', d, own, h, hsame, _ => by
    cases hsame
    exact h
  | a :: actions, own', d, own, h, hsame, hall => by
    have hstep : AllInserted (Daemon.step d a).log := hall.suffix (Daemon.foldl_step_suffix actions (Daemon.step d a))
    by_cases hpeer : a.peer = some k
    · rw [List.filter_cons_of_pos (by simpa using hpeer)] at hsame
      cases hsame with
      | @cons _ b _ bs h1 h2 => exact foldl_alike hb actions bs (step_alike hb h hpeer h1 hstep) h2 hall
    · rw [List.filter_cons_of_neg (by simpa using hpeer)] at hsame
      exact foldl_alike hb actions own' (step_other h hpeer hstep) hsame hall

end Alike

namespace Daemon

theorem start_alike (erase : BfdSess → BfdSess) (k : SessKey) : Alike erase k start start := by
  refine ⟨fun e he => ?_, Registry.empty, Registry.empty, start_soundTable, start_soundTable, fun _ _ => rfl, rfl⟩
  simp [start] at he

/-- The session of a peer, as a run on its own packets has it. -/
theorem run_alike {erase : BfdSess → BfdSess} {same : BfdSess → BfdSess → Prop} (hb : Blind erase same)
    {actions own : List Action} (hall : AllInserted (run actions).log) (cAddr : SockaddrIn)
    (hown : List.Forall₂ (SameDelivery same) (actions.filter fun a => a.peer = some (keyt cAddr)) own) :
    AllInserted (run own).log ∧ ((run actions).kv.findSession cAddr sizeofSockaddrIn).map erase =
      ((run own).kv.findSession cAddr sizeofSockaddrIn).map erase := by
  obtain ⟨hinserted, R, Rown, hR, hRown, -, heq⟩ := foldl_alike hb actions own (start_alike erase (keyt cAddr))
    hown hall
  refine ⟨hinserted, ?_⟩
  rw [run, run, Kv.findSession_eq hR.table cAddr (by decide), Kv.findSession_eq hRown.table cAddr (by decide)]
  exact heq

/-- The packets of a peer decide its session. A fresh daemon that gets them alone, at the same clock, inserts every
session and ends with the same one up to the discriminator; where its stack held other bytes, up to these too. Hence
two runs that differ in how the packets of the peers are mixed end with the same session. -/
theorem session_of_own_packets (actions : List Action) (hall : AllInserted (run actions).log) (cAddr : SockaddrIn) :
    (∀ own, List.Forall₂ (SameDelivery Eq) (actions.filter fun a => a.peer = some (keyt cAddr)) own →
      AllInserted (run own).log ∧ ((run actions).kv.findSession cAddr sizeofSockaddrIn).map BfdSess.unstamped =
        ((run own).kv.findSession cAddr sizeofSockaddrIn).map BfdSess.unstamped) ∧
    (∀ own, List.Forall₂ (SameDelivery fun _ _ => True) (actions.filter fun a => a.peer = some (keyt cAddr)) own →
      AllInserted (run own).log ∧ ((run actions).kv.findSession cAddr sizeofSockaddrIn).map BfdSess.assigned =
        ((run own).kv.findSession cAddr sizeofSockaddrIn).map BfdSess.assigned) ∧
    ∀ mixed, AllInserted (run mixed).log → (mixed.filter fun a => a.peer = some (keyt cAddr)) =
      (actions.filter fun a => a.peer = some (keyt cAddr)) →
      ((run actions).kv.findSession cAddr sizeofSockaddrIn).map BfdSess.unstamped =
        ((run mixed).kv.findSession cAddr sizeofSockaddrIn).map BfdSess.unstamped := by
  have hrefl : ∀ l : List Action, (∀ a ∈ l, a.peer = some (keyt cAddr)) → List.Forall₂ (SameDelivery Eq) l l := by
    intro l hl
    induction l with
    | nil => exact .nil
    | cons a l ih =>
      refine .cons ?_ (ih fun b hb => hl b (List.mem_cons_of_mem _ hb))
      have ha := hl a (List.mem_cons_self ..)
      cases a with
      | tick results => cases ha
      | recv cAddr pkt stack curms results => exact ⟨rfl, rfl, rfl, rfl⟩
  refine ⟨fun own h => run_alike blind_unstamped hall cAddr h, fun own h => run_alike blind_assigned hall cAddr h,
    fun mixed hmixed heq => ?_⟩
  have hown := hrefl (actions.filter fun a => a.peer = some (keyt cAddr)) fun a ha => by
    simpa using (List.mem_filter.mp ha).2
  obtain ⟨-, h1⟩ := run_alike blind_unstamped hall cAddr hown
  rw [← heq] at hown
  obtain ⟨-, h2⟩ := run_alike blind_unstamped hmixed cAddr hown
  rw [heq] at h2
  exact h1.trans h2.symm

/-- Down and Init from one peer, with Down from another in between. -/
def twoPeers : List Action :=
  [.recv ⟨2, 3784, 0x0100007f, 0⟩ [0x20, 0x40, 3, 24, 7, 0, 0, 0, 0, 0, 0, 0, 0, 0, 0, 0, 0, 0, 0, 0, 0, 0, 0, 0]
      default 5 [],
    .recv ⟨2, 3784, 0x0200007f, 0⟩ [0x20, 0x40, 3, 24, 9, 0, 0, 0, 0, 0, 0, 0, 0, 0, 0, 0, 0, 0, 0, 0, 0, 0, 0, 0]
      default 6 [],
    .recv ⟨2, 3784, 0x0100007f, 0⟩ [0x20, 0x80, 3, 24, 7, 0, 0, 0, 0, 0, 0, 1, 0, 0, 0, 0, 0, 0, 0, 0, 0, 0, 0, 0]
      default 7 []]

theorem session_of_own_packets_twoPeers :
    AllInserted (run twoPeers).log ∧
      ((run twoPeers).kv.findSession ⟨2, 3784, 0x0200007f, 0⟩ sizeofSockaddrIn).map BfdSess.unstamped =
        ((run [twoPeers[1]]).kv.findSession ⟨2, 3784, 0x0200007f, 0⟩ sizeofSockaddrIn).map BfdSess.unstamped := by
  have hall : AllInserted (run twoPeers).log := by decide +kernel
  exact ⟨hall, ((session_of_own_packets twoPeers hall ⟨2, 3784, 0x0200007f, 0⟩).1 [twoPeers[1]]
    (.cons ⟨rfl, rfl, rfl, rfl⟩ .nil)).2⟩

end Daemon

end NetworkBfd.Bfdd
