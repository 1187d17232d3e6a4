import NetworkBfd.Bfdd.Sound

/-!
# What goes out on the wire

The bytes of a packet (`Bfd.toPacket`) and back (`Bfd.ofPacket_toPacket`), and what a peer makes of them: every packet
that `iterate_on_session` sends passes the checks of `recv_bfd_event` and shows the session it was made from
(`sent_acceptable`).
-/

namespace NetworkBfd.Bfdd

open Lib Smmr

/-- The byte of `bfd->h`. -/
def Bfd.flags (b : Bfd) : Byte := b.vers ++ b.diag

/-- The byte of `bfd->u`. -/
def Bfd.bits (b : Bfd) : Byte :=
  b.state ++ b.poll ++ b.final ++ b.cpi ++ b.auth ++ b.demand ++ b.multipoint

/-- The 24 bytes that `sendto` takes. -/
def Bfd.toPacket (b : Bfd) : List Byte :=
  b.flags :: b.bits :: b.detectMult :: b.length :: (u32.encode b.myDiscr ++ (u32.encode b.yourDiscr ++
    (u32.encode b.minTxInt ++ (u32.encode b.minRxInt ++ u32.encode b.minEchoRxInt))))

section Bytes

theorem flags_fields : ∀ (vers : BitVec 3) (diag : BitVec 5),
    (vers ++ diag : BitVec 8).extractLsb' 0 5 = diag ∧ (vers ++ diag : BitVec 8).extractLsb' 5 3 = vers := by
  decide +kernel

theorem bits_fields : ∀ (state : BitVec 2) (poll final cpi auth demand multipoint : BitVec 1),
    (state ++ poll ++ final ++ cpi ++ auth ++ demand ++ multipoint : BitVec 8).extractLsb' 0 1 = multipoint ∧
    (state ++ poll ++ final ++ cpi ++ auth ++ demand ++ multipoint : BitVec 8).extractLsb' 1 1 = demand ∧
    (state ++ poll ++ final ++ cpi ++ auth ++ demand ++ multipoint : BitVec 8).extractLsb' 2 1 = auth ∧
    (state ++ poll ++ final ++ cpi ++ auth ++ demand ++ multipoint : BitVec 8).extractLsb' 3 1 = cpi ∧
    (state ++ poll ++ final ++ cpi ++ auth ++ demand ++ multipoint : BitVec 8).extractLsb' 4 1 = final ∧
    (state ++ poll ++ final ++ cpi ++ auth ++ demand ++ multipoint : BitVec 8).extractLsb' 5 1 = poll ∧
    (state ++ poll ++ final ++ cpi ++ auth ++ demand ++ multipoint : BitVec 8).extractLsb' 6 2 = state := by
  decide +kernel

/-- A word is read where it was written. -/
theorem u32At_encode (pre post : List Byte) (v : BitVec 32) : u32At (pre ++ (u32.encode v ++ post)) pre.length = v := by
  have hget : ∀ i : Nat, i < 4 → (pre ++ (u32.encode v ++ post)).getD (pre.length + i) 0 = (u32.encode v).getD i 0 := by
    intro i hi
    have hlen : i < (u32.encode v).length := by
      rw [u32.length_encode]
      exact hi
    rw [List.getD_eq_getElem?_getD, List.getD_eq_getElem?_getD, List.getElem?_append_right (Nat.le_add_right _ _),
      Nat.add_sub_cancel_left, List.getElem?_append_left hlen]
  have h0 := hget 0 (by decide)
  rw [Nat.add_zero] at h0
  unfold u32At
  rw [h0, hget 1 (by decide), hget 2 (by decide), hget 3 (by decide)]
  exact u32.decode_encode v

theorem Bfd.length_toPacket (b : Bfd) : b.toPacket.length = bfdMinpktlen := by
  simp only [toPacket, List.length_cons, List.length_append, u32.length_encode, width_u32]
  rfl

/-- The bytes of a packet are read back as the packet. -/
theorem Bfd.ofPacket_toPacket (b : Bfd) : Bfd.ofPacket b.toPacket = b := by
  obtain ⟨hdiag, hvers⟩ := flags_fields b.vers b.diag
  obtain ⟨hmultipoint, hdemand, hauth, hcpi, hfinal, hpoll, hstate⟩ :=
    bits_fields b.state b.poll b.final b.cpi b.auth b.demand b.multipoint
  have hlen : ∀ v : BitVec 32, (u32.encode v).length = 4 := u32.length_encode
  have hmy := u32At_encode [b.flags, b.bits, b.detectMult, b.length] (u32.encode b.yourDiscr ++
    (u32.encode b.minTxInt ++ (u32.encode b.minRxInt ++ u32.encode b.minEchoRxInt))) b.myDiscr
  have hyour := u32At_encode ([b.flags, b.bits, b.detectMult, b.length] ++ u32.encode b.myDiscr)
    (u32.encode b.minTxInt ++ (u32.encode b.minRxInt ++ u32.encode b.minEchoRxInt)) b.yourDiscr
  have htx := u32At_encode ([b.flags, b.bits, b.detectMult, b.length] ++ u32.encode b.myDiscr ++
    u32.encode b.yourDiscr) (u32.encode b.minRxInt ++ u32.encode b.minEchoRxInt) b.minTxInt
  have hrx := u32At_encode ([b.flags, b.bits, b.detectMult, b.length] ++ u32.encode b.myDiscr ++
    u32.encode b.yourDiscr ++ u32.encode b.minTxInt) (u32.encode b.minEchoRxInt) b.minRxInt
  have hecho := u32At_encode ([b.flags, b.bits, b.detectMult, b.length] ++ u32.encode b.myDiscr ++
    u32.encode b.yourDiscr ++ u32.encode b.minTxInt ++ u32.encode b.minRxInt) [] b.minEchoRxInt
  simp only [List.length_append, hlen, List.append_assoc, List.cons_append, List.nil_append, List.append_nil,
    List.length_cons, List.length_nil, Nat.zero_add, Nat.reduceAdd] at hmy hyour htx hrx hecho
  have hpkt : b.toPacket = b.flags :: b.bits :: b.detectMult :: b.length :: (u32.encode b.myDiscr ++
    (u32.encode b.yourDiscr ++ (u32.encode b.minTxInt ++ (u32.encode b.minRxInt ++ u32.encode b.minEchoRxInt)))) := rfl
  rw [← hpkt] at hmy hyour htx hrx hecho
  unfold ofPacket
  rw [hmy, hyour, htx, hrx, hecho]
  simp only [toPacket, List.getD_cons_zero, List.getD_cons_succ, flags, bits, hdiag, hvers, hmultipoint, hdemand, hauth,
    hcpi, hfinal, hpoll, hstate]

end Bytes

/-- The sessions that `iterate_on_session` is called on when `a` happens: those found by the iteration, one that
answers a poll, or one that is set to Down. -/
inductive CalledOn (d : Daemon) : Action → SessKey → BfdSess → Prop
  | tick {results : List Int} {peer : SessKey} {psess : BfdSess}
      (hstored : d.kv.data (SessKey.codec.encode peer) = some (BfdSess.codec.encode psess)) :
    CalledOn d (.tick results) peer psess
  | poll {cAddr : SockaddrIn} {pkt : List Byte} {stack sess : BfdSess} {curms : BitVec 64} {results : List Int}
      (hok : recvAccepts pkt.length (Bfd.ofPacket pkt) = true) (hpoll : (Bfd.ofPacket pkt).poll = 1)
      (hsess : d.kv.findSession cAddr sizeofSockaddrIn = some sess ∨
        d.kv.findSession cAddr sizeofSockaddrIn = none ∧ sess = initSession stack cAddr sizeofSockaddrIn) :
    CalledOn d (.recv cAddr pkt stack curms results) (keyt cAddr)
      (afterPacket (Bfd.ofPacket pkt) curms d.localDiscriminatorIncr sess)
  | down {cAddr : SockaddrIn} {pkt : List Byte} {stack : BfdSess} {curms : BitVec 64} {results : List Int}
      (hok : recvAccepts pkt.length (Bfd.ofPacket pkt) = true)
      (hsess : d.kv.findSession cAddr sizeofSockaddrIn = none) (hyour : (Bfd.ofPacket pkt).yourDiscr ≠ 0) :
    CalledOn d (.recv cAddr pkt stack curms results) (keyt cAddr)
      (downSession stack cAddr sizeofSockaddrIn (Bfd.ofPacket pkt))

/-- The packet says what the session says. -/
structure Shows (bfd : Bfd) (psess : BfdSess) : Prop where
  diag : bfd.diag.setWidth 32 = psess.localDiag
  state : bfd.state.setWidth 32 = psess.sessionState
  mult : bfd.detectMult.setWidth 32 = psess.detectMult
  my : bfd.myDiscr = psess.localDiscr
  your : bfd.yourDiscr = psess.remoteDiscr

/-- A sound session that is sent for. -/
theorem Sound.shown {psess : BfdSess} (h : Sound psess) {bfd : Bfd} (hout : outgoing psess = some bfd) :
    recvAccepts bfd.toPacket.length (Bfd.ofPacket bfd.toPacket) = true ∧ Shows (Bfd.ofPacket bfd.toPacket) psess := by
  obtain ⟨rfl, hon⟩ := outgoing_eq hout
  rw [Bfd.ofPacket_toPacket, Bfd.length_toPacket]
  obtain ⟨-, hlocal, hremote⟩ := h.attached.resolve_left hon
  have hstate : (ctrlPacket psess).state = psess.sessionState.setWidth 2 := if_pos hlocal
  have hwide : (psess.sessionState.setWidth 2).setWidth 32 = psess.sessionState := by
    rcases h.states with hs | hs | hs <;> rw [hs] <;> rfl
  have hmult : (ctrlPacket psess).detectMult = 3 := by
    simp only [ctrlPacket, h.mult]
    rfl
  refine ⟨?_, ⟨?_, ?_, ?_, rfl, rfl⟩⟩
  · have hmy : (ctrlPacket psess).myDiscr ≠ 0 := hlocal
    have hyour : (ctrlPacket psess).yourDiscr ≠ 0 := hremote
    have hvers : (ctrlPacket psess).vers = bfdVersion := rfl
    have hmultipoint : (ctrlPacket psess).multipoint = 0 := rfl
    have hauth : (ctrlPacket psess).auth = 0 := rfl
    simp only [recvAccepts, hvers, hmultipoint, hauth, hmult, hmy, hyour, false_and, if_false]
    decide
  · simp only [ctrlPacket]
    rcases h.diag with hd | hd <;> rw [hd] <;> rfl
  · rw [hstate, hwide]
  · rw [hmult, h.mult]
    rfl

/-- The sessions that are sent for are sound. -/
theorem CalledOn.sound {d : Daemon} {R : Registry} (h : SoundTable d R) {a : Action} {peer : SessKey} {psess : BfdSess}
    (hc : CalledOn d a peer psess) : Sound psess := by
  have hfind : ∀ cAddr, d.kv.findSession cAddr sizeofSockaddrIn = R.sess (keyt cAddr) :=
    fun cAddr => Kv.findSession_eq h.table cAddr (by decide)
  cases hc with
  | tick hstored =>
    rw [h.table.sessions] at hstored
    obtain ⟨s, hs, he⟩ := Option.map_eq_some_iff.mp hstored
    rw [← BfdSess.codec.encode_injective he]
    exact h.sound peer s hs
  | @poll cAddr pkt stack sess curms results hok hpoll hsess =>
    refine afterPacket_sound ?_ h.incr (recvAccepts_myDiscr hok)
    rcases hsess with hs | ⟨-, rfl⟩
    · rw [hfind] at hs
      exact h.sound _ _ hs
    · exact initSession_sound _ _ _
  | down hok hsess hyour => exact downSession_sound _ _ _ _

namespace Daemon

/-- What a step sends, it sends for the sessions `iterate_on_session` is called on. -/
theorem step_sents {d : Daemon} {R : Registry} (h : SoundTable d R) (a : Action) :
    ∃ new, sents (step d a).log = new ++ sents d.log ∧ ∀ p ∈ new, ∃ psess, CalledOn d a p.1 psess ∧
      p.2.1 = psess.clientAddr ∧ outgoing psess = some p.2.2 := by
  cases a with
  | tick results =>
    obtain ⟨vs, hsub, hsents, -⟩ := sendBfdEvent_step h.table results
    refine ⟨_, hsents, fun p hp => ?_⟩
    obtain ⟨peer, dest, bfd⟩ := p
    obtain ⟨⟨k, s⟩, hmem, ht⟩ := List.mem_flatMap.mp hp
    obtain ⟨rfl, rfl, hout⟩ := mem_transmission.mp ht
    have hs := Registry.mem_entries.mp (hsub.subset (List.mem_reverse.mp hmem))
    refine ⟨s, .tick ?_, rfl, hout⟩
    rw [h.table.sessions, hs]
    rfl
  | recv cAddr pkt stack curms results =>
    rcases @recvBfdEvent_step d R cAddr sizeofSockaddrIn curms results pkt stack h.table (by decide) with
      ⟨-, heq⟩ | ⟨hok, R', called, -, -, ho, hsents, -⟩
    · refine ⟨[], ?_, fun p hp => (by cases hp)⟩
      rw [step, heq]
      rfl
    · refine ⟨_, hsents, fun p hp => ?_⟩
      obtain ⟨peer, dest, bfd⟩ := p
      obtain ⟨s, hmem, ht⟩ := List.mem_flatMap.mp hp
      obtain ⟨rfl, rfl, hout⟩ := mem_transmission.mp ht
      refine ⟨s, ?_, rfl, hout⟩
      have hfind : d.kv.findSession cAddr sizeofSockaddrIn = R.sess (keyt cAddr) :=
        Kv.findSession_eq h.table cAddr (by decide)
      generalize R.sess (keyt cAddr) = before at ho hfind
      generalize R'.sess (keyt cAddr) = after at ho
      generalize (recvBfdEvent cAddr sizeofSockaddrIn pkt stack curms results d).2.localDiscriminatorIncr = incr' at ho
      cases ho with
      | nothing => cases hmem
      | down hyour => cases hmem
      | admin sess hstate => cases hmem
      | known sess stored =>
        split at hmem
        · rename_i hpoll
          obtain rfl := List.mem_singleton.mp hmem
          exact .poll hok hpoll (.inl hfind)
        · cases hmem
      | new hyour hdown stored =>
        split at hmem
        · rename_i hpoll
          obtain rfl := List.mem_singleton.mp hmem
          exact .poll hok hpoll (.inr ⟨hfind, rfl⟩)
        · cases hmem

/-- In every reachable state, what `iterate_on_session` sends is 24 bytes that the checks of `recv_bfd_event` let
through and that show the session; and nothing else is sent. -/
theorem sent_acceptable (actions : List Action) (a : Action) :
    (∀ peer psess bfd, CalledOn (run actions) a peer psess → outgoing psess = some bfd →
      bfd.toPacket.length = bfdMinpktlen ∧
      recvAccepts bfd.toPacket.length (Bfd.ofPacket bfd.toPacket) = true ∧ Shows (Bfd.ofPacket bfd.toPacket) psess) ∧
    ∃ new, sents (step (run actions) a).log = new ++ sents (run actions).log ∧
      ∀ p ∈ new, ∃ psess, CalledOn (run actions) a p.1 psess ∧ p.2.1 = psess.clientAddr ∧
        outgoing psess = some p.2.2 := by
  obtain ⟨R, h⟩ := run_sound actions
  exact ⟨fun peer psess bfd hc hout => ⟨bfd.length_toPacket, (CalledOn.sound h hc).shown hout⟩, step_sents h a⟩

end Daemon

end NetworkBfd.Bfdd
