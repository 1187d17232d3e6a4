import NetworkBfd.BfddCpp.Intervals

/-!
# The detection deadline

Both daemons multiply `detect_mult` with the larger interval in 32 bits and add the product to a 64-bit clock. The
deadline they store is the one of the integers exactly if neither operation wraps (`storedDeadline_onTime_iff`), and
if `insert_session` of bfdd stores the session at all (`deadline_iff`).
-/

namespace NetworkBfd

open Lib Smmr Bfdd BfddCpp

/-! ## The sum and the product -/

/-- `detect_time` over the integers. -/
def deadline (bfd : Bfd) (curms : BitVec 64) (desiredMinTx : BitVec 32) : Nat :=
  curms.toNat + bfd.detectMult.toNat * max bfd.minRxInt.toNat desiredMinTx.toNat

/-- The stored deadline is the one of the integers, and so not before the detection time of the own interval. -/
def OnTime (bfd : Bfd) (curms : BitVec 64) (desiredMinTx : BitVec 32) (detectTime : BitVec 64) : Prop :=
  detectTime.toNat = deadline bfd curms desiredMinTx ∧
    curms.toNat + bfd.detectMult.toNat * desiredMinTx.toNat ≤ detectTime.toNat

/-- The product fits in 32 bits, and the sum in 64. -/
def Unwrapped (bfd : Bfd) (curms : BitVec 64) (desiredMinTx : BitVec 32) : Prop :=
  bfd.detectMult.toNat * max bfd.minRxInt.toNat desiredMinTx.toNat < 2 ^ 32 ∧
    deadline bfd curms desiredMinTx < 2 ^ 64

/-- `detect_time` as both daemons compute it. -/
def storedDeadline (bfd : Bfd) (curms : BitVec 64) (desiredMinTx : BitVec 32) : BitVec 64 :=
  curms + (bfd.detectMult.setWidth 32 *
    (if desiredMinTx < bfd.minRxInt then bfd.minRxInt else desiredMinTx)).setWidth 64

section Arithmetic

variable {bfd : Bfd} {curms : BitVec 64} {desiredMinTx : BitVec 32}

/-- `MAX`. -/
theorem toNat_larger (v w : BitVec 32) : (if w < v then v else w).toNat = max v.toNat w.toNat := by
  split
  · rename_i hlt
    exact (Nat.max_eq_left (Nat.le_of_lt hlt)).symm
  · rename_i hle
    exact (Nat.max_eq_right (Nat.not_lt.mp hle)).symm

theorem toNat_storedDeadline : (storedDeadline bfd curms desiredMinTx).toNat =
    (curms.toNat + bfd.detectMult.toNat * max bfd.minRxInt.toNat desiredMinTx.toNat % 2 ^ 32) % 2 ^ 64 := by
  have hmult : bfd.detectMult.toNat % 2 ^ 32 = bfd.detectMult.toNat := Nat.mod_eq_of_lt (by omega)
  have hprod : ∀ p, p % 2 ^ 32 % 2 ^ 64 = p % 2 ^ 32 := fun p => Nat.mod_eq_of_lt (by omega)
  rw [storedDeadline, BitVec.toNat_add, BitVec.toNat_setWidth, BitVec.toNat_mul, BitVec.toNat_setWidth, toNat_larger,
    hmult, hprod]

/-- A wrapped product or sum is smaller than it should be. -/
theorem storedDeadline_onTime_iff :
    OnTime bfd curms desiredMinTx (storedDeadline bfd curms desiredMinTx) ↔ Unwrapped bfd curms desiredMinTx := by
  have hle : bfd.detectMult.toNat * desiredMinTx.toNat ≤
      bfd.detectMult.toNat * max bfd.minRxInt.toNat desiredMinTx.toNat :=
    Nat.mul_le_mul_left _ (Nat.le_max_right _ _)
  rw [OnTime, Unwrapped, toNat_storedDeadline, deadline]
  generalize bfd.detectMult.toNat * max bfd.minRxInt.toNat desiredMinTx.toNat = p at hle ⊢
  constructor
  · rintro ⟨heq, -⟩
    have hsum := Nat.mod_le (curms.toNat + p % 2 ^ 32) (2 ^ 64)
    have hprod := Nat.mod_lt p (show 2 ^ 32 > 0 by decide)
    omega
  · rintro ⟨hprod, hsum⟩
    rw [Nat.mod_eq_of_lt hprod, Nat.mod_eq_of_lt hsum]
    exact ⟨rfl, Nat.add_le_add_left hle _⟩

end Arithmetic

/-! ## bfdd -/

namespace Bfdd

/-- The group of the peer lists fewer keys than it can. -/
def Kv.hasRoom (kv : Kv) (cAddr : SockaddrIn) : Bool :=
  kv.getSessManage.any fun mng => mng.incnt (hashed (keyt cAddr)) < sessionKeysListcnt

section

variable {d : Daemon} {R : Registry} {cAddr : SockaddrIn} {cAddrlen : BitVec 32} {bfd : Bfd} {curms : BitVec 64}
  {results : List Int} {sess : BfdSess}

theorem Represents.hasRoom_iff {kv : Kv} (h : Represents kv R) :
    kv.hasRoom cAddr = true ↔ (R.listed (hashed (keyt cAddr))).length < sessionKeysListcnt := by
  obtain ⟨mng, hm, hmng⟩ := h.manage
  rw [Kv.hasRoom, Kv.getSessManage_eq hm, Option.any_some, decide_eq_true_iff, SessManage.incnt, (hmng _).1]

/-- `insert_session` stores the session if its group has room, and nothing otherwise. -/
theorem insertLogged_find_eq (h : Represents d.kv R) (hlen : cAddrlen ≠ 0) :
    (insertLogged sess cAddr cAddrlen d).2.kv.findSession cAddr cAddrlen =
      if d.kv.hasRoom cAddr then some sess else d.kv.findSession cAddr cAddrlen := by
  by_cases hroom : d.kv.hasRoom cAddr
  · obtain ⟨kv, hrun, hkv⟩ := @insertSession_refines d.kv R sess cAddr cAddrlen h hlen (h.hasRoom_iff.mp hroom)
    rw [if_pos hroom]
    simp only [insertLogged, hrun]
    rw [Kv.findSession_eq hkv cAddr hlen]
    exact Function.update_self _ _ _
  · rw [if_neg hroom]
    simp only [insertLogged, insertSession_full h (Nat.not_lt.mp fun hlt => hroom (h.hasRoom_iff.mpr hlt))]

theorem afterPacket_detectTime (incr : BitVec 64) :
    (afterPacket bfd curms incr sess).detectTime = storedDeadline bfd curms sess.desiredMinTxInterval := by
  obtain ⟨on, discr, state, diag, poll, hframe⟩ := afterPacket_frame bfd curms incr sess
  rw [hframe]
  rfl

/-- An accepted packet of a peer that has a session. -/
theorem recvBfdEvent_find_eq {pkt : List Byte} {stack : BfdSess}
    (h : SoundTable d R) (hlen : cAddrlen ≠ 0)
    (hok : recvAccepts pkt.length (Bfd.ofPacket pkt) = true) (hfind : d.kv.findSession cAddr cAddrlen = some sess) :
    (recvBfdEvent cAddr cAddrlen pkt stack curms results d).2.kv.findSession cAddr cAddrlen =
      some (if d.kv.hasRoom cAddr then afterPacket (Bfd.ofPacket pkt) curms d.localDiscriminatorIncr sess
        else sess) := by
  have hs : R.sess (keyt cAddr) = some sess := by
    rw [← Kv.findSession_eq h.table cAddr hlen]
    exact hfind
  have hstate : (recordPacket (Bfd.ofPacket pkt) curms (attach sess d.localDiscriminatorIncr).1).sessionState ≠
      BitVec.ofNat 32 bfdstateAdmindown := by
    simpa only [recordPacket, attach_states] using (h.sound _ sess hs).not_admin
  simp only [recvBfdEvent]
  rw [if_pos hok]
  simp only [recvAccepted, hfind, recvOnSession]
  rw [if_neg hstate]
  refine (@insertLogged_find_eq ⟨d.kv, _, _⟩ R cAddr cAddrlen _ h.table hlen).trans ?_
  dsimp only
  split
  · rw [answerPoll_fst]
    rfl
  · exact hfind

end

end Bfdd

/-! ## bfdd_cpp -/

namespace BfddCpp.BfdSessionManager

theorem afterPacket_detectTime (endpR : Endpoint) (bfd : Bfd) (curms incr : BitVec 64) (s : BfdSession) :
    (afterPacket endpR bfd curms incr s).detectTime = storedDeadline bfd curms s.desiredMinTxInterval := by
  obtain ⟨conn, discr, state, diag, poll, hframe⟩ := afterPacket_frame endpR bfd curms incr s
  rw [hframe]
  rfl

end BfddCpp.BfdSessionManager

/-! ## Both -/

/-- On an accepted packet of a peer that has a session, bfdd stores the deadline of the integers exactly if nothing
wraps and the group of the peer has room (without room the old deadline stays), bfdd_cpp exactly if nothing wraps. -/
theorem deadline_iff (actions : List Action) (m : BfdSessionManager) :
    (∀ cAddr pkt stack curms results sess, recvAccepts pkt.length (Bfd.ofPacket pkt) = true →
      (Daemon.run actions).kv.findSession cAddr sizeofSockaddrIn = some sess →
      ((∃ t, (recvBfdEvent cAddr sizeofSockaddrIn pkt stack curms results (Daemon.run actions)).2.kv.findSession cAddr
          sizeofSockaddrIn = some t ∧ OnTime (Bfd.ofPacket pkt) curms sess.desiredMinTxInterval t.detectTime) ↔
        if (Daemon.run actions).kv.hasRoom cAddr then Unwrapped (Bfd.ofPacket pkt) curms sess.desiredMinTxInterval
        else OnTime (Bfd.ofPacket pkt) curms sess.desiredMinTxInterval sess.detectTime)) ∧
    ∀ endpR pkt curms psess, recieveAccepts pkt.length (Bfd.ofPacket pkt) = true →
      m.findUnsafe endpR.address endpR.port = some psess →
      ((∃ t, (recieve endpR pkt curms m).findUnsafe endpR.address endpR.port = some t ∧
          OnTime (Bfd.ofPacket pkt) curms psess.desiredMinTxInterval t.detectTime) ↔
        Unwrapped (Bfd.ofPacket pkt) curms psess.desiredMinTxInterval) := by
  constructor
  · intro cAddr pkt stack curms results sess hok hfind
    obtain ⟨R, h⟩ := Daemon.run_sound actions
    rw [recvBfdEvent_find_eq h (by decide) hok hfind]
    simp only [Option.some.injEq, exists_eq_left']
    split
    · rw [afterPacket_detectTime]
      exact storedDeadline_onTime_iff
    · exact Iff.rfl
  · intro endpR pkt curms psess hok hfind
    have hnext : (recieve endpR pkt curms m).findUnsafe endpR.address endpR.port = _ :=
      (congrFun ((congrArg BfdSessionManager.bfdSessions (if_pos hok)).trans
        (BfdSessionManager.onBfdRecieved_bfdSessions endpR _ curms m)) _).trans (Function.update_self _ _ _)
    rw [hnext, hfind]
    simp only [BfdSessionManager.nextSession, Option.some.injEq, exists_eq_left',
      BfdSessionManager.afterPacket_detectTime]
    exact storedDeadline_onTime_iff

/-- Down with `detect_mult` 255 and the interval 0x02000000, which is two in the order of the network. -/
def farPacket : List Byte :=
  [0x20, 0x40, 255, 24, 7, 0, 0, 0, 0, 0, 0, 0, 0, 0, 0, 0, 0, 0, 0, 2, 0, 0, 0, 0]

/-- The product 255 * 33554432 loses 2^32, in both daemons. -/
theorem deadline_wraps :
    recvAccepts farPacket.length (Bfd.ofPacket farPacket) = true ∧
    (∃ sess, (Daemon.run listener).kv.findSession ⟨2, 3784, 0x0100007f, 0⟩ sizeofSockaddrIn = some sess ∧
      ¬ ∃ t, (recvBfdEvent ⟨2, 3784, 0x0100007f, 0⟩ sizeofSockaddrIn farPacket default 6 []
          (Daemon.run listener)).2.kv.findSession ⟨2, 3784, 0x0100007f, 0⟩ sizeofSockaddrIn = some t ∧
        OnTime (Bfd.ofPacket farPacket) 6 sess.desiredMinTxInterval t.detectTime) ∧
    ¬ ∃ t, (recieve ⟨1, 2⟩ farPacket 6 (BfdSessionManager.new.subscribeUnsafe 1 2)).findUnsafe 1 2 = some t ∧
      OnTime (Bfd.ofPacket farPacket) 6 (BfdSession.new 1 2).desiredMinTxInterval t.detectTime := by
  have hbefore : ((Daemon.run listener).kv.findSession ⟨2, 3784, 0x0100007f, 0⟩ sizeofSockaddrIn).map
      (·.desiredMinTxInterval) = some 1000000 := by decide +kernel
  have hafter : ((recvBfdEvent ⟨2, 3784, 0x0100007f, 0⟩ sizeofSockaddrIn farPacket default 6 []
      (Daemon.run listener)).2.kv.findSession ⟨2, 3784, 0x0100007f, 0⟩ sizeofSockaddrIn).map (·.detectTime) =
        some 4261412870 := by decide +kernel
  have hcpp : ((recieve ⟨1, 2⟩ farPacket 6 (BfdSessionManager.new.subscribeUnsafe 1 2)).findUnsafe 1 2).map
      (·.detectTime) = some 4261412870 := by decide +kernel
  have hlate : ¬ OnTime (Bfd.ofPacket farPacket) 6 1000000 4261412870 := fun hon => absurd hon.1 (by decide)
  obtain ⟨sess, hs, hdesired⟩ := Option.map_eq_some_iff.mp hbefore
  refine ⟨by decide, ⟨sess, hs, ?_⟩, ?_⟩
  · rintro ⟨t, ht, hon⟩
    rw [ht] at hafter
    have htime : t.detectTime = 4261412870 := Option.some.inj hafter
    rw [hdesired, htime] at hon
    exact hlate hon
  · rintro ⟨t, ht, hon⟩
    rw [ht] at hcpp
    have htime : t.detectTime = 4261412870 := Option.some.inj hcpp
    rw [htime] at hon
    exact hlate hon

end NetworkBfd
