import NetworkBfd.BfddNetmap.Frames
import NetworkBfd.Bfdd.Event

/-!
# The control packet in a reply

What `recv_packet` makes of the control packet in an accepted frame (`replyPacket`), and when a peer takes it
(`reply_valid_iff`).
-/

namespace NetworkBfd.BfddNetmap

open Lib Lib.Bytes Smmr Bfdd

/-! ## The packet in a buffer -/

/-- `(bfd_ptr)(buf + off)`. -/
def bfdAt (buf : Bytes) (off : Nat) : Bfd := Bfd.ofPacket (read buf off sizeofBfd)

section Fields

variable {buf buf' : Bytes} {off : Nat}

theorem getD_read {i : Nat} (h : i < sizeofBfd) : (read buf off sizeofBfd).getD i 0 = buf (off + i) := by
  rw [List.getD_eq_getElem?_getD, getElem?_read, if_pos h, Option.getD_some]

theorem u32At_read {i : Nat} (h : i + 4 ≤ sizeofBfd) :
    u32At (read buf off sizeofBfd) i = BitVec.ofNat 32 (word buf (off + i) 4) := by
  rw [u32At, getD_read (by omega), getD_read (by omega), getD_read (by omega), getD_read (by omega)]
  rfl

/-- The fields from their bytes. -/
theorem bfdAt_eq (buf : Bytes) (off : Nat) : bfdAt buf off =
    { diag := (buf off).extractLsb' 0 5
      vers := (buf off).extractLsb' 5 3
      multipoint := (buf (off + 1)).extractLsb' 0 1
      demand := (buf (off + 1)).extractLsb' 1 1
      auth := (buf (off + 1)).extractLsb' 2 1
      cpi := (buf (off + 1)).extractLsb' 3 1
      final := (buf (off + 1)).extractLsb' 4 1
      poll := (buf (off + 1)).extractLsb' 5 1
      state := (buf (off + 1)).extractLsb' 6 2
      detectMult := buf (off + 2)
      length := buf (off + 3)
      myDiscr := BitVec.ofNat 32 (word buf (off + 4) 4)
      yourDiscr := BitVec.ofNat 32 (word buf (off + 8) 4)
      minTxInt := BitVec.ofNat 32 (word buf (off + 12) 4)
      minRxInt := BitVec.ofNat 32 (word buf (off + 16) 4)
      minEchoRxInt := BitVec.ofNat 32 (word buf (off + 20) 4) } := by
  unfold bfdAt Bfd.ofPacket
  dsimp only
  rw [getD_read (by decide), getD_read (by decide), getD_read (by decide), getD_read (by decide),
    u32At_read (by decide), u32At_read (by decide), u32At_read (by decide), u32At_read (by decide),
    u32At_read (by decide), Nat.add_zero]

theorem bfdAt_congr (h : ∀ i, off ≤ i → i < off + sizeofBfd → buf' i = buf i) : bfdAt buf' off = bfdAt buf off :=
  congrArg Bfd.ofPacket (read_congr h)

theorem bfdState_eq : bfdState buf off = (bfdAt buf off).state.toNat := by
  rw [bfdAt_eq, bfdState]

theorem word_yourDiscr : word buf (off + 8) 4 = (bfdAt buf off).yourDiscr.toNat := by
  have hlt : word buf (off + 8) 4 < 2 ^ 32 := word_lt buf (off + 8) 4
  rw [bfdAt_eq]
  exact (Nat.mod_eq_of_lt hlt).symm

theorem word_swapBytes {a b n : Nat} (h : a + n ≤ b) :
    word (swapBytes buf a b n) a n = word buf b n ∧ word (swapBytes buf a b n) b n = word buf a n := by
  have hb := read_write_self (write buf a (read buf b n)) b (read buf a n)
  have ha := read_write_self buf a (read buf b n)
  rw [length_read] at ha hb
  refine ⟨?_, congrArg ofBytes hb⟩
  rw [word, swapBytes, read_write_of_disjoint (.inl h), ha, word]

theorem swapBytes_of_outside {a b n i : Nat} (ha : i < a ∨ a + n ≤ i) (hb : i < b ∨ b + n ≤ i) :
    swapBytes buf a b n i = buf i := by
  rw [swapBytes, write_of_outside (by rwa [length_read]), write_of_outside (by rwa [length_read])]

/-- `swap_bfd`. -/
theorem bfdAt_swapBfd : bfdAt (swapBfd buf off) off =
    { bfdAt buf off with myDiscr := (bfdAt buf off).yourDiscr, yourDiscr := (bfdAt buf off).myDiscr } := by
  obtain ⟨hmy, hyour⟩ := @word_swapBytes buf (off + 4) (off + 8) 4 (by omega)
  have hout : ∀ i, i < off + 4 ∨ off + 12 ≤ i → swapBfd buf off i = buf i := fun i hi =>
    swapBytes_of_outside (by omega) (by omega)
  have hword : ∀ a, off + 12 ≤ a → word (swapBfd buf off) a 4 = word buf a 4 := fun a ha =>
    word_congr fun i h1 _ => hout i (by omega)
  simp only [bfdAt_eq, hout off (by omega), hout (off + 1) (by omega), hout (off + 2) (by omega),
    hout (off + 3) (by omega), hword (off + 12) (by omega), hword (off + 16) (by omega), hword (off + 20) (by omega)]
  rw [swapBfd, hmy, hyour]

theorem extractLsb'_append_low (s : BitVec 2) (b : BitVec 8) {k w : Nat} (h : k + w ≤ 6) :
    (s ++ b.extractLsb' 0 6 : BitVec 8).extractLsb' k w = b.extractLsb' k w := by
  apply BitVec.eq_of_getLsbD_eq
  intro i hi
  simp only [BitVec.getLsbD_extractLsb', BitVec.getLsbD_append, hi, decide_true, Bool.true_and]
  rw [if_pos (by omega), decide_eq_true (show k + i < 6 by omega), Bool.true_and, Nat.zero_add]

/-- `bfd->u.bit.state = ..`. -/
theorem bfdAt_setBfdState (s : Nat) : bfdAt (setBfdState buf off s) off =
    { bfdAt buf off with state := BitVec.ofNat 2 s } := by
  have hin : setBfdState buf off s (off + 1) =
      (BitVec.ofNat 2 s ++ (buf (off + 1)).extractLsb' 0 6 : BitVec 8) :=
    @write_of_inside buf (off + 1) [(BitVec.ofNat 2 s ++ (buf (off + 1)).extractLsb' 0 6 : BitVec 8)] 0 (by simp)
  have hout : ∀ i, i ≠ off + 1 → setBfdState buf off s i = buf i := fun i hi =>
    write_of_outside (by rw [List.length_singleton]; omega)
  have hword : ∀ a, off + 2 ≤ a → word (setBfdState buf off s) a 4 = word buf a 4 := fun a ha =>
    word_congr fun i h1 _ => hout i (by omega)
  have hstate : (BitVec.ofNat 2 s ++ (buf (off + 1)).extractLsb' 0 6 : BitVec 8).extractLsb' 6 2 =
      BitVec.ofNat 2 s := by
    apply BitVec.eq_of_getLsbD_eq
    intro i hi
    rw [BitVec.getLsbD_extractLsb', BitVec.getLsbD_append, if_neg (by omega), decide_eq_true hi, Bool.true_and,
      Nat.add_sub_cancel_left]
  simp only [bfdAt_eq, hin, hout off (by omega), hout (off + 2) (by omega), hout (off + 3) (by omega),
    hword (off + 4) (by omega), hword (off + 8) (by omega), hword (off + 12) (by omega), hword (off + 16) (by omega),
    hword (off + 20) (by omega), hstate, extractLsb'_append_low _ _ (show 0 + 1 ≤ 6 by decide),
    extractLsb'_append_low _ _ (show 1 + 1 ≤ 6 by decide), extractLsb'_append_low _ _ (show 2 + 1 ≤ 6 by decide),
    extractLsb'_append_low _ _ (show 3 + 1 ≤ 6 by decide), extractLsb'_append_low _ _ (show 4 + 1 ≤ 6 by decide),
    extractLsb'_append_low _ _ (show 5 + 1 ≤ 6 by decide)]

/-- `bfd->my_discr = ..`. -/
theorem bfdAt_putMyDiscr (v : Nat) : bfdAt (putWord buf (off + 4) 4 v) off =
    { bfdAt buf off with myDiscr := BitVec.ofNat 32 v } := by
  have hout : ∀ i, i < off + 4 ∨ off + 8 ≤ i → putWord buf (off + 4) 4 v i = buf i := fun i hi =>
    putWord_of_outside (by omega)
  have hword : ∀ a, off + 8 ≤ a → word (putWord buf (off + 4) 4 v) a 4 = word buf a 4 := fun a ha =>
    word_congr fun i h1 _ => hout i (by omega)
  simp only [bfdAt_eq, hout off (by omega), hout (off + 1) (by omega), hout (off + 2) (by omega),
    hout (off + 3) (by omega), hword (off + 8) (by omega), hword (off + 12) (by omega), hword (off + 16) (by omega),
    hword (off + 20) (by omega), word_putWord_self]
  congr 1
  apply BitVec.eq_of_toNat_eq
  rw [BitVec.toNat_ofNat, BitVec.toNat_ofNat]
  exact Nat.mod_mod _ _

end Fields

/-! ## The packet in the reply -/

/-- The control packet of a reply, from the request and from the `your_discr` that was read from it. -/
def replyPacket (tmpDscr : Nat) (request : Bfd) : Bfd :=
  let swapped := { request with myDiscr := request.yourDiscr, yourDiscr := request.myDiscr }
  if request.state.toNat = bfdstateDown then
    { swapped with
      state := BitVec.ofNat 2 (if tmpDscr = 0 then bfdstateInit else bfdstateDown)
      myDiscr := 10000 }
  else if request.state.toNat = bfdstateAdmindown then { swapped with state := BitVec.ofNat 2 bfdstateDown }
  else { swapped with state := BitVec.ofNat 2 bfdstateUp, myDiscr := 10000 }

/-- The headers of the reply, with the control packet still the one of the request. -/
def replyHeaders (buf : Bytes) : Bytes :=
  putWord (swapIp (swapMac buf) (ipOff buf) 0xff) (udpOff buf + 6) 2 0

/-- What `recv_packet` does to the control packet. -/
def patchBfd (tmpDscr : Nat) (buf : Bytes) (bfd : Nat) : Bytes :=
  let buf := swapBfd buf bfd
  if bfdState buf bfd = bfdstateDown then
    if tmpDscr = 0 then putWord (setBfdState buf bfd bfdstateInit) (bfd + 4) 4 10000
    else putWord (setBfdState buf bfd bfdstateDown) (bfd + 4) 4 10000
  else if bfdState buf bfd = bfdstateAdmindown then setBfdState buf bfd bfdstateDown
  else if bfdState buf bfd = bfdstateInit then putWord (setBfdState buf bfd bfdstateUp) (bfd + 4) 4 10000
  else if bfdState buf bfd = bfdstateUp then putWord (setBfdState buf bfd bfdstateUp) (bfd + 4) 4 10000
  else putWord (putWord (setBfdState buf bfd bfdstateDown) (bfd + 4) 4 10000) (bfd + 8) 4 0

theorem replyFrame_eq (buf : Bytes) : replyFrame buf =
    patchBfd (word (swapIp (swapMac buf) (ipOff buf) 0xff) (bfdOff buf + 8) 4) (replyHeaders buf) (bfdOff buf) := rfl

section Patch

variable {buf : Bytes} {off : Nat}

theorem bfdAt_patchBfd (tmpDscr : Nat) (buf : Bytes) (off : Nat) :
    bfdAt (patchBfd tmpDscr buf off) off = replyPacket tmpDscr (bfdAt buf off) := by
  have hstate : bfdState (swapBfd buf off) off = (bfdAt buf off).state.toNat := by
    rw [bfdState_eq, bfdAt_swapBfd]
  have hlt : (bfdAt buf off).state.toNat < 4 := (bfdAt buf off).state.isLt
  unfold patchBfd replyPacket
  simp only [hstate]
  split_ifs with h1 h2 h3 h4 h5
  · simp only [bfdAt_putMyDiscr, bfdAt_setBfdState, bfdAt_swapBfd, BitVec.ofNat_eq_ofNat]
  · simp only [bfdAt_putMyDiscr, bfdAt_setBfdState, bfdAt_swapBfd, BitVec.ofNat_eq_ofNat]
  · simp only [bfdAt_setBfdState, bfdAt_swapBfd]
  · simp only [bfdAt_putMyDiscr, bfdAt_setBfdState, bfdAt_swapBfd, BitVec.ofNat_eq_ofNat]
  · simp only [bfdAt_putMyDiscr, bfdAt_setBfdState, bfdAt_swapBfd, BitVec.ofNat_eq_ofNat]
  · simp only [bfdstateDown, bfdstateAdmindown, bfdstateInit, bfdstateUp] at h1 h3 h4 h5
    omega

/-- The headers are done by then. -/
theorem patchBfd_of_before (tmpDscr : Nat) {i : Nat} (h : i < off) : patchBfd tmpDscr buf off i = buf i := by
  have hswap : swapBfd buf off i = buf i := swapBytes_of_outside (.inl (by omega)) (.inl (by omega))
  have hset : ∀ (b : Bytes) s, setBfdState b off s i = b i := fun b s => write_of_outside (.inl (by omega))
  have hput : ∀ (b : Bytes) a v, off ≤ a → putWord b a 4 v i = b i := fun b a v ha =>
    putWord_of_outside (.inl (by omega))
  unfold patchBfd
  split_ifs <;> simp only [hput _ (off + 4) _ (by omega), hput _ (off + 8) _ (by omega), hset, hswap]

/-- Behind the addresses the swaps change nothing. -/
theorem swapIp_of_behind (ttl : Byte) {ip i : Nat} (h : ip + 20 ≤ i) : swapIp buf ip ttl i = buf i := by
  rw [swapIp, write_of_outside (by rw [List.length_singleton]; omega), swapBytes_of_outside (by omega) (by omega)]

theorem swapMac_of_behind {i : Nat} (h : 12 ≤ i) : swapMac buf i = buf i :=
  swapBytes_of_outside (.inr (by omega)) (.inr (by omega))

theorem ipOff_ge (buf : Bytes) : 14 ≤ ipOff buf := Nat.le_add_right _ _

/-- A header of three words or more ends behind the addresses, so the control packet is still that of the request. -/
theorem bfdAt_replyHeaders (h : 3 ≤ ipHl buf) : bfdAt (replyHeaders buf) (bfdOff buf) = bfdAt buf (bfdOff buf) := by
  have hip := ipOff_ge buf
  refine bfdAt_congr fun i hi _ => ?_
  simp only [bfdOff, udpOff, sizeofUdphdr] at hi
  rw [replyHeaders, putWord_of_outside (by rw [udpOff]; omega), swapIp_of_behind _ (by omega),
    swapMac_of_behind (by omega)]

theorem tmpDscr_eq (h : 3 ≤ ipHl buf) : word (swapIp (swapMac buf) (ipOff buf) 0xff) (bfdOff buf + 8) 4 =
    (bfdAt buf (bfdOff buf)).yourDiscr.toNat := by
  have hip := ipOff_ge buf
  rw [← word_yourDiscr]
  refine word_congr fun i hi _ => ?_
  simp only [bfdOff, udpOff, sizeofUdphdr] at hi
  rw [swapIp_of_behind _ (by omega), swapMac_of_behind (by omega)]

/-- The control packet of the reply to a frame with a header of three words or more. -/
theorem bfdAt_replyFrame (h : 3 ≤ ipHl buf) : bfdAt (replyFrame buf) (bfdOff buf) =
    replyPacket (bfdAt buf (bfdOff buf)).yourDiscr.toNat (bfdAt buf (bfdOff buf)) := by
  rw [replyFrame_eq, bfdAt_patchBfd, bfdAt_replyHeaders h, tmpDscr_eq h]

end Patch

/-! ## Valid replies -/

/-- The reply passes the checks of `recv_bfd_event`, names the sender, and answers a Poll. -/
structure ValidReply (request reply : Bfd) : Prop where
  accepted : recvAccepts sizeofBfd reply = true
  discr : reply.yourDiscr = request.myDiscr
  final : reply.final = 1 ∧ reply.poll = 0 ↔ request.poll = 1

/-- What the checks ask for. -/
theorem recvAccepts_iff {bfd : Bfd} : recvAccepts sizeofBfd bfd = true ↔
    bfd.multipoint = 0 ∧ bfd.vers = bfdVersion ∧ bfd.auth = 0 ∧ bfd.myDiscr ≠ 0 ∧ bfd.detectMult ≠ 0 ∧
      (bfd.yourDiscr = 0 → bfd.state = BitVec.ofNat 2 bfdstateDown ∨ bfd.state = BitVec.ofNat 2 bfdstateAdmindown) := by
  unfold recvAccepts
  constructor
  · intro h
    split_ifs at h with hlen h1 h2 h3 h4 h5 h6
    exact ⟨not_not.mp h1, not_not.mp h2, not_not.mp h3, h4, h5,
      fun hz => not_not.mp fun hn => h6 ⟨hz, hn⟩⟩
  · rintro ⟨h1, h2, h3, h4, h5, h6⟩
    rw [if_neg (show ¬ sizeofBfd ≠ bfdMinpktlen from fun hn => hn rfl), if_neg (not_not.mpr h1),
      if_neg (not_not.mpr h2), if_neg (not_not.mpr h3), if_neg h4,
      if_neg h5, if_neg fun hn => hn.2 (h6 hn.1)]

/-- The reply to a packet that passes the checks. -/
theorem replyPacket_valid_iff {request : Bfd} (h : recvAccepts sizeofBfd request = true) :
    ValidReply request (replyPacket request.yourDiscr.toNat request) ↔
      request.poll = 0 ∧ request.final = 0 ∧
        (request.state = BitVec.ofNat 2 bfdstateAdmindown → request.yourDiscr ≠ 0) := by
  obtain ⟨hmulti, hvers, hauth, hmy, hmult, -⟩ := recvAccepts_iff.mp h
  have hflags : (replyPacket request.yourDiscr.toNat request).final = request.final ∧
      (replyPacket request.yourDiscr.toNat request).poll = request.poll := by
    unfold replyPacket
    dsimp only
    split_ifs <;> exact ⟨rfl, rfl⟩
  have hdiscr : (replyPacket request.yourDiscr.toNat request).yourDiscr = request.myDiscr := by
    unfold replyPacket
    dsimp only
    split_ifs <;> rfl
  have haccept : recvAccepts sizeofBfd (replyPacket request.yourDiscr.toNat request) = true ↔
      (request.state = BitVec.ofNat 2 bfdstateAdmindown → request.yourDiscr ≠ 0) := by
    have hstate : request.state.toNat = bfdstateAdmindown ↔ request.state = BitVec.ofNat 2 bfdstateAdmindown :=
      BitVec.toNat_inj (y := 0#2)
    have hten : ¬ (10000 : BitVec 32) = 0 := by decide
    rw [recvAccepts_iff, ← hstate, hdiscr]
    unfold replyPacket
    dsimp only
    by_cases hdown : request.state.toNat = bfdstateDown
    · rw [if_pos hdown]
      exact ⟨fun _ hz => absurd (hz.symm.trans hdown) (by decide),
        fun _ => ⟨hmulti, hvers, hauth, hten, hmult, fun hz => absurd hz hmy⟩⟩
    · rw [if_neg hdown]
      by_cases hadmin : request.state.toNat = bfdstateAdmindown
      · rw [if_pos hadmin]
        exact ⟨fun hall _ => hall.2.2.2.1,
          fun hyour => ⟨hmulti, hvers, hauth, hyour hadmin, hmult, fun hz => absurd hz hmy⟩⟩
      · rw [if_neg hadmin]
        exact ⟨fun _ hz => absurd hz hadmin,
          fun _ => ⟨hmulti, hvers, hauth, hten, hmult, fun hz => absurd hz hmy⟩⟩
  have hbit : ∀ p f : BitVec 1, (f = 1 ∧ p = 0 ↔ p = 1) ↔ p = 0 ∧ f = 0 := by decide
  constructor
  · rintro ⟨hok, -, hfinal⟩
    rw [hflags.1, hflags.2] at hfinal
    obtain ⟨hpoll, hf⟩ := (hbit _ _).mp hfinal
    exact ⟨hpoll, hf, haccept.mp hok⟩
  · rintro ⟨hpoll, hf, hadmin⟩
    refine ⟨haccept.mpr hadmin, hdiscr, ?_⟩
    rw [hflags.1, hflags.2]
    exact (hbit _ _).mpr ⟨hpoll, hf⟩

section Reply

variable {buf : Bytes} {len : Nat}

/-- Headers of no or one word are not accepted with a control packet in them. -/
theorem two_le_ipHl (hok : isBfdPacket buf len = 0)
    (hreq : recvAccepts sizeofBfd (bfdAt buf (bfdOff buf)) = true) : 2 ≤ ipHl buf := by
  obtain ⟨htype, -, hports⟩ := isBfdPacket_eq_zero_iff.mp hok
  have hoff := ipOff_untagged htype
  have hhl : headerAt buf 14 = ipHl buf := by rw [ipHl, hoff, headerAt]
  obtain ⟨hproto, -, hlength⟩ := hports
  rw [hhl] at hlength
  by_contra hlt
  rcases (show ipHl buf = 0 ∨ ipHl buf = 1 by omega) with h0 | h1
  · -- the protocol is the second byte of the control packet
    obtain ⟨hmulti, -⟩ := recvAccepts_iff.mp hreq
    rw [bfdAt_eq, bfdOff, udpOff, hoff, h0] at hmulti
    dsimp only [sizeofUdphdr] at hmulti
    rw [hproto] at hmulti
    exact absurd hmulti (by decide)
  · -- the protocol is the second byte of the UDP length
    rw [h1, net16] at hlength
    rw [hproto] at hlength
    have hb := (buf (14 + 1 * 4 + 4)).isLt
    have h17 : ipprotoUdp.toNat = 17 := rfl
    omega

/-- Behind a header of two words the control packet has the place of the destination address, and gets the UDP
length. -/
theorem reply_vers (hok : isBfdPacket buf len = 0) (h2 : ipHl buf = 2) :
    (bfdAt (replyFrame buf) (bfdOff buf)).vers = 0 := by
  obtain ⟨htype, -, hports⟩ := isBfdPacket_eq_zero_iff.mp hok
  have hoff := ipOff_untagged htype
  have hhl : headerAt buf 14 = 2 := by rw [← h2, ipHl, hoff, headerAt]
  have hlength := hports.length
  rw [hhl, net16] at hlength
  have hzero : buf 26 = 0 := by
    apply BitVec.eq_of_toNat_eq
    have h0 := (buf (14 + 2 * 4 + 4 + 1)).isLt
    have h26 : (buf (14 + 2 * 4 + 4)).toNat = 0 := by omega
    exact h26
  have hbyte : replyHeaders buf 30 = 0 := by
    have hudp : udpOff buf = 22 := by rw [udpOff, hoff, h2]
    rw [replyHeaders, hoff, hudp, putWord_of_outside (.inr (by decide)), swapIp,
      write_of_outside (.inr (by decide)), swapBytes]
    have hget := @write_of_inside (write (swapMac buf) (14 + 12) (read (swapMac buf) (14 + 16) 4)) (14 + 16)
      (read (swapMac buf) (14 + 12) 4) 0 (by rw [length_read]; decide)
    refine hget.trans ?_
    rw [← hzero, ← @swapMac_of_behind buf 26 (by decide)]
    rfl
  have hkeep : ∀ tmp (r : Bfd), (replyPacket tmp r).vers = r.vers := by
    intro tmp r
    unfold replyPacket
    dsimp only
    split_ifs <;> rfl
  have hbfd : bfdOff buf = 30 := by
    rw [bfdOff, udpOff, hoff, h2]
    rfl
  rw [replyFrame_eq, bfdAt_patchBfd, hkeep, bfdAt_eq, hbfd, hbyte]
  rfl

/-- The control packet in the reply to an accepted frame is valid exactly if the IP header has not two words, the
request had neither Poll nor Final set, and an AdminDown names a session. -/
theorem reply_valid_iff (hok : isBfdPacket buf len = 0)
    (hreq : recvAccepts sizeofBfd (bfdAt buf (bfdOff buf)) = true) :
    ValidReply (bfdAt buf (bfdOff buf)) (bfdAt (replyFrame buf) (bfdOff buf)) ↔
      ipHl buf ≠ 2 ∧ (bfdAt buf (bfdOff buf)).poll = 0 ∧ (bfdAt buf (bfdOff buf)).final = 0 ∧
        ((bfdAt buf (bfdOff buf)).state = BitVec.ofNat 2 bfdstateAdmindown →
          (bfdAt buf (bfdOff buf)).yourDiscr ≠ 0) := by
  have htwo := two_le_ipHl hok hreq
  by_cases h2 : ipHl buf = 2
  · constructor
    · intro h
      obtain ⟨-, hvers, -⟩ := recvAccepts_iff.mp h.accepted
      rw [reply_vers hok h2] at hvers
      exact absurd hvers (by decide)
    · exact fun h => absurd h2 h.1
  · rw [bfdAt_replyFrame (by omega), replyPacket_valid_iff hreq]
    exact ⟨fun h => ⟨h2, h⟩, fun h => h.2⟩

end Reply

/-- The bytes of a frame with a control packet in it. -/
def controlFrame (bits : Byte) : List Byte :=
  [1, 1, 1, 1, 1, 1, 2, 2, 2, 2, 2, 2, 0x08, 0x00,
    0x45, 0, 0, 52, 0, 0, 0, 0, 0xff, 17, 0, 0, 10, 0, 0, 1, 10, 0, 0, 2,
    0xc0, 0x00, 0x0e, 0xc8, 0, 32, 0, 0,
    0x20, bits, 3, 24, 0, 0, 0, 1, 0, 0, 0, 0, 0, 0, 0, 0, 0, 0, 0, 0, 0, 0, 0, 0]

/-- Down gets a valid reply. -/
theorem reply_valid_iff_down :
    isBfdPacket (frame (controlFrame 0x40)) 66 = 0 ∧
    recvAccepts sizeofBfd (bfdAt (frame (controlFrame 0x40)) (bfdOff (frame (controlFrame 0x40)))) = true ∧
    ValidReply (bfdAt (frame (controlFrame 0x40)) (bfdOff (frame (controlFrame 0x40))))
      (bfdAt (replyFrame (frame (controlFrame 0x40))) (bfdOff (frame (controlFrame 0x40)))) := by
  have hok : isBfdPacket (frame (controlFrame 0x40)) 66 = 0 := by decide
  have hreq : recvAccepts sizeofBfd (bfdAt (frame (controlFrame 0x40)) (bfdOff (frame (controlFrame 0x40)))) =
    true := by
    decide
  exact ⟨hok, hreq, (reply_valid_iff hok hreq).mpr (by decide)⟩

/-- Down with Poll set gets a reply with Poll set and Final clear, and AdminDown one without `my_discr`. -/
theorem reply_invalid :
    (isBfdPacket (frame (controlFrame 0x60)) 66 = 0 ∧
      recvAccepts sizeofBfd (bfdAt (frame (controlFrame 0x60)) 42) = true ∧
      ¬ ValidReply (bfdAt (frame (controlFrame 0x60)) 42) (bfdAt (replyFrame (frame (controlFrame 0x60))) 42)) ∧
    isBfdPacket (frame (controlFrame 0x00)) 66 = 0 ∧
      recvAccepts sizeofBfd (bfdAt (frame (controlFrame 0x00)) 42) = true ∧
      ¬ ValidReply (bfdAt (frame (controlFrame 0x00)) 42) (bfdAt (replyFrame (frame (controlFrame 0x00))) 42) := by
  refine ⟨⟨by decide, by decide, fun h => ?_⟩, by decide, by decide, fun h => ?_⟩
  · exact absurd (h.final.mpr (by decide)) (by decide)
  · exact absurd h.accepted (by decide)

end NetworkBfd.BfddNetmap
