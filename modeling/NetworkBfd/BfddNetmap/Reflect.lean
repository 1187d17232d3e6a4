import NetworkBfd.BfddNetmap.Rings
import Mathlib.Data.List.Nodup
import Mathlib.Data.Nat.ModEq

/-!
# What the reflector releases

`process_rings` moves both cursors for every frame, so a slot is released for each of them, with the reply in it if the
frame was accepted and with what it held before otherwise (`processRings_sendAt`). What is released are the replies
exactly if every frame was accepted (`released_iff`).
-/

namespace NetworkBfd.BfddNetmap

open Lib Lib.Bytes Smmr Bfdd

/-- The functions of netmap, as it documents them: the slots of a ring form a circle, and those from `cur` up to `tail`
belong to the program. -/
structure Netmap.Documented (nm : Netmap) : Prop where
  next : ∀ r i, nm.nmRingNext r i = if i + 1 = r.numSlots then 0 else i + 1
  space : ∀ r, r.cur < r.numSlots → r.tail < r.numSlots →
    nm.nmRingSpace r = (r.tail + r.numSlots - r.cur) % r.numSlots

/-- Two rings as netmap hands them out: the cursors are in range, nothing is kept back before `cur`, and every slot has
a buffer of its own. -/
structure Ready (ph : ProcessHandle) : Prop where
  rxcur : ph.rxring.cur < ph.rxring.numSlots
  rxtail : ph.rxring.tail < ph.rxring.numSlots
  txcur : ph.txring.cur < ph.txring.numSlots
  txtail : ph.txring.tail < ph.txring.numSlots
  txhead : ph.txring.head = ph.txring.cur
  rxbufs : ∀ i j, i < ph.rxring.numSlots → j < ph.rxring.numSlots →
    (ph.rxring.slot i).bufIdx = (ph.rxring.slot j).bufIdx → i = j
  bufs : ∀ i j, i < ph.rxring.numSlots → j < ph.txring.numSlots →
    (ph.rxring.slot i).bufIdx ≠ (ph.txring.slot j).bufIdx

/-- The bytes of a buffer, and how many of them count. -/
abbrev Frame := Bytes × BitVec 16

def frameAt (ph : ProcessHandle) (i : Nat) : Frame := (ph.bufs (ph.rxring.slot i).bufIdx, (ph.rxring.slot i).len)

def sendAt (ph : ProcessHandle) (i : Nat) : Frame := (ph.bufs (ph.txring.slot i).bufIdx, (ph.txring.slot i).len)

/-- `is_bfd_packet` accepts the frame; what is too long for a buffer has no length. -/
def accepted (fr : Frame) : Bool := isBfdPacket fr.1 (if 2048 < fr.2 then 0 else fr.2).toNat == 0

def reply (fr : Frame) : Frame := (replyFrame fr.1, fr.2)

/-- The frames that one call goes through. -/
def batch (nm : Netmap) (ph : ProcessHandle) : List Frame :=
  (List.range (limitOf nm ph)).map fun j => frameAt ph ((ph.rxring.cur + j) % ph.rxring.numSlots)

/-- The slots that are released for transmission: those from the old `head` up to the new one. -/
def released (ph ph' : ProcessHandle) : List Frame :=
  (List.range ((ph'.txring.head + ph.txring.numSlots - ph.txring.head) % ph.txring.numSlots)).map fun j =>
    sendAt ph' ((ph.txring.head + j) % ph.txring.numSlots)

/-! ## One frame -/

/-- The shape of the rings stays. -/
structure SameShape (ph ph' : ProcessHandle) : Prop where
  rx : ph'.rxring.numSlots = ph.rxring.numSlots
  tx : ph'.txring.numSlots = ph.txring.numSlots

/-- What one frame does to the slots and the buffers. -/
structure Processed (ph ph' : ProcessHandle) (r t : Nat) : Prop where
  shape : SameShape ph ph'
  rx : ∀ i, i ≠ r → ph'.rxring.slot i = ph.rxring.slot i
  tx : ∀ i, i ≠ t → ph'.txring.slot i = ph.txring.slot i
  bufs : ∀ b, b ≠ (ph.rxring.slot r).bufIdx → ph'.bufs b = ph.bufs b
  sent : sendAt ph' t = if accepted (frameAt ph r) = true then reply (frameAt ph r) else sendAt ph t
  buf : (ph'.txring.slot t).bufIdx =
    if accepted (frameAt ph r) = true then (ph.rxring.slot r).bufIdx else (ph.txring.slot t).bufIdx

theorem processSlot_spec (ph : ProcessHandle) (r t : Nat) :
    Processed ph (processSlot (some recvPacket) r t ph) r t := by
  have hiff : accepted (frameAt ph r) = true ↔ isBfdPacket (ph.bufs (ph.rxring.slot r).bufIdx)
      (if 2048 < (ph.rxring.slot r).len then 0 else (ph.rxring.slot r).len).toNat = 0 := by
    simp only [accepted, frameAt, beq_iff_eq]
    exact Iff.rfl
  unfold processSlot
  dsimp only
  by_cases hok : isBfdPacket (ph.bufs (ph.rxring.slot r).bufIdx)
      (if 2048 < (ph.rxring.slot r).len then 0 else (ph.rxring.slot r).len).toNat = 0
  · rw [if_pos hok]
    refine ⟨⟨rfl, rfl⟩, fun i hi => ?_, fun i hi => ?_, fun b hb => ?_, ?_, ?_⟩
    · simp only [recvPacket, swapIndex, Function.update_of_ne hi]
    · simp only [recvPacket, swapIndex, Function.update_of_ne hi]
    · exact Function.update_of_ne hb _ _
    · rw [if_pos (hiff.mpr hok)]
      simp only [sendAt, recvPacket, swapIndex, Function.update_self, reply, frameAt]
    · rw [if_pos (hiff.mpr hok)]
      simp only [recvPacket, swapIndex, Function.update_self]
  · rw [if_neg hok]
    have hno : ¬ accepted (frameAt ph r) = true := fun h => hok (hiff.mp h)
    refine ⟨⟨rfl, rfl⟩, fun i hi => Function.update_of_ne hi _ _, fun _ _ => rfl, fun _ _ => rfl, ?_, ?_⟩
    · rw [if_neg hno]
      rfl
    · rw [if_neg hno]

/-! ## All frames -/

/-- Two rounds do not meet in a slot or a buffer. -/
structure Apart (ph : ProcessHandle) (p q : Nat × Nat) : Prop where
  rx : p.1 ≠ q.1
  tx : p.2 ≠ q.2
  bufs : (ph.rxring.slot p.1).bufIdx ≠ (ph.rxring.slot q.1).bufIdx
  before : (ph.rxring.slot q.1).bufIdx ≠ (ph.txring.slot p.2).bufIdx
  after : (ph.rxring.slot p.1).bufIdx ≠ (ph.txring.slot q.2).bufIdx

/-- What the rounds `vs` do, one after the other. -/
structure AllProcessed (ph ph' : ProcessHandle) (vs : List (Nat × Nat)) : Prop where
  shape : SameShape ph ph'
  sent : ∀ v ∈ vs, sendAt ph' v.2 =
    if accepted (frameAt ph v.1) = true then reply (frameAt ph v.1) else sendAt ph v.2
  tx : ∀ i, (∀ v ∈ vs, i ≠ v.2) → ph'.txring.slot i = ph.txring.slot i
  bufs : ∀ b, (∀ v ∈ vs, b ≠ (ph.rxring.slot v.1).bufIdx) → ph'.bufs b = ph.bufs b

theorem foldl_processSlot : ∀ (vs : List (Nat × Nat)) (ph : ProcessHandle), vs.Pairwise (Apart ph) →
    AllProcessed ph (vs.foldl (fun ph v => processSlot (some recvPacket) v.1 v.2 ph) ph) vs
  | [], ph, _ => ⟨⟨rfl, rfl⟩, fun v hv => (by cases hv), fun _ _ => rfl, fun _ _ => rfl⟩
  | p :: vs, ph, h => by
    obtain ⟨hp, hvs⟩ := List.pairwise_cons.mp h
    have h1 := processSlot_spec ph p.1 p.2
    generalize hph₁ : processSlot (some recvPacket) p.1 p.2 ph = ph₁ at h1
    have hrx : ∀ v ∈ vs, ph₁.rxring.slot v.1 = ph.rxring.slot v.1 := fun v hv => h1.rx v.1 (hp v hv).rx.symm
    have htx : ∀ v ∈ vs, ph₁.txring.slot v.2 = ph.txring.slot v.2 := fun v hv => h1.tx v.2 (hp v hv).tx.symm
    have hvs₁ : vs.Pairwise (Apart ph₁) := by
      refine hvs.imp_of_mem fun {a b} ha hb hab => ⟨hab.rx, hab.tx, ?_, ?_, ?_⟩
      · rw [hrx a ha, hrx b hb]
        exact hab.bufs
      · rw [hrx b hb, htx a ha]
        exact hab.before
      · rw [hrx a ha, htx b hb]
        exact hab.after
    obtain ⟨hshape, hsent, htx', hbufs⟩ := foldl_processSlot vs ph₁ hvs₁
    rw [List.foldl_cons, hph₁]
    generalize vs.foldl (fun ph v => processSlot (some recvPacket) v.1 v.2 ph) ph₁ = ph₂ at hshape hsent htx' hbufs ⊢
    -- the later frames are still there, and so are the slots that they are for
    have hframe : ∀ v ∈ vs, frameAt ph₁ v.1 = frameAt ph v.1 := by
      intro v hv
      simp only [frameAt, hrx v hv, h1.bufs _ (hp v hv).bufs.symm]
    have hstale : ∀ v ∈ vs, sendAt ph₁ v.2 = sendAt ph v.2 := by
      intro v hv
      simp only [sendAt, htx v hv, h1.bufs _ (hp v hv).after.symm]
    refine ⟨⟨hshape.rx.trans h1.shape.rx, hshape.tx.trans h1.shape.tx⟩, fun v hv => ?_, fun i hi => ?_, fun b hb => ?_⟩
    · rcases List.mem_cons.mp hv with rfl | hv
      · have hslot := htx' v.2 fun w hw => (hp w hw).tx
        have hbuf : ph₂.bufs (ph₁.txring.slot v.2).bufIdx = ph₁.bufs (ph₁.txring.slot v.2).bufIdx := by
          refine hbufs _ fun w hw => ?_
          rw [h1.buf, hrx w hw]
          split
          · exact (hp w hw).bufs
          · exact (hp w hw).before.symm
        rw [← h1.sent]
        simp only [sendAt, hslot, hbuf]
      · rw [hsent v hv, hframe v hv, hstale v hv]
    · rw [htx' i fun v hv => hi v (List.mem_cons_of_mem _ hv), h1.tx i (hi p (List.mem_cons_self ..))]
    · rw [hbufs b fun v hv => ?_, h1.bufs b (hb p (List.mem_cons_self ..))]
      rw [hrx v hv]
      exact hb v (List.mem_cons_of_mem _ hv)

/-! ## The loop -/

/-- The slots of the next `k` rounds. -/
def rounds (rxCur n txCur m k : Nat) : List (Nat × Nat) :=
  (List.range k).map fun j => ((rxCur + j) % n, (txCur + j) % m)

theorem next_eq {nm : Netmap} (hnm : nm.Documented) {r : NetmapRing} {i : Nat} (hi : i < r.numSlots) :
    nm.nmRingNext r i = (i + 1) % r.numSlots := by
  rw [hnm.next]
  split
  · rename_i h
    rw [h, Nat.mod_self]
  · exact (Nat.mod_eq_of_lt (by omega)).symm

theorem processSlots_eq {nm : Netmap} (hnm : nm.Documented) : ∀ (k rxCur txCur : Nat) (ph : ProcessHandle),
    rxCur < ph.rxring.numSlots → txCur < ph.txring.numSlots →
    processSlots nm (some recvPacket) k rxCur txCur ph =
      ((rxCur + k) % ph.rxring.numSlots, (txCur + k) % ph.txring.numSlots,
        (rounds rxCur ph.rxring.numSlots txCur ph.txring.numSlots k).foldl
          (fun ph v => processSlot (some recvPacket) v.1 v.2 ph) ph)
  | 0, rxCur, txCur, ph, hrx, htx => by
    rw [processSlots, Nat.add_zero, Nat.add_zero, Nat.mod_eq_of_lt hrx, Nat.mod_eq_of_lt htx]
    rfl
  | k + 1, rxCur, txCur, ph, hrx, htx => by
    obtain ⟨⟨hn, hm⟩, -⟩ := processSlot_spec ph rxCur txCur
    have hrounds : rounds rxCur ph.rxring.numSlots txCur ph.txring.numSlots (k + 1) = (rxCur, txCur) ::
        rounds ((rxCur + 1) % ph.rxring.numSlots) ph.rxring.numSlots ((txCur + 1) % ph.txring.numSlots)
          ph.txring.numSlots k := by
      simp only [rounds, List.range_succ_eq_map, List.map_cons, List.map_map, Nat.add_zero, Nat.mod_eq_of_lt hrx,
        Nat.mod_eq_of_lt htx, Function.comp_def, Nat.mod_add_mod]
      simp only [Nat.succ_eq_add_one, Nat.add_assoc, Nat.add_comm 1]
    rw [processSlots, hrounds, List.foldl_cons]
    dsimp only
    rw [next_eq hnm (by rw [hn]; exact hrx), next_eq hnm (by rw [hm]; exact htx), hn, hm,
      processSlots_eq hnm k _ _ _ (by rw [hn]; exact Nat.mod_lt _ (by omega))
        (by rw [hm]; exact Nat.mod_lt _ (by omega)), hn, hm, Nat.mod_add_mod, Nat.mod_add_mod, Nat.add_assoc,
      Nat.add_assoc, Nat.add_comm 1]

/-- Different slots of a round trip that is shorter than the ring. -/
theorem add_mod_ne {c n i j : Nat} (hij : i < j) (hj : j < n) : (c + i) % n ≠ (c + j) % n := by
  intro h
  have hmod : i ≡ j [MOD n] := Nat.ModEq.add_left_cancel' c h
  have := hmod.eq_of_lt_of_lt (by omega) hj
  omega

section Run

variable {nm : Netmap} {ph : ProcessHandle}

theorem limitOf_lt (hnm : nm.Documented) (h : Ready ph) :
    limitOf nm ph < ph.rxring.numSlots ∧ limitOf nm ph < ph.txring.numSlots := by
  have hrx := Nat.mod_lt (ph.rxring.tail + ph.rxring.numSlots - ph.rxring.cur) (Nat.zero_lt_of_lt h.rxcur)
  have htx := Nat.mod_lt (ph.txring.tail + ph.txring.numSlots - ph.txring.cur) (Nat.zero_lt_of_lt h.txcur)
  unfold limitOf
  rw [hnm.space _ h.rxcur h.rxtail, hnm.space _ h.txcur h.txtail]
  omega

theorem rounds_apart (h : Ready ph) {k : Nat} (hn : k < ph.rxring.numSlots) (hm : k < ph.txring.numSlots) :
    (rounds ph.rxring.cur ph.rxring.numSlots ph.txring.cur ph.txring.numSlots k).Pairwise (Apart ph) := by
  unfold rounds
  rw [List.pairwise_map]
  refine List.pairwise_lt_range.imp_of_mem fun {i j} hi hj hij => ?_
  rw [List.mem_range] at hi hj
  have hrx : (ph.rxring.cur + i) % ph.rxring.numSlots ≠ (ph.rxring.cur + j) % ph.rxring.numSlots :=
    add_mod_ne hij (by omega)
  have hlt : ∀ a n : Nat, k < n → a % n < n := fun a n hkn => Nat.mod_lt _ (by omega)
  refine ⟨hrx, add_mod_ne hij (by omega), fun he => hrx (h.rxbufs _ _ (hlt _ _ hn) (hlt _ _ hn) he), ?_, ?_⟩
  · exact h.bufs _ _ (hlt _ _ hn) (hlt _ _ hm)
  · exact h.bufs _ _ (hlt _ _ hn) (hlt _ _ hm)

/-- Clearing the flags changes nothing that is read. -/
theorem processRings_eq (nm : Netmap) (ph : ProcessHandle) (eventFunc : Option (ProcessHandle → ProcessHandle)) :
    ∃ ph₀ : ProcessHandle, ph₀.rxring.slot = ph.rxring.slot ∧ ph₀.txring.slot = ph.txring.slot ∧ ph₀.bufs = ph.bufs ∧
      ph₀.rxring.numSlots = ph.rxring.numSlots ∧ ph₀.txring.numSlots = ph.txring.numSlots ∧
      ph₀.rxring.cur = ph.rxring.cur ∧ ph₀.txring.cur = ph.txring.cur ∧ ph₀.txring.head = ph.txring.head ∧
      ph₀.rxring.tail = ph.rxring.tail ∧ ph₀.txring.tail = ph.txring.tail ∧
      processRings nm eventFunc ph =
        let r := processSlots nm eventFunc (limitOf nm ph₀) ph₀.rxring.cur ph₀.txring.cur ph₀
        (limitOf nm ph₀, { r.2.2 with
          rxring := { r.2.2.rxring with head := r.1, cur := r.1 }
          txring := { r.2.2.txring with head := r.2.1, cur := r.2.1 } }) := by
  unfold processRings
  split
  · exact ⟨{ ph with rxring := { ph.rxring with flags := 0 }, txring := { ph.txring with flags := 0 } }, rfl, rfl, rfl,
      rfl, rfl, rfl, rfl, rfl, rfl, rfl, rfl⟩
  · exact ⟨ph, rfl, rfl, rfl, rfl, rfl, rfl, rfl, rfl, rfl, rfl, rfl⟩

/-- One slot is released for each frame: with the reply, or with what it held before. -/
theorem processRings_sendAt (hnm : nm.Documented) (h : Ready ph) :
    released ph (processRings nm (some recvPacket) ph).2 = (List.range (limitOf nm ph)).map fun j =>
      let fr := frameAt ph ((ph.rxring.cur + j) % ph.rxring.numSlots)
      if accepted fr = true then reply fr else sendAt ph ((ph.txring.cur + j) % ph.txring.numSlots) := by
  obtain ⟨ph₀, hrs, hts, hbufs, hrn, htn, hrc, htc, hth, hrt, htt, hrun⟩ := processRings_eq nm ph (some recvPacket)
  have h₀ : Ready ph₀ := by
    obtain ⟨h1, h2, h3, h4, h5, h6, h7⟩ := h
    exact ⟨by rwa [hrc, hrn], by rwa [hrt, hrn], by rwa [htc, htn], by rwa [htt, htn], by rwa [hth, htc],
      by rwa [hrn, hrs], by rwa [hrn, htn, hrs, hts]⟩
  have hlimit : limitOf nm ph₀ = limitOf nm ph := by
    unfold limitOf
    rw [hnm.space _ h.rxcur h.rxtail, hnm.space _ h.txcur h.txtail, hnm.space _ h₀.rxcur h₀.rxtail,
      hnm.space _ h₀.txcur h₀.txtail, hrn, htn, hrc, htc, hrt, htt]
  obtain ⟨hn, hm⟩ := limitOf_lt hnm h
  obtain ⟨hn₀, hm₀⟩ := limitOf_lt hnm h₀
  have hall := foldl_processSlot _ ph₀ (rounds_apart h₀ hn₀ hm₀)
  have hhead : ((ph.txring.cur + limitOf nm ph) % ph.txring.numSlots + ph.txring.numSlots - ph.txring.cur) %
      ph.txring.numSlots = limitOf nm ph := by
    have hcur := h.txcur
    generalize ph.txring.numSlots = n at *
    generalize ph.txring.cur = c at *
    generalize limitOf nm ph = k at *
    rcases Nat.lt_or_ge (c + k) n with hlt | hge
    · rw [Nat.mod_eq_of_lt hlt, show c + k + n - c = k + n by omega, Nat.add_mod_right, Nat.mod_eq_of_lt hm]
    · have hwrap : (c + k) % n = c + k - n := by rw [Nat.mod_eq_sub_mod hge, Nat.mod_eq_of_lt (by omega)]
      rw [hwrap, show c + k - n + n - c = k by omega, Nat.mod_eq_of_lt hm]
  rw [hrun, processSlots_eq hnm _ _ _ _ h₀.rxcur h₀.txcur]
  dsimp only
  unfold released
  dsimp only
  rw [htn, htc, hlimit, h.txhead, hhead]
  refine List.map_congr_left fun j hj => ?_
  have hv : ((ph₀.rxring.cur + j) % ph₀.rxring.numSlots, (ph₀.txring.cur + j) % ph₀.txring.numSlots) ∈
      rounds ph₀.rxring.cur ph₀.rxring.numSlots ph₀.txring.cur ph₀.txring.numSlots (limitOf nm ph₀) := by
    rw [hlimit]
    exact List.mem_map.mpr ⟨j, hj, rfl⟩
  have hsent := hall.sent _ hv
  simp only [hrc, hrn, htc, htn, hlimit] at hsent
  have hframe : ∀ i, frameAt ph₀ i = frameAt ph i := fun i => by rw [frameAt, frameAt, hrs, hbufs]
  have hstale : ∀ i, sendAt ph₀ i = sendAt ph i := fun i => by rw [sendAt, sendAt, hts, hbufs]
  rw [hframe, hstale] at hsent
  rw [← hsent, hrc, hrn]
  rfl

/-- What is released are the replies to the accepted frames, in order, exactly if every frame was accepted. -/
theorem released_iff (hnm : nm.Documented) (h : Ready ph) :
    released ph (processRings nm (some recvPacket) ph).2 = ((batch nm ph).filter accepted).map reply ↔
      ∀ fr ∈ batch nm ph, accepted fr = true := by
  rw [processRings_sendAt hnm h]
  constructor
  · intro heq
    have hlen := congrArg List.length heq
    rw [List.length_map, List.length_map, List.length_range] at hlen
    have hfull : ((batch nm ph).filter accepted).length = (batch nm ph).length := by
      rw [← hlen, batch, List.length_map, List.length_range]
    exact fun fr hfr => List.length_filter_eq_length_iff.mp hfull fr hfr
  · intro hall
    rw [List.filter_eq_self.mpr hall, batch, List.map_map]
    refine List.map_congr_left fun j hj => ?_
    dsimp only
    rw [if_pos (hall _ (List.mem_map.mpr ⟨j, hj, rfl⟩))]
    rfl

end Run

/-! ## One frame on rings of four slots -/

/-- The functions as netmap has them. -/
def netmapUser : Netmap where
  nmRingNext r i := if i + 1 = r.numSlots then 0 else i + 1
  nmRingSpace r := (r.tail + r.numSlots - r.cur) % r.numSlots

theorem netmapUser_documented : netmapUser.Documented := ⟨fun _ _ => rfl, fun _ _ _ => rfl⟩

/-- `frame` has come in, and four slots are free to send. -/
def oneFrame (frame : List Byte) : ProcessHandle where
  rxring := ⟨4, 0, 0, 1, 0, fun i => ⟨2 + i, BitVec.ofNat 16 frame.length, 0⟩⟩
  txring := ⟨4, 2, 2, 1, 0, fun i => ⟨6 + i, 0, 0⟩⟩
  bufs b := if b = 2 then fun i => frame.getD i 0 else fun _ => 0
  rs := 0
  ts := 0
  res := 0
  reslen := 0
  req := 0
  reqlen := 0

theorem oneFrame_ready (frame : List Byte) : Ready (oneFrame frame) := by
  have hlt : 0 < 4 ∧ 1 < 4 ∧ 2 < 4 := by decide
  refine ⟨hlt.1, hlt.2.1, hlt.2.2, hlt.2.1, rfl, fun i j _ _ he => ?_, fun i j hi _ he => ?_⟩
  · simp only [oneFrame] at he
    omega
  · simp only [oneFrame] at hi he
    omega

/-- A control packet in state Down. -/
def bfdFrame : List Byte :=
  [1, 1, 1, 1, 1, 1, 2, 2, 2, 2, 2, 2, 0x08, 0x00,
    0x45, 0, 0, 52, 0, 0, 0, 0, 0xff, 17, 0, 0, 10, 0, 0, 1, 10, 0, 0, 2,
    0xc0, 0x00, 0x0e, 0xc8, 0, 32, 0, 0,
    0x20, 0x40, 3, 24, 0, 0, 0, 1, 0, 0, 0, 0, 0, 0, 0, 0, 0, 0, 0, 0, 0, 0, 0, 0]

theorem released_bfdFrame : (batch netmapUser (oneFrame bfdFrame)).length = 1 ∧
    released (oneFrame bfdFrame) (processRings netmapUser (some recvPacket) (oneFrame bfdFrame)).2 =
      ((batch netmapUser (oneFrame bfdFrame)).filter accepted).map reply := by
  refine ⟨by decide, (released_iff netmapUser_documented (oneFrame_ready bfdFrame)).mpr fun fr hfr => ?_⟩
  have hbatch : batch netmapUser (oneFrame bfdFrame) = [frameAt (oneFrame bfdFrame) 0] := rfl
  rw [hbatch, List.mem_singleton] at hfr
  subst hfr
  decide +kernel

/-- An ARP request releases a slot, with whatever the slot held. -/
theorem released_arp : ∃ frame : List Byte, frame = [1, 1, 1, 1, 1, 1, 2, 2, 2, 2, 2, 2, 0x08, 0x06] ∧
    (batch netmapUser (oneFrame frame)).filter accepted = [] ∧
    (released (oneFrame frame) (processRings netmapUser (some recvPacket) (oneFrame frame)).2).length = 1 ∧
    released (oneFrame frame) (processRings netmapUser (some recvPacket) (oneFrame frame)).2 ≠
      ((batch netmapUser (oneFrame frame)).filter accepted).map reply := by
  refine ⟨_, rfl, ?_⟩
  generalize hframe : ([1, 1, 1, 1, 1, 1, 2, 2, 2, 2, 2, 2, 0x08, 0x06] : List Byte) = frame
  have hnone : (batch netmapUser (oneFrame frame)).filter accepted = [] := by
    rw [List.filter_eq_nil_iff, ← hframe]
    decide +kernel
  have hone :
      (released (oneFrame frame) (processRings netmapUser (some recvPacket) (oneFrame frame)).2).length = 1 := by
    rw [processRings_sendAt netmapUser_documented (oneFrame_ready frame), List.length_map, List.length_range]
    simp [limitOf, netmapUser, oneFrame]
  refine ⟨hnone, hone, fun heq => ?_⟩
  rw [heq, hnone] at hone
  cases hone

end NetworkBfd.BfddNetmap
