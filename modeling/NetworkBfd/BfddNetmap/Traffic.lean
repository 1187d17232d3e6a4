import NetworkBfd.Lib.Relay
import NetworkBfd.BfddNetmap.Move

/-!
# The reflector under traffic

Between the calls of `process_rings` the interface puts frames into the RX ring, sends those of the TX ring and hands
sent slots back, in any order (`Traffic.Step`). The reflector is a relay then: for each frame that came in one goes out,
in the same order (`Traffic.Step.relays`). It is the reply, if the frame was accepted, and otherwise once more what went
out one round of the TX ring before (`traffic_exact`). What has come in can always be worked off (`traffic_drains`).
-/

namespace NetworkBfd.BfddNetmap

open Lib Lib.Bytes Smmr Bfdd

/-! ## The interface -/

/-- The rings, the TX slot that the interface sends next, and all frames that came in and went out. -/
structure Traffic where
  ph : ProcessHandle
  hwcur : ℕ
  received : List Frame
  sent : List Frame

/-- A frame goes to the buffer of the RX slot at `tail`. -/
def putFrame (ph : ProcessHandle) (fr : Frame) : ProcessHandle :=
  let rs := ph.rxring.slot ph.rxring.tail
  { ph with
    rxring := { ph.rxring with
      tail := (ph.rxring.tail + 1) % ph.rxring.numSlots
      slot := Function.update ph.rxring.slot ph.rxring.tail { rs with len := fr.2 } }
    bufs := Function.update ph.bufs rs.bufIdx fr.1 }

/-- A TX slot is handed back. -/
def reclaimSlot (ph : ProcessHandle) : ProcessHandle :=
  { ph with txring := { ph.txring with tail := (ph.txring.tail + 1) % ph.txring.numSlots } }

/-- A step of the interface, or a call of the program. One slot of a ring is always kept back. -/
inductive Traffic.Step (nm : Netmap) : Traffic → Traffic → Prop
  | receive (t : Traffic) (fr : Frame) (h : (t.ph.rxring.tail + 1) % t.ph.rxring.numSlots ≠ t.ph.rxring.head) :
    Step nm t { t with ph := putFrame t.ph fr, received := t.received ++ [fr] }
  | process (t : Traffic) : Step nm t { t with ph := (processRings nm (some recvPacket) t.ph).2 }
  | transmit (t : Traffic) (h : t.hwcur ≠ t.ph.txring.head) :
    Step nm t { t with hwcur := (t.hwcur + 1) % t.ph.txring.numSlots, sent := t.sent ++ [sendAt t.ph t.hwcur] }
  | reclaim (t : Traffic) (h : (t.ph.txring.tail + 1) % t.ph.txring.numSlots ≠ t.hwcur) :
    Step nm t { t with ph := reclaimSlot t.ph }

/-! ## Buffers -/

/-- Every slot of the two rings has a buffer of its own. -/
structure Owned (ph : ProcessHandle) : Prop where
  rx : ∀ i j, i < ph.rxring.numSlots → j < ph.rxring.numSlots →
    (ph.rxring.slot i).bufIdx = (ph.rxring.slot j).bufIdx → i = j
  tx : ∀ i j, i < ph.txring.numSlots → j < ph.txring.numSlots →
    (ph.txring.slot i).bufIdx = (ph.txring.slot j).bufIdx → i = j
  apart : ∀ i j, i < ph.rxring.numSlots → j < ph.txring.numSlots →
    (ph.rxring.slot i).bufIdx ≠ (ph.txring.slot j).bufIdx

/-- The reply to a frame that is accepted. -/
def answer (fr : Frame) : Option Frame := if accepted fr = true then some (reply fr) else none

/-- What the TX slots hold. -/
def contents (ph : ProcessHandle) (i : ℕ) : Frame := if i < ph.txring.numSlots then sendAt ph i else (fun _ => 0, 0)

/-- The rings as the queues of a relay: `w` frames wait from RX slot `r` on, the next output goes to TX slot `t`, and
`k` outputs lie from slot `hw` on. -/
def relayAt (ph : ProcessHandle) (r w t hw k : ℕ) (received sent : List Frame) :
    Relay ((ℕ → Frame) × ℕ) Frame Frame where
  waiting := window (frameAt ph) ph.rxring.numSlots r w
  state := (contents ph, t)
  pending := window (sendAt ph) ph.txring.numSlots hw k
  received := received
  sent := sent

/-- Two handles with the same slots and buffers. -/
structure SameSlots (ph ph' : ProcessHandle) : Prop extends SameShape ph ph' where
  rxslot : ph'.rxring.slot = ph.rxring.slot
  txslot : ph'.txring.slot = ph.txring.slot
  bufs : ph'.bufs = ph.bufs

section Slot

variable {ph ph' : ProcessHandle} {r w t hw k : ℕ} {received sent : List Frame}

theorem SameSlots.relayAt_eq (h : SameSlots ph ph') :
    relayAt ph' r w t hw k received sent = relayAt ph r w t hw k received sent := by
  have hframe : frameAt ph' = frameAt ph := funext fun i => by rw [frameAt, frameAt, h.rxslot, h.bufs]
  have hsend : sendAt ph' = sendAt ph := funext fun i => by rw [sendAt, sendAt, h.txslot, h.bufs]
  have hcontents : contents ph' = contents ph := funext fun i => by rw [contents, contents, h.tx, hsend]
  rw [relayAt, relayAt, hframe, hsend, hcontents, h.rx, h.tx]

theorem SameSlots.owned (h : SameSlots ph ph') (ho : Owned ph) : Owned ph' := by
  obtain ⟨h1, h2, h3⟩ := ho
  refine ⟨?_, ?_, ?_⟩
  · rwa [h.rx, h.rxslot]
  · rwa [h.tx, h.txslot]
  · rwa [h.rx, h.tx, h.rxslot, h.txslot]

/-- Where the buffers are after a frame. -/
theorem processSlot_bufIdx (ph : ProcessHandle) (r t : ℕ) :
    ((processSlot (some recvPacket) r t ph).rxring.slot r).bufIdx =
      if accepted (frameAt ph r) = true then (ph.txring.slot t).bufIdx else (ph.rxring.slot r).bufIdx := by
  have hiff : accepted (frameAt ph r) = true ↔ isBfdPacket (ph.bufs (ph.rxring.slot r).bufIdx)
      (if 2048 < (ph.rxring.slot r).len then 0 else (ph.rxring.slot r).len).toNat = 0 := by
    simp only [accepted, frameAt, beq_iff_eq]
    exact Iff.rfl
  unfold processSlot
  dsimp only
  by_cases hok : isBfdPacket (ph.bufs (ph.rxring.slot r).bufIdx)
      (if 2048 < (ph.rxring.slot r).len then 0 else (ph.rxring.slot r).len).toNat = 0
  · rw [if_pos hok, if_pos (hiff.mpr hok)]
    simp only [recvPacket, swapIndex, Function.update_self]
  · rw [if_neg hok, if_neg fun h => hok (hiff.mp h)]
    simp only [Function.update_self]

/-- A frame may change the owners of two buffers. -/
theorem Owned.processSlot (h : Owned ph) (hr : r < ph.rxring.numSlots) (ht : t < ph.txring.numSlots) :
    Owned (processSlot (some recvPacket) r t ph) := by
  obtain ⟨⟨hn, hm⟩, hrx, htx, -, -, hbuf⟩ := processSlot_spec ph r t
  have hbuf' := processSlot_bufIdx ph r t
  generalize BfddNetmap.processSlot (some recvPacket) r t ph = ph' at *
  by_cases hok : accepted (frameAt ph r) = true
  · rw [if_pos hok] at hbuf hbuf'
    refine ⟨fun i j hi hj he => ?_, fun i j hi hj he => ?_, fun i j hi hj he => ?_⟩
    · rw [hn] at hi hj
      by_cases hir : i = r
      · by_cases hjr : j = r
        · rw [hir, hjr]
        · subst hir
          rw [hbuf', hrx j hjr] at he
          exact absurd he.symm (h.apart j t hj ht)
      · by_cases hjr : j = r
        · subst hjr
          rw [hbuf', hrx i hir] at he
          exact absurd he (h.apart i t hi ht)
        · rw [hrx i hir, hrx j hjr] at he
          exact h.rx i j hi hj he
    · rw [hm] at hi hj
      by_cases hit : i = t
      · by_cases hjt : j = t
        · rw [hit, hjt]
        · subst hit
          rw [hbuf, htx j hjt] at he
          exact absurd he (h.apart r j hr hj)
      · by_cases hjt : j = t
        · subst hjt
          rw [hbuf, htx i hit] at he
          exact absurd he.symm (h.apart r i hr hi)
        · rw [htx i hit, htx j hjt] at he
          exact h.tx i j hi hj he
    · rw [hn] at hi
      rw [hm] at hj
      by_cases hir : i = r
      · subst hir
        by_cases hjt : j = t
        · subst hjt
          rw [hbuf, hbuf'] at he
          exact h.apart i j hi hj he.symm
        · rw [hbuf', htx j hjt] at he
          exact hjt (h.tx t j ht hj he).symm
      · by_cases hjt : j = t
        · subst hjt
          rw [hbuf, hrx i hir] at he
          exact hir (h.rx i r hi hr he)
        · rw [hrx i hir, htx j hjt] at he
          exact h.apart i j hi hj he
  · rw [if_neg hok] at hbuf hbuf'
    have hrx' : ∀ i, (ph'.rxring.slot i).bufIdx = (ph.rxring.slot i).bufIdx := fun i => by
      by_cases hir : i = r
      · rw [hir, hbuf']
      · rw [hrx i hir]
    have htx' : ∀ i, (ph'.txring.slot i).bufIdx = (ph.txring.slot i).bufIdx := fun i => by
      by_cases hit : i = t
      · rw [hit, hbuf]
      · rw [htx i hit]
    refine ⟨fun i j => ?_, fun i j => ?_, fun i j => ?_⟩
    · rw [hrx', hrx', hn]
      exact h.rx i j
    · rw [htx', htx', hm]
      exact h.tx i j
    · rw [hrx', htx', hn, hm]
      exact h.apart i j

/-- A frame is work for the relay. -/
theorem processSlot_work (h : Owned ph) (hr : r < ph.rxring.numSlots) (ht : t < ph.txring.numSlots)
    (hpos : (hw + k) % ph.txring.numSlots = t) (hk : k < ph.txring.numSlots) (hwait : w < ph.rxring.numSlots) :
    Relay.Step (repeatStep ph.txring.numSlots answer) (relayAt ph r (w + 1) t hw k received sent)
      (relayAt (processSlot (some recvPacket) r t ph) ((r + 1) % ph.rxring.numSlots) w ((t + 1) % ph.txring.numSlots) hw
        (k + 1) received sent) := by
  obtain ⟨⟨hn, hm⟩, hrx, htx, hbufs, hsent, -⟩ := processSlot_spec ph r t
  generalize processSlot (some recvPacket) r t ph = ph' at *
  have hframe : ∀ i, i < ph.rxring.numSlots → i ≠ r → frameAt ph' i = frameAt ph i := fun i hi hir => by
    simp only [frameAt, hrx i hir, hbufs _ fun he => hir (h.rx i r hi hr he)]
  have hsend : ∀ i, i < ph.txring.numSlots → i ≠ t → sendAt ph' i = sendAt ph i := fun i hi hit => by
    simp only [sendAt, htx i hit, hbufs _ fun he => h.apart r i hr hi he.symm]
  have hwaiting : window (frameAt ph) ph.rxring.numSlots r (w + 1) =
      frameAt ph r :: window (frameAt ph') ph.rxring.numSlots ((r + 1) % ph.rxring.numSlots) w := by
    rw [window_cons hr]
    refine congrArg (frameAt ph r :: ·) (window_congr fun i hi => (hframe _ (Nat.mod_lt _ (by omega)) ?_).symm)
    have hne : (r + 0) % ph.rxring.numSlots ≠ (r + (1 + i)) % ph.rxring.numSlots :=
      add_mod_ne_of_lt (by omega) (by omega)
    rw [Nat.add_zero, Nat.mod_eq_of_lt hr] at hne
    rw [Nat.mod_add_mod, Nat.add_assoc]
    exact hne.symm
  have hout : (answer (frameAt ph r)).getD (contents ph t) = sendAt ph' t := by
    rw [hsent, answer, contents, if_pos ht]
    by_cases hok : accepted (frameAt ph r) = true
    · rw [if_pos hok, if_pos hok, Option.getD_some]
    · rw [if_neg hok, if_neg hok, Option.getD_none]
  have hcontents : contents ph' = Function.update (contents ph) t (sendAt ph' t) := by
    funext i
    by_cases hit : i = t
    · rw [hit, Function.update_self, contents, hm, if_pos ht]
    · rw [Function.update_of_ne hit, contents, contents, hm]
      by_cases hi : i < ph.txring.numSlots
      · rw [if_pos hi, if_pos hi, hsend i hi hit]
      · rw [if_neg hi, if_neg hi]
  have hpending : window (sendAt ph') ph.txring.numSlots hw (k + 1) =
      window (sendAt ph) ph.txring.numSlots hw k ++ [sendAt ph' t] := by
    rw [window_snoc, hpos]
    refine congrArg (· ++ [sendAt ph' t]) (window_congr fun i hi => hsend _ (Nat.mod_lt _ (by omega)) ?_)
    rw [← hpos]
    exact add_mod_ne_of_lt hi (by omega)
  have hstep := @Relay.Step.work _ _ _ (repeatStep ph.txring.numSlots answer)
    (relayAt ph r (w + 1) t hw k received sent)
    _ _ hwaiting
  convert hstep using 1
  simp only [relayAt, repeatStep, hn, hm, hout, hcontents, hpending]

end Slot

/-! ## A call -/

/-- The loop works off so many frames. -/
theorem processSlots_work {nm : Netmap} (hnm : nm.Documented) {w hw : ℕ} {received sent : List Frame} :
    ∀ (l : ℕ) {ph : ProcessHandle} {r t k : ℕ}, Owned ph → r < ph.rxring.numSlots → t < ph.txring.numSlots →
    (hw + k) % ph.txring.numSlots = t → k + l < ph.txring.numSlots + 1 → w + l < ph.rxring.numSlots + 1 →
    hw < ph.txring.numSlots →
    ∃ ph', processSlots nm (some recvPacket) l r t ph =
    ((r + l) % ph.rxring.numSlots, (t + l) % ph.txring.numSlots, ph') ∧
      Owned ph' ∧ SameShape ph ph' ∧
      Relation.ReflTransGen (Relay.Step (repeatStep ph.txring.numSlots answer))
        (relayAt ph r (w + l) t hw k received sent)
        (relayAt ph' ((r + l) % ph.rxring.numSlots) w ((t + l) % ph.txring.numSlots) hw (k + l) received sent)
  | 0, ph, r, t, k, h, hr, ht, _, _, _, _ => by
    refine ⟨ph, ?_, h, ⟨rfl, rfl⟩, ?_⟩
    · rw [processSlots, Nat.add_zero, Nat.add_zero, Nat.mod_eq_of_lt hr, Nat.mod_eq_of_lt ht]
    · rw [Nat.add_zero, Nat.add_zero, Nat.add_zero, Nat.add_zero, Nat.mod_eq_of_lt hr, Nat.mod_eq_of_lt ht]
  | l + 1, ph, r, t, k, h, hr, ht, hpos, hk, hwl, hhw => by
    obtain ⟨⟨hn, hm⟩, -⟩ := processSlot_spec ph r t
    have hstep := @processSlot_work ph r (w + l) t hw k received sent h hr ht hpos (by omega) (by omega)
    have hr' : (r + 1) % ph.rxring.numSlots < ph.rxring.numSlots := Nat.mod_lt _ (by omega)
    have ht' : (t + 1) % ph.txring.numSlots < ph.txring.numSlots := Nat.mod_lt _ (by omega)
    obtain ⟨ph', hrun, howned, hshape, hsteps⟩ := @processSlots_work nm hnm w hw received sent l
      (processSlot (some recvPacket) r t ph) ((r + 1) % ph.rxring.numSlots) ((t + 1) % ph.txring.numSlots) (k + 1)
      (h.processSlot hr ht) (by rwa [hn]) (by rwa [hm])
      (by rw [hm, ← Nat.add_assoc, ← hpos, Nat.mod_add_mod]) (by rw [hm]; omega) (by rw [hn]; omega) (by rwa [hm])
    rw [hn, hm, Nat.mod_add_mod, Nat.mod_add_mod, Nat.add_assoc, Nat.add_assoc, Nat.add_comm 1] at hrun
    rw [hn, hm, Nat.mod_add_mod, Nat.mod_add_mod, Nat.add_assoc, Nat.add_assoc, Nat.add_assoc, Nat.add_comm 1] at hsteps
    refine ⟨ph', ?_, howned, ⟨hshape.rx.trans hn, hshape.tx.trans hm⟩, .head ?_ hsteps⟩
    · rw [processSlots, next_eq hnm (by rw [hn]; exact hr), next_eq hnm (by rw [hm]; exact ht), hn, hm]
      exact hrun
    · rw [← Nat.add_assoc]
      exact hstep

/-! ## Runs -/

namespace Traffic

/-- The cursors lie in the rings, one behind the other, and every slot has a buffer of its own. -/
structure Inv (t : Traffic) : Prop where
  rx : t.ph.rxring.InRange
  tx : t.ph.txring.InRange
  rxhead : t.ph.rxring.head = t.ph.rxring.cur
  txhead : t.ph.txring.head = t.ph.txring.cur
  hwcur : t.hwcur < t.ph.txring.numSlots
  room : distance t.ph.txring.numSlots t.hwcur t.ph.txring.cur +
    distance t.ph.txring.numSlots t.ph.txring.cur t.ph.txring.tail < t.ph.txring.numSlots
  owned : Owned t.ph

/-- Nothing has come in yet, and nothing waits to be sent. -/
structure Idle (t : Traffic) : Prop extends Inv t where
  waiting : t.ph.rxring.tail = t.ph.rxring.cur
  pending : t.hwcur = t.ph.txring.cur
  received : t.received = []
  sent : t.sent = []

/-- The rings as queues. -/
def relay (t : Traffic) : Relay ((ℕ → Frame) × ℕ) Frame Frame :=
  relayAt t.ph t.ph.rxring.cur (distance t.ph.rxring.numSlots t.ph.rxring.cur t.ph.rxring.tail) t.ph.txring.cur t.hwcur
    (distance t.ph.txring.numSlots t.hwcur t.ph.txring.cur) t.received t.sent

variable {nm : Netmap} {t t' t₀ : Traffic}

theorem Inv.receive (h : Inv t) (fr : Frame)
    (hroom : (t.ph.rxring.tail + 1) % t.ph.rxring.numSlots ≠ t.ph.rxring.head) :
    Inv { t with ph := putFrame t.ph fr, received := t.received ++ [fr] } ∧
      Relay.Step (repeatStep t.ph.txring.numSlots answer) t.relay
        (relay { t with ph := putFrame t.ph fr, received := t.received ++ [fr] }) := by
  rw [h.rxhead] at hroom
  have hlt := distance_room h.rx.cur h.rx.tail hroom
  have hnext := distance_snoc h.rx.cur h.rx.tail hlt
  have htail := add_distance h.rx.cur h.rx.tail
  have hbuf : ∀ i, ((putFrame t.ph fr).rxring.slot i).bufIdx = (t.ph.rxring.slot i).bufIdx := fun i => by
    simp only [putFrame]
    by_cases hi : i = t.ph.rxring.tail
    · rw [hi, Function.update_self]
    · rw [Function.update_of_ne hi]
  have hsend : ∀ i, i < t.ph.txring.numSlots → sendAt (putFrame t.ph fr) i = sendAt t.ph i := fun i hi => by
    simp only [sendAt, putFrame, Function.update_of_ne (h.owned.apart _ i h.rx.tail hi).symm]
  have hframe : ∀ i, i < t.ph.rxring.numSlots → i ≠ t.ph.rxring.tail →
      frameAt (putFrame t.ph fr) i = frameAt t.ph i := fun i hi hne => by
    simp only [frameAt, putFrame, Function.update_of_ne hne,
      Function.update_of_ne fun he => hne (h.owned.rx i _ hi h.rx.tail he)]
  have hnew : frameAt (putFrame t.ph fr) t.ph.rxring.tail = fr := by
    simp only [frameAt, putFrame, Function.update_self]
  refine ⟨⟨⟨h.rx.cur, Nat.mod_lt _ (Nat.zero_lt_of_lt h.rx.tail)⟩, h.tx, h.rxhead, h.txhead, h.hwcur, h.room,
    ⟨fun i j hi hj he => ?_, h.owned.tx, fun i j hi hj => ?_⟩⟩, ?_⟩
  · rw [hbuf, hbuf] at he
    exact h.owned.rx i j hi hj he
  · rw [hbuf]
    exact h.owned.apart i j hi hj
  · have hwaiting : window (frameAt (putFrame t.ph fr)) t.ph.rxring.numSlots t.ph.rxring.cur
        (distance t.ph.rxring.numSlots t.ph.rxring.cur ((t.ph.rxring.tail + 1) % t.ph.rxring.numSlots)) =
        window (frameAt t.ph) t.ph.rxring.numSlots t.ph.rxring.cur
          (distance t.ph.rxring.numSlots t.ph.rxring.cur t.ph.rxring.tail) ++ [fr] := by
      rw [hnext, window_snoc, htail, hnew]
      refine congrArg (· ++ [fr]) (window_congr fun i hi => hframe _ (Nat.mod_lt _ (by omega)) ?_)
      rw [← htail]
      exact add_mod_ne_of_lt hi (by omega)
    have hpending : window (sendAt (putFrame t.ph fr)) t.ph.txring.numSlots t.hwcur
        (distance t.ph.txring.numSlots t.hwcur t.ph.txring.cur) = window (sendAt t.ph) t.ph.txring.numSlots t.hwcur
          (distance t.ph.txring.numSlots t.hwcur t.ph.txring.cur) :=
      window_congr fun i _ => hsend _ (Nat.mod_lt _ (Nat.zero_lt_of_lt h.hwcur))
    have hcontents : contents (putFrame t.ph fr) = contents t.ph := by
      funext i
      simp only [contents]
      by_cases hi : i < t.ph.txring.numSlots
      · rw [if_pos hi]
        exact (if_pos hi).trans (hsend i hi)
      · rw [if_neg hi]
        exact if_neg hi
    have hrelay : relay { t with ph := putFrame t.ph fr, received := t.received ++ [fr] } =
        { t.relay with waiting := t.relay.waiting ++ [fr], received := t.relay.received ++ [fr] } := by
      simp only [relay, relayAt, hcontents]
      exact congrArg₂ (fun ws ps => (⟨ws, _, ps, _, _⟩ : Relay ((ℕ → Frame) × ℕ) Frame Frame)) hwaiting hpending
    rw [hrelay]
    exact .receive t.relay fr

theorem Inv.transmit (h : Inv t) (hpending : t.hwcur ≠ t.ph.txring.head) :
    Inv { t with hwcur := (t.hwcur + 1) % t.ph.txring.numSlots, sent := t.sent ++ [sendAt t.ph t.hwcur] } ∧
      Relay.Step (repeatStep t.ph.txring.numSlots answer) t.relay
        (relay { t with hwcur := (t.hwcur + 1) % t.ph.txring.numSlots, sent := t.sent ++ [sendAt t.ph t.hwcur] }) := by
  rw [h.txhead] at hpending
  have hpos := distance_ne_zero h.hwcur h.tx.cur hpending
  have hnext := @distance_cons t.ph.txring.numSlots t.hwcur t.ph.txring.cur 1 h.hwcur h.tx.cur (by omega)
  have hroom := h.room
  refine ⟨⟨h.rx, h.tx, h.rxhead, h.txhead, Nat.mod_lt _ (Nat.zero_lt_of_lt h.hwcur), ?_, h.owned⟩, ?_⟩
  · dsimp only
    rw [hnext]
    omega
  · have hwindow : t.relay.pending = sendAt t.ph t.hwcur :: window (sendAt t.ph) t.ph.txring.numSlots
        ((t.hwcur + 1) % t.ph.txring.numSlots)
        (distance t.ph.txring.numSlots ((t.hwcur + 1) % t.ph.txring.numSlots) t.ph.txring.cur) := by
      rw [hnext, ← window_cons h.hwcur, Nat.sub_add_cancel (by omega)]
      rfl
    exact .transmit hwindow

theorem Inv.reclaim (h : Inv t) (hkept : (t.ph.txring.tail + 1) % t.ph.txring.numSlots ≠ t.hwcur) :
    Inv { t with ph := reclaimSlot t.ph } ∧ relay { t with ph := reclaimSlot t.ph } = t.relay := by
  have hroom := h.room
  have hlt := distance_room h.hwcur h.tx.tail hkept
  rw [distance_add h.hwcur h.tx.cur h.tx.tail hroom] at hlt
  refine ⟨⟨h.rx, ⟨h.tx.cur, Nat.mod_lt _ (Nat.zero_lt_of_lt h.tx.tail)⟩, h.rxhead, h.txhead, h.hwcur, ?_, ?_⟩, rfl⟩
  · have hnext := @distance_snoc t.ph.txring.numSlots t.ph.txring.cur t.ph.txring.tail 1 h.tx.cur h.tx.tail (by omega)
    simp only [reclaimSlot]
    rw [hnext]
    omega
  · exact ⟨h.owned.rx, h.owned.tx, h.owned.apart⟩

/-- A call works off frames until none waits or no TX slot is free. -/
theorem Inv.process (hnm : nm.Documented) (h : Inv t) :
    Inv { t with ph := (processRings nm (some recvPacket) t.ph).2 } ∧
      (processRings nm (some recvPacket) t.ph).2.txring.numSlots = t.ph.txring.numSlots ∧
      Relation.ReflTransGen (Relay.Step (repeatStep t.ph.txring.numSlots answer)) t.relay
        (relay { t with ph := (processRings nm (some recvPacket) t.ph).2 }) := by
  obtain ⟨hadv, hadv', -⟩ := processRings_rings hnm h.rx h.tx
  obtain ⟨ph₀, hrs, hts, hbufs, hrn, htn, hrc, htc, hth, hrt, htt, hrun⟩ := processRings_eq nm t.ph (some recvPacket)
  have hsame : SameSlots t.ph ph₀ := ⟨⟨hrn, htn⟩, hrs, hts, hbufs⟩
  have hlimit : limitOf nm ph₀ = min (space t.ph.rxring) (space t.ph.txring) := by
    rw [limitOf_eq hnm ⟨by rw [hrc, hrn]; exact h.rx.cur, by rw [hrt, hrn]; exact h.rx.tail⟩
      ⟨by rw [htc, htn]; exact h.tx.cur, by rw [htt, htn]; exact h.tx.tail⟩, space, space, space, space, hrn, hrc, hrt,
      htn, htc, htt]
  have hspace : space t.ph.txring = distance t.ph.txring.numSlots t.ph.txring.cur t.ph.txring.tail := rfl
  have hroom := h.room
  have hrx := space_lt h.rx
  have hle : min (space t.ph.rxring) (space t.ph.txring) ≤ space t.ph.rxring := Nat.min_le_left _ _
  have hle' : min (space t.ph.rxring) (space t.ph.txring) ≤ space t.ph.txring := Nat.min_le_right _ _
  generalize min (space t.ph.rxring) (space t.ph.txring) = l at *
  obtain ⟨ph', hslots, howned, ⟨hn, hm⟩, hsteps⟩ := @processSlots_work nm hnm (space t.ph.rxring - l) t.hwcur t.received
    t.sent l ph₀ ph₀.rxring.cur ph₀.txring.cur (distance t.ph.txring.numSlots t.hwcur t.ph.txring.cur)
    (hsame.owned h.owned) (by rw [hrc, hrn]; exact h.rx.cur) (by rw [htc, htn]; exact h.tx.cur)
    (by rw [htc, htn]; exact add_distance h.hwcur h.tx.cur) (by rw [htn]; omega) (by rw [hrn]; omega)
    (by rw [htn]; exact h.hwcur)
  rw [hlimit, hslots] at hrun
  have hsame' : SameSlots ph' (processRings nm (some recvPacket) t.ph).2 := by
    rw [hrun]
    exact ⟨⟨rfl, rfl⟩, rfl, rfl, rfl⟩
  clear hrun hslots
  generalize (processRings nm (some recvPacket) t.ph).2 = ph'' at *
  -- the cursors of both rings have moved on
  have hahead : distance t.ph.txring.numSlots t.hwcur ph''.txring.cur =
      distance t.ph.txring.numSlots t.hwcur t.ph.txring.cur + l := by
    rw [hadv'.cur]
    exact distance_snoc h.hwcur h.tx.cur (by omega)
  have hfree := @distance_cons _ _ _ l h.tx.cur h.tx.tail (by omega)
  have hleft := @distance_cons _ _ _ l h.rx.cur h.rx.tail (Nat.lt_succ_of_le hle)
  rw [← hadv'.cur] at hfree
  rw [← hadv.cur] at hleft
  refine ⟨⟨(hadv.space_eq h.rx hle).2, (hadv'.space_eq h.tx hle').2, hadv.head, hadv'.head, ?_, ?_,
    hsame'.owned howned⟩, hadv'.numSlots, ?_⟩
  · rw [hadv'.numSlots]
    exact h.hwcur
  · dsimp only
    rw [hadv'.numSlots, hadv'.tail, hahead, hfree]
    omega
  · have hwaiting : space t.ph.rxring - l + l = space t.ph.rxring := Nat.sub_add_cancel hle
    rw [hsame.relayAt_eq, htn, hrn, hrc, htc, hwaiting, ← hadv.cur, ← hadv'.cur, ← hsame'.relayAt_eq,
      ← hahead] at hsteps
    have hgoal : relay { t with ph := ph'' } =
        relayAt ph'' ph''.rxring.cur (space t.ph.rxring - l) ph''.txring.cur t.hwcur
        (distance t.ph.txring.numSlots t.hwcur ph''.txring.cur) t.received t.sent := by
      simp only [relay, hadv.numSlots, hadv.tail, hadv'.numSlots, hleft]
      rfl
    rw [hgoal]
    exact hsteps

/-- Every step keeps the invariant, and is one of the relay or some of them. -/
theorem Step.relays (hnm : nm.Documented) (h : Inv t) (hstep : Step nm t t') :
    Inv t' ∧ t'.ph.txring.numSlots = t.ph.txring.numSlots ∧
      Relation.ReflTransGen (Relay.Step (repeatStep t.ph.txring.numSlots answer)) t.relay t'.relay := by
  cases hstep with
  | receive fr hroom =>
    obtain ⟨hinv, hrelay⟩ := h.receive fr hroom
    exact ⟨hinv, rfl, .single hrelay⟩
  | process => exact h.process hnm
  | transmit hpending =>
    obtain ⟨hinv, hrelay⟩ := h.transmit hpending
    exact ⟨hinv, rfl, .single hrelay⟩
  | reclaim hkept =>
    obtain ⟨hinv, hrelay⟩ := h.reclaim hkept
    rw [hrelay]
    exact ⟨hinv, rfl, .refl⟩

theorem Steps.relays (hnm : nm.Documented) (h : Inv t₀) (hrun : Relation.ReflTransGen (Step nm) t₀ t) :
    Inv t ∧ t.ph.txring.numSlots = t₀.ph.txring.numSlots ∧
      Relation.ReflTransGen (Relay.Step (repeatStep t₀.ph.txring.numSlots answer)) t₀.relay t.relay := by
  induction hrun with
  | refl => exact ⟨h, rfl, .refl⟩
  | tail _ hstep ih =>
    obtain ⟨hinv, hslots, hrelay⟩ := ih
    obtain ⟨hinv', hslots', hrelay'⟩ := hstep.relays hnm hinv
    rw [hslots] at hrelay' hslots'
    exact ⟨hinv', hslots', hrelay.trans hrelay'⟩

theorem Idle.exact (h : Idle t) :
    Relay.Exact (repeatStep t.ph.txring.numSlots answer) (contents t.ph, t.ph.txring.cur) t.relay := by
  have hwaiting : distance t.ph.rxring.numSlots t.ph.rxring.cur t.ph.rxring.tail = 0 := by
    rw [h.waiting, distance_self]
  have hpending : distance t.ph.txring.numSlots t.hwcur t.ph.txring.cur = 0 := by rw [h.pending, distance_self]
  have hrelay : t.relay = ⟨[], (contents t.ph, t.ph.txring.cur), [], [], []⟩ := by
    rw [relay, hwaiting, hpending, h.received, h.sent]
    rfl
  rw [hrelay]
  exact .start _ _

/-- For each frame that came in one goes out, in this order, and none is lost: the reply if it was accepted, and
otherwise what went out one round of the TX ring before, or what the slot held at first. -/
theorem traffic_exact (hnm : nm.Documented) (hidle : Idle t₀) (hrun : Relation.ReflTransGen (Step nm) t₀ t) :
    t.received.length = t.sent.length + t.relay.pending.length + t.relay.waiting.length ∧
      ∀ j fr, t.sent[j]? = some fr → ∃ request, t.received[j]? = some request ∧
        (accepted request = true → fr = reply request) ∧
        (accepted request = false → j < t₀.ph.txring.numSlots →
          fr = sendAt t₀.ph ((t₀.ph.txring.cur + j) % t₀.ph.txring.numSlots)) ∧
        (accepted request = false → t₀.ph.txring.numSlots ≤ j → t.sent[j - t₀.ph.txring.numSlots]? = some fr) := by
  obtain ⟨-, -, hrelay⟩ := Steps.relays hnm hidle.toInv hrun
  have hexact := hidle.exact.steps hrelay
  have hlen : t.received.length = t.sent.length + t.relay.pending.length + t.relay.waiting.length := hexact.length_eq
  refine ⟨hlen, fun j fr hfr => ?_⟩
  have hout := hexact.outputs
  obtain ⟨hj, -⟩ := List.getElem?_eq_some_iff.mp hfr
  have hsent : ∀ i, i < t.sent.length → (outputs (repeatStep t₀.ph.txring.numSlots answer)
      (contents t₀.ph, t₀.ph.txring.cur) t.received)[i]? = t.sent[i]? := fun i hi => by
    change outputs _ _ t.received = t.sent ++ _ ++ _ at hout
    rw [hout, List.append_assoc, List.getElem?_append_left hi]
  have hlt : j < t.received.length := by omega
  obtain ⟨request, hrequest⟩ : ∃ request, t.received[j]? = some request := ⟨_, List.getElem?_eq_getElem hlt⟩
  obtain ⟨hreply, hearly, hlate⟩ := @outputs_repeat _ _ answer (contents t₀.ph) _ _ hidle.tx.cur _ _ hrequest
  refine ⟨request, hrequest, fun hok => ?_, fun hno hj' => ?_, fun hno hj' => ?_⟩
  · have hanswer : answer request = some (reply request) := if_pos hok
    have heq := (hsent j hj).symm.trans (hreply _ hanswer)
    exact Option.some.inj (hfr.symm.trans heq)
  · have hanswer : answer request = none := if_neg (by rw [hno]; decide)
    have heq := (hsent j hj).symm.trans (hearly hanswer hj')
    rw [contents, if_pos (Nat.mod_lt _ (Nat.zero_lt_of_lt hidle.tx.cur))] at heq
    exact Option.some.inj (hfr.symm.trans heq)
  · have hanswer : answer request = none := if_neg (by rw [hno]; decide)
    have heq := (hsent j hj).symm.trans (hlate hanswer hj')
    rw [hsent (j - t₀.ph.txring.numSlots) (by omega)] at heq
    exact heq.symm.trans hfr

/-! ## One frame -/

/-- Rings of four slots that nothing has come into. -/
def quiet : Traffic where
  ph := { oneFrame [] with rxring := ⟨4, 0, 0, 0, 0, fun i => ⟨2 + i, 0, 0⟩⟩ }
  hwcur := 2
  received := []
  sent := []

theorem quiet_idle : Idle quiet := by
  refine ⟨⟨⟨by decide, by decide⟩, ⟨by decide, by decide⟩, rfl, rfl, by decide, by decide, ?_⟩, rfl, rfl, rfl, rfl⟩
  refine ⟨fun i j _ _ he => ?_, fun i j _ _ he => ?_, fun i j hi _ he => ?_⟩
  · simp only [quiet] at he
    omega
  · simp only [quiet, oneFrame] at he
    omega
  · simp only [quiet, oneFrame] at hi he
    omega

/-- A control packet in state Down comes in. -/
def downFrame : Frame := (fun i => bfdFrame.getD i 0, 66)

theorem traffic_exact_quiet : ∃ t, Relation.ReflTransGen (Step netmapUser) quiet t ∧ t.received = [downFrame] ∧
    t.sent = [reply downFrame] := by
  have hreceive := @Step.receive netmapUser quiet downFrame (by decide)
  have hrun := ((Relation.ReflTransGen.single hreceive).tail (.process _)).tail (.transmit _ (by decide +kernel))
  obtain ⟨-, hexact⟩ := traffic_exact netmapUser_documented quiet_idle hrun
  refine ⟨_, hrun, rfl, ?_⟩
  obtain ⟨request, hrequest, hreply, -, -⟩ := hexact 0 _ rfl
  obtain rfl : downFrame = request := Option.some.inj hrequest
  exact congrArg ([·]) (hreply (by decide +kernel))

/-! ## Progress -/

/-- What is left to do: a frame that waits is worked off and then sent. -/
def work (t : Traffic) : ℕ := 2 * t.relay.waiting.length + t.relay.pending.length

theorem length_waiting : t.relay.waiting.length = space t.ph.rxring := length_window

section Drain

variable {s₀ : (ℕ → Frame) × ℕ}

/-- A call leaves less to do, if a frame waits and a TX slot is free. -/
theorem Inv.work_process (hnm : nm.Documented) (h : Inv t)
    (hexact : Relay.Exact (repeatStep t.ph.txring.numSlots answer) s₀ t.relay)
    (hrx : space t.ph.rxring ≠ 0) (htx : space t.ph.txring ≠ 0) :
    work { t with ph := (processRings nm (some recvPacket) t.ph).2 } < work t := by
  obtain ⟨h', -, hsteps⟩ := h.process hnm
  obtain ⟨hadv, -, -⟩ := processRings_rings hnm h.rx h.tx
  have hspace := (hadv.space_eq h.rx (Nat.min_le_left _ _)).1
  have hlen : t.received.length = t.sent.length + t.relay.pending.length + t.relay.waiting.length := hexact.length_eq
  have hlen' : t.received.length = t.sent.length + _ + _ := (hexact.steps hsteps).length_eq
  rw [length_waiting] at hlen'
  rw [length_waiting] at hlen
  rw [work, work, length_waiting, length_waiting]
  dsimp only at hlen' ⊢
  omega

theorem Inv.work_transmit (h : Inv t) (hexact : Relay.Exact (repeatStep t.ph.txring.numSlots answer) s₀ t.relay)
    (hpending : t.hwcur ≠ t.ph.txring.head) :
    work { t with hwcur := (t.hwcur + 1) % t.ph.txring.numSlots, sent := t.sent ++ [sendAt t.ph t.hwcur] } <
      work t := by
  have hlen : t.received.length = t.sent.length + t.relay.pending.length + t.relay.waiting.length := hexact.length_eq
  have hlen' : t.received.length = (t.sent ++ [sendAt t.ph t.hwcur]).length + _ + t.relay.waiting.length :=
    (hexact.step (h.transmit hpending).2).length_eq
  rw [List.length_append, List.length_singleton] at hlen'
  refine Nat.add_lt_add_left ?_ (2 * t.relay.waiting.length)
  omega

/-- The program and the interface can always go on until all is sent. -/
theorem Inv.progress (hnm : nm.Documented) (h : Inv t) (hslots : 1 < t.ph.txring.numSlots)
    (hexact : Relay.Exact (repeatStep t.ph.txring.numSlots answer) s₀ t.relay)
    (hne : t.sent.length ≠ t.received.length) :
    ∃ t', Relation.ReflTransGen (Step nm) t t' ∧ t'.received = t.received ∧ work t' < work t := by
  by_cases hpending : t.hwcur = t.ph.txring.head
  · have hzero : t.relay.pending.length = 0 := by
      rw [h.txhead] at hpending
      exact length_window.trans (by rw [hpending, distance_self])
    have hrx : space t.ph.rxring ≠ 0 := fun hrx => hne (by
      have hlen : t.received.length = t.sent.length + t.relay.pending.length + t.relay.waiting.length :=
        hexact.length_eq
      rw [hzero, length_waiting, hrx] at hlen
      exact hlen.symm)
    by_cases htx : space t.ph.txring = 0
    · -- all is sent, so that a slot can be handed back first
      have htail := (space_eq_zero_iff h.tx).mp htx
      have hnext := @add_mod_ne_of_lt t.ph.txring.numSlots t.ph.txring.tail 0 1 Nat.one_pos (by omega)
      rw [Nat.add_zero, Nat.mod_eq_of_lt h.tx.tail] at hnext
      have hkept : (t.ph.txring.tail + 1) % t.ph.txring.numSlots ≠ t.hwcur := by
        rw [hpending, h.txhead, htail]
        exact hnext.symm
      obtain ⟨h', hrelay⟩ := h.reclaim hkept
      have hfree : space (reclaimSlot t.ph).txring ≠ 0 := fun hzero =>
        hnext (htail.symm.trans ((space_eq_zero_iff h'.tx).mp hzero))
      have hlt := h'.work_process hnm (hrelay ▸ hexact) hrx hfree
      rw [work.eq_1 { t with ph := reclaimSlot t.ph }, hrelay, ← work] at hlt
      exact ⟨_, .tail (.single (.reclaim t hkept)) (.process _), rfl, hlt⟩
    · exact ⟨_, .single (.process t), rfl, h.work_process hnm hexact hrx htx⟩
  · exact ⟨_, .single (.transmit t hpending), rfl, h.work_transmit hexact hpending⟩

theorem Inv.drains (hnm : nm.Documented) {n : ℕ} (hn : 1 < n) (h : Inv t) (hslots : t.ph.txring.numSlots = n)
    (hexact : Relay.Exact (repeatStep n answer) s₀ t.relay) :
    ∃ t', Relation.ReflTransGen (Step nm) t t' ∧ t'.received = t.received ∧ t'.sent.length = t.received.length := by
  induction hm : work t using Nat.strong_induction_on generalizing t with
  | _ m ih =>
    by_cases hdone : t.sent.length = t.received.length
    · exact ⟨t, .refl, rfl, hdone⟩
    · subst hslots
      obtain ⟨t', hsteps, hreceived, hlt⟩ := h.progress hnm hn hexact hdone
      obtain ⟨h', hslots', hrelay⟩ := Steps.relays hnm h hsteps
      obtain ⟨t'', hrun, hrec, hsent⟩ := ih _ (hm ▸ hlt) h' hslots' (hexact.steps hrelay) rfl
      exact ⟨t'', hsteps.trans hrun, hrec.trans hreceived, by rw [hsent, hreceived]⟩

end Drain

/-- Whatever came in, it can be answered with no frame more coming in. -/
theorem traffic_drains (hnm : nm.Documented) (hidle : Idle t₀) (hslots : 1 < t₀.ph.txring.numSlots)
    (hrun : Relation.ReflTransGen (Step nm) t₀ t) :
    ∃ t', Relation.ReflTransGen (Step nm) t t' ∧ t'.received = t.received ∧ t'.sent.length = t.received.length := by
  obtain ⟨h, hn, hrelay⟩ := Steps.relays hnm hidle.toInv hrun
  exact h.drains hnm hslots hn (hidle.exact.steps hrelay)

/-- Two frames come in, of which the first is under way when the second comes. -/
theorem traffic_drains_twice : ∃ t t', Relation.ReflTransGen (Step netmapUser) quiet t ∧
    t.received = [downFrame, downFrame] ∧ t.sent = [] ∧ Relation.ReflTransGen (Step netmapUser) t t' ∧
    t'.received = [downFrame, downFrame] ∧ t'.sent.length = 2 := by
  have hreceive := @Step.receive netmapUser quiet downFrame (by decide)
  have hprocess := (Relation.ReflTransGen.single hreceive).tail (.process _)
  have hrun := hprocess.tail (.receive _ downFrame (by decide +kernel))
  obtain ⟨t', hdrain, hreceived, hsent⟩ := traffic_drains netmapUser_documented quiet_idle (by decide) hrun
  exact ⟨_, t', hrun, rfl, rfl, hdrain, hreceived, hsent⟩

end Traffic

end NetworkBfd.BfddNetmap
