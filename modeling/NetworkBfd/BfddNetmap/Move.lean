import NetworkBfd.BfddNetmap.Reflect
import Mathlib.Algebra.Order.BigOperators.Group.Finset

/-!
# All rings of the interface

`move` pairs the rings one after the other. Its two indices have the type of their bounds, so a bound of 65535 does not
end the loop. What a round does to a pair of rings is `processRings_rings`; what it keeps is `Kept`; and `move` ends,
with nothing lost, exactly if `Ends` (`move_iff`).
-/

namespace NetworkBfd.BfddNetmap

open Lib Lib.Bytes Smmr Bfdd

/-! ## One ring -/

/-- The number of slots from `cur` up to `tail`. -/
def space (r : NetmapRing) : Nat := (r.tail + r.numSlots - r.cur) % r.numSlots

/-- The cursors lie in the ring. -/
structure NetmapRing.InRange (r : NetmapRing) : Prop where
  cur : r.cur < r.numSlots
  tail : r.tail < r.numSlots

/-- The buffers of a ring. -/
def ringBufs (r : NetmapRing) : Multiset Nat := ∑ j ∈ Finset.range r.numSlots, {(r.slot j).bufIdx}

/-- The ring has moved by `k` slots. -/
structure Advanced (k : Nat) (r r' : NetmapRing) : Prop where
  numSlots : r'.numSlots = r.numSlots
  tail : r'.tail = r.tail
  cur : r'.cur = (r.cur + k) % r.numSlots
  head : r'.head = r'.cur

theorem space_lt {r : NetmapRing} (h : r.InRange) : space r < r.numSlots :=
  Nat.mod_lt _ (Nat.zero_lt_of_lt h.cur)

theorem space_eq_zero_iff {r : NetmapRing} (h : r.InRange) : space r = 0 ↔ r.cur = r.tail := by
  have hcur := h.cur
  have htail := h.tail
  unfold space
  rcases Nat.lt_or_ge r.tail r.cur with hlt | hge
  · rw [Nat.mod_eq_of_lt (by omega)]
    omega
  · rw [show r.tail + r.numSlots - r.cur = r.tail - r.cur + r.numSlots by omega, Nat.add_mod_right,
      Nat.mod_eq_of_lt (by omega)]
    omega

/-- A ring that has moved by no more than its space has so much less of it, and is in range. -/
theorem Advanced.space_eq {k : Nat} {r r' : NetmapRing} (h : Advanced k r r') (hr : r.InRange) (hk : k ≤ space r) :
    space r' + k = space r ∧ r'.InRange := by
  have hcur := hr.cur
  have htail := hr.tail
  have hin : r'.InRange := by
    refine ⟨?_, ?_⟩
    · rw [h.cur, h.numSlots]
      exact Nat.mod_lt _ (by omega)
    · rw [h.tail, h.numSlots]
      exact htail
  refine ⟨?_, hin⟩
  have hcur' := hin.cur
  unfold space at hk ⊢
  rw [h.numSlots, h.tail, h.cur] at *
  generalize r.numSlots = n at *
  generalize r.cur = c at *
  generalize r.tail = t at *
  have hspace : (t + n - c) % n = if c ≤ t then t - c else t + n - c := by
    split
    · rw [show t + n - c = t - c + n by omega, Nat.add_mod_right, Nat.mod_eq_of_lt (by omega)]
    · exact Nat.mod_eq_of_lt (by omega)
  have hnext : (c + k) % n = if c + k < n then c + k else c + k - n := by
    split
    · rename_i hlt
      exact Nat.mod_eq_of_lt hlt
    · rename_i hge
      have hkn : k < n := Nat.lt_of_le_of_lt hk (Nat.mod_lt _ (by omega))
      rw [Nat.mod_eq_sub_mod (by omega), Nat.mod_eq_of_lt (by omega)]
  rw [hspace] at hk ⊢
  rw [hnext] at hcur' ⊢
  split_ifs at hk hcur' ⊢ <;> first
    | (rw [Nat.mod_eq_of_lt (by omega)]; omega)
    | (rw [Nat.mod_eq_sub_mod (by omega), Nat.mod_eq_of_lt (by omega)]; omega)

/-! ## A pair of rings -/

/-- The buffers of both rings. -/
def pairBufs (ph : ProcessHandle) : Multiset Nat := ringBufs ph.rxring + ringBufs ph.txring

/-- The rings keep their size and their cursors. -/
structure SameCursors (ph ph' : ProcessHandle) : Prop where
  shape : SameShape ph ph'
  rxtail : ph'.rxring.tail = ph.rxring.tail
  txtail : ph'.txring.tail = ph.txring.tail

theorem ringBufs_update {r : NetmapRing} {j : Nat} (hj : j < r.numSlots) (sl : NetmapSlot) :
    ringBufs { r with slot := Function.update r.slot j sl } + {(r.slot j).bufIdx} = ringBufs r + {sl.bufIdx} := by
  exact sum_update_add (Finset.mem_range.mpr hj) (fun sl : NetmapSlot => ({sl.bufIdx} : Multiset Nat)) r.slot sl

/-- `swap_index` hands a buffer over. -/
theorem swapIndex_bufs {ph : ProcessHandle} (hrs : ph.rs < ph.rxring.numSlots) (hts : ph.ts < ph.txring.numSlots) :
    pairBufs (swapIndex ph) = pairBufs ph := by
  have hrx := ringBufs_update hrs { ph.rxring.slot ph.rs with
    bufIdx := (ph.txring.slot ph.ts).bufIdx, flags := (ph.rxring.slot ph.rs).flags ||| nsBufChanged }
  have htx := ringBufs_update hts { ph.txring.slot ph.ts with
    bufIdx := (ph.rxring.slot ph.rs).bufIdx, len := ph.reqlen,
    flags := (ph.txring.slot ph.ts).flags ||| nsBufChanged }
  refine add_right_cancel (b := {(ph.rxring.slot ph.rs).bufIdx} + {(ph.txring.slot ph.ts).bufIdx}) ?_
  calc pairBufs (swapIndex ph) + ({(ph.rxring.slot ph.rs).bufIdx} + {(ph.txring.slot ph.ts).bufIdx})
    _ = (ringBufs (swapIndex ph).rxring + {(ph.rxring.slot ph.rs).bufIdx}) +
          (ringBufs (swapIndex ph).txring + {(ph.txring.slot ph.ts).bufIdx}) := add_add_add_comm _ _ _ _
    _ = (ringBufs ph.rxring + {(ph.txring.slot ph.ts).bufIdx}) +
          (ringBufs ph.txring + {(ph.rxring.slot ph.rs).bufIdx}) := congrArg₂ (· + ·) hrx htx
    _ = _ := by rw [add_add_add_comm, add_comm ({(ph.txring.slot ph.ts).bufIdx} : Multiset Nat)]; rfl

/-- The handle when the frame is looked at. -/
def loadSlot (rxCur txCur : Nat) (ph : ProcessHandle) : ProcessHandle :=
  let rs := ph.rxring.slot rxCur
  { ph with
    rxring := { ph.rxring with
      slot := Function.update ph.rxring.slot rxCur ⟨rs.bufIdx, if 2048 < rs.len then 0 else rs.len, rs.flags⟩ }
    rs := rxCur
    ts := txCur
    req := rs.bufIdx
    res := (ph.txring.slot txCur).bufIdx
    reslen := rs.len
    reqlen := rs.len }

theorem processSlot_eq (r t : Nat) (ph : ProcessHandle) :
    processSlot (some recvPacket) r t ph = loadSlot r t ph ∨
      processSlot (some recvPacket) r t ph = recvPacket (loadSlot r t ph) := by
  unfold processSlot
  exact (Classical.em (isBfdPacket (ph.bufs (ph.rxring.slot r).bufIdx)
    (if 2048 < (ph.rxring.slot r).len then 0 else (ph.rxring.slot r).len).toNat = 0)).symm.imp
      (fun hno => if_neg hno) fun hok => if_pos hok

theorem loadSlot_bufs {ph : ProcessHandle} {r : Nat} (hr : r < ph.rxring.numSlots) (t : Nat) :
    pairBufs (loadSlot r t ph) = pairBufs ph := by
  have h := ringBufs_update hr ⟨(ph.rxring.slot r).bufIdx,
    if 2048 < (ph.rxring.slot r).len then 0 else (ph.rxring.slot r).len, (ph.rxring.slot r).flags⟩
  exact congrArg (· + ringBufs ph.txring) (add_right_cancel h)

theorem recvPacket_bufs {ph : ProcessHandle} (hrs : ph.rs < ph.rxring.numSlots) (hts : ph.ts < ph.txring.numSlots) :
    pairBufs (recvPacket ph) = pairBufs ph :=
  @swapIndex_bufs { ph with bufs := Function.update ph.bufs ph.req (replyFrame (ph.bufs ph.req)) } hrs hts

theorem processSlot_cursors (ph : ProcessHandle) (r t : Nat) :
    SameCursors ph (processSlot (some recvPacket) r t ph) := by
  rcases processSlot_eq r t ph with h | h <;> rw [h] <;> exact ⟨⟨rfl, rfl⟩, rfl, rfl⟩

theorem processSlot_bufs {ph : ProcessHandle} {r t : Nat} (hr : r < ph.rxring.numSlots) (ht : t < ph.txring.numSlots) :
    pairBufs (processSlot (some recvPacket) r t ph) = pairBufs ph := by
  rcases processSlot_eq r t ph with h | h
  · rw [h, loadSlot_bufs hr]
  · rw [h, recvPacket_bufs hr ht, loadSlot_bufs hr]

/-- All rounds of a call. -/
theorem foldl_processSlot_bufs : ∀ (vs : List (Nat × Nat)) (ph : ProcessHandle),
    (∀ v ∈ vs, v.1 < ph.rxring.numSlots ∧ v.2 < ph.txring.numSlots) →
    SameCursors ph (vs.foldl (fun ph v => processSlot (some recvPacket) v.1 v.2 ph) ph) ∧
      pairBufs (vs.foldl (fun ph v => processSlot (some recvPacket) v.1 v.2 ph) ph) = pairBufs ph
  | [], _, _ => ⟨⟨⟨rfl, rfl⟩, rfl, rfl⟩, rfl⟩
  | v :: vs, ph, h => by
    obtain ⟨⟨hr, ht⟩, hvs⟩ := List.forall_mem_cons.mp h
    obtain ⟨⟨hn, hm⟩, hrt, htt⟩ := processSlot_cursors ph v.1 v.2
    obtain ⟨⟨⟨hn', hm'⟩, hrt', htt'⟩, hbufs⟩ := foldl_processSlot_bufs vs (processSlot (some recvPacket) v.1 v.2 ph)
      (by rw [hn, hm]; exact hvs)
    rw [List.foldl_cons]
    exact ⟨⟨⟨hn'.trans hn, hm'.trans hm⟩, hrt'.trans hrt, htt'.trans htt⟩, hbufs.trans (processSlot_bufs hr ht)⟩

/-- `nm_ring_empty` as netmap documents it. -/
structure NetmapUser.Documented (nm : NetmapUser) : Prop extends nm.toNetmap.Documented where
  empty : ∀ r, nm.nmRingEmpty r = true ↔ r.cur = r.tail

section Pair

variable {nm : Netmap} {ph : ProcessHandle}

theorem limitOf_eq (hnm : nm.Documented) (hrx : ph.rxring.InRange) (htx : ph.txring.InRange) :
    limitOf nm ph = min (space ph.rxring) (space ph.txring) := by
  have hlt := space_lt hrx
  unfold limitOf
  rw [hnm.space _ hrx.cur hrx.tail, hnm.space _ htx.cur htx.tail]
  unfold space at hlt ⊢
  omega

/-- `process_rings` moves both rings by the smaller space, and hands buffers over between them. -/
theorem processRings_rings (hnm : nm.Documented) (hrx : ph.rxring.InRange) (htx : ph.txring.InRange) :
    Advanced (min (space ph.rxring) (space ph.txring)) ph.rxring (processRings nm (some recvPacket) ph).2.rxring ∧
    Advanced (min (space ph.rxring) (space ph.txring)) ph.txring (processRings nm (some recvPacket) ph).2.txring ∧
    pairBufs (processRings nm (some recvPacket) ph).2 = pairBufs ph := by
  obtain ⟨ph₀, hrs, hts, hbufs, hrn, htn, hrc, htc, hth, hrt, htt, hrun⟩ := processRings_eq nm ph (some recvPacket)
  have hrx₀ : ph₀.rxring.InRange := ⟨by rw [hrc, hrn]; exact hrx.cur, by rw [hrt, hrn]; exact hrx.tail⟩
  have htx₀ : ph₀.txring.InRange := ⟨by rw [htc, htn]; exact htx.cur, by rw [htt, htn]; exact htx.tail⟩
  have hlimit : limitOf nm ph₀ = min (space ph.rxring) (space ph.txring) := by
    rw [limitOf_eq hnm hrx₀ htx₀, space, space, space, space, hrn, hrc, hrt, htn, htc, htt]
  have hpair : pairBufs ph₀ = pairBufs ph := by
    rw [pairBufs, pairBufs, ringBufs, ringBufs, ringBufs, ringBufs, hrs, hts, hrn, htn]
  have hrounds : ∀ v ∈ rounds ph₀.rxring.cur ph₀.rxring.numSlots ph₀.txring.cur ph₀.txring.numSlots (limitOf nm ph₀),
      v.1 < ph₀.rxring.numSlots ∧ v.2 < ph₀.txring.numSlots := by
    intro v hv
    obtain ⟨j, -, rfl⟩ := List.mem_map.mp hv
    exact ⟨Nat.mod_lt _ (Nat.zero_lt_of_lt hrx₀.cur), Nat.mod_lt _ (Nat.zero_lt_of_lt htx₀.cur)⟩
  obtain ⟨⟨⟨hn, hm⟩, hrt', htt'⟩, hbufs'⟩ := foldl_processSlot_bufs _ ph₀ hrounds
  rw [hrun, processSlots_eq hnm _ _ _ _ hrx₀.cur htx₀.cur]
  refine ⟨⟨hn.trans hrn, hrt'.trans hrt, ?_, rfl⟩, ⟨hm.trans htn, htt'.trans htt, ?_, rfl⟩, hbufs'.trans hpair⟩
  · dsimp only
    rw [hlimit, hrc, hrn]
  · dsimp only
    rw [hlimit, htc, htn]

end Pair

/-! ## The rings of a call -/

/-- The rings that an index can come to, which begins at `first` and is compared with `last`: all of them if it never
exceeds `last`. -/
def visited (first last : Fin 65536) : Finset (Fin 65536) :=
  Finset.univ.filter fun i => i ≤ last ∧ (first ≤ i ∨ last.val = 65535)

theorem mem_visited {first last i : Fin 65536} : i ∈ visited first last ↔
    i ≤ last ∧ (first ≤ i ∨ last.val = 65535) := by
  simp only [visited, Finset.mem_filter, Finset.mem_univ, true_and]

/-- The sum of `f` over the receive rings. -/
def rxSum {M : Type} [AddCommMonoid M] (f : NetmapRing → M) (nmd : NmDesc) (s : MoveState) : M :=
  ∑ i ∈ visited nmd.firstRxRing nmd.lastRxRing, f (s.rxrings i)

/-- The sum of `f` over the transmit rings. -/
def txSum {M : Type} [AddCommMonoid M] (f : NetmapRing → M) (nmd : NmDesc) (s : MoveState) : M :=
  ∑ i ∈ visited nmd.firstTxRing nmd.lastTxRing, f (s.txrings i)

/-- The buffers of all slots. -/
def allBufs (nmd : NmDesc) (s : MoveState) : Multiset Nat := rxSum ringBufs nmd s + txSum ringBufs nmd s

/-- A ring before and after: it has moved, not past its tail. -/
def Moved (r r' : NetmapRing) : Prop := r' = r ∨ ∃ k, Advanced k r r' ∧ space r' + k = space r

theorem Moved.step {k : Nat} {r r' r'' : NetmapRing} (h : Moved r r') (h' : Advanced k r' r'')
    (hk : space r'' + k = space r') : Moved r r'' := by
  rcases h with rfl | ⟨j, hj, hspace⟩
  · exact .inr ⟨k, h', hk⟩
  · refine .inr ⟨j + k, ⟨h'.numSlots.trans hj.numSlots, h'.tail.trans hj.tail, ?_, h'.head⟩, by omega⟩
    rw [h'.cur, hj.cur, hj.numSlots, Nat.mod_add_mod, Nat.add_assoc]

/-- What the rounds keep, from the start `s₀` on. -/
structure Kept (nmd : NmDesc) (s₀ s : MoveState) : Prop where
  rxin : ∀ i ∈ visited nmd.firstRxRing nmd.lastRxRing, (s.rxrings i).InRange
  txin : ∀ i ∈ visited nmd.firstTxRing nmd.lastTxRing, (s.txrings i).InRange
  rx : ∀ i, Moved (s₀.rxrings i) (s.rxrings i)
  tx : ∀ i, Moved (s₀.txrings i) (s.txrings i)
  bufs : allBufs nmd s = allBufs nmd s₀
  balance : rxSum space nmd s + txSum space nmd s₀ = txSum space nmd s + rxSum space nmd s₀
  rxidx : nmd.firstRxRing ≤ s.rxringidx ∨ nmd.lastRxRing.val = 65535
  txidx : nmd.firstTxRing ≤ s.txringidx ∨ nmd.lastTxRing.val = 65535
  rxdone : nmd.lastRxRing.val ≠ 65535 → ∀ i, nmd.firstRxRing ≤ i → i < s.rxringidx →
    (s.rxrings i).cur = (s.rxrings i).tail
  txdone : nmd.lastTxRing.val ≠ 65535 → ∀ i, nmd.firstTxRing ≤ i → i < s.txringidx →
    (s.txrings i).cur = (s.txrings i).tail
  txlast : nmd.firstTxRing ≤ nmd.lastTxRing → nmd.lastTxRing < s.txringidx →
    s.rxringidx ∈ visited nmd.firstRxRing nmd.lastRxRing ∧
      (s.rxrings s.rxringidx).cur ≠ (s.rxrings s.rxringidx).tail

section Loop

variable {nm : NetmapUser} {nmd : NmDesc} {s₀ s s' : MoveState}

/-- The handle of a round. -/
def pairOf (s : MoveState) : ProcessHandle :=
  { s.ph with rxring := s.rxrings s.rxringidx, txring := s.txrings s.txringidx }

/-- What a round can be: an index goes on, or a pair of rings is processed. -/
theorem moveStep_cases (hnm : nm.Documented) (h : moveStep nm (some recvPacket) nmd s = some s') :
    (s.rxringidx ≤ nmd.lastRxRing ∧ s.txringidx ≤ nmd.lastTxRing) ∧
    ((((s.rxrings s.rxringidx).cur = (s.rxrings s.rxringidx).tail ∧
          s' = { s with ph := pairOf s, rxringidx := s.rxringidx + 1 }) ∨
        ((s.rxrings s.rxringidx).cur ≠ (s.rxrings s.rxringidx).tail ∧
          (s.txrings s.txringidx).cur = (s.txrings s.txringidx).tail ∧
          s' = { s with ph := pairOf s, txringidx := s.txringidx + 1 })) ∨
      ((s.rxrings s.rxringidx).cur ≠ (s.rxrings s.rxringidx).tail ∧
        (s.txrings s.txringidx).cur ≠ (s.txrings s.txringidx).tail ∧
        s' = { s with
          rxrings := Function.update s.rxrings s.rxringidx
            (processRings nm.toNetmap (some recvPacket) (pairOf s)).2.rxring
          txrings := Function.update s.txrings s.txringidx
            (processRings nm.toNetmap (some recvPacket) (pairOf s)).2.txring
          ph := (processRings nm.toNetmap (some recvPacket) (pairOf s)).2
          m := s.m + BitVec.ofNat 32 (processRings nm.toNetmap (some recvPacket) (pairOf s)).1 })) := by
  unfold moveStep at h
  split at h
  · rename_i hcond
    refine ⟨hcond, ?_⟩
    dsimp only at h
    have hrx := hnm.empty (s.rxrings s.rxringidx)
    have htx := hnm.empty (s.txrings s.txringidx)
    by_cases hr : nm.nmRingEmpty (s.rxrings s.rxringidx) = true
    · rw [if_pos hr] at h
      exact .inl (.inl ⟨hrx.mp hr, (Option.some.inj h).symm⟩)
    · rw [if_neg hr] at h
      by_cases ht : nm.nmRingEmpty (s.txrings s.txringidx) = true
      · rw [if_pos ht] at h
        exact .inl (.inr ⟨fun he => hr (hrx.mpr he), htx.mp ht, (Option.some.inj h).symm⟩)
      · rw [if_neg ht] at h
        exact .inr ⟨fun he => hr (hrx.mpr he), fun he => ht (htx.mpr he), (Option.some.inj h).symm⟩
  · cases h

theorem moveStep_eq_none : moveStep nm (some recvPacket) nmd s = none ↔
    ¬(s.rxringidx ≤ nmd.lastRxRing ∧ s.txringidx ≤ nmd.lastTxRing) := by
  unfold moveStep
  split
  · rename_i hcond
    refine ⟨fun h => ?_, fun h => absurd hcond h⟩
    dsimp only at h
    split_ifs at h
  · rename_i hcond
    exact ⟨fun _ => hcond, fun _ => rfl⟩

/-- Below a bound that is not the largest index the next index is larger. -/
theorem val_next {i last : Fin 65536} (hi : i ≤ last) (hlast : last.val ≠ 65535) : (i + 1).val = i.val + 1 := by
  have hle := Fin.le_def.mp hi
  have hlt := last.isLt
  exact Fin.val_add_one_of_lt' (by omega)

theorem next_ge {first i last : Fin 65536} (hi : i ≤ last) (h : first ≤ i ∨ last.val = 65535) :
    first ≤ i + 1 ∨ last.val = 65535 := by
  by_cases hlast : last.val = 65535
  · exact .inr hlast
  · refine .inl (Fin.le_def.mpr ?_)
    have hle := Fin.le_def.mp (h.resolve_right hlast)
    have hval := val_next hi hlast
    omega

theorem lt_next {i j last : Fin 65536} (hi : i ≤ last) (hlast : last.val ≠ 65535) (hj : j < i + 1) : j < i ∨ j = i := by
  have hval := val_next hi hlast
  have hlt := Fin.lt_def.mp hj
  rcases Nat.lt_or_ge j.val i.val with h | h
  · exact .inl (Fin.lt_def.mpr h)
  · exact .inr (Fin.ext (by omega))

/-- A round on a pair of rings, with its sums. -/
theorem pair_round (hnm : nm.Documented) (h : Kept nmd s₀ s)
    (hcond : s.rxringidx ≤ nmd.lastRxRing ∧ s.txringidx ≤ nmd.lastTxRing)
    (hr : (s.rxrings s.rxringidx).cur ≠ (s.rxrings s.rxringidx).tail)
    (ht : (s.txrings s.txringidx).cur ≠ (s.txrings s.txringidx).tail) : ∃ k, 0 < k ∧
    Advanced k (s.rxrings s.rxringidx) (processRings nm.toNetmap (some recvPacket) (pairOf s)).2.rxring ∧
    space (processRings nm.toNetmap (some recvPacket) (pairOf s)).2.rxring + k = space (s.rxrings s.rxringidx) ∧
    (processRings nm.toNetmap (some recvPacket) (pairOf s)).2.rxring.InRange ∧
    Advanced k (s.txrings s.txringidx) (processRings nm.toNetmap (some recvPacket) (pairOf s)).2.txring ∧
    space (processRings nm.toNetmap (some recvPacket) (pairOf s)).2.txring + k = space (s.txrings s.txringidx) ∧
    (processRings nm.toNetmap (some recvPacket) (pairOf s)).2.txring.InRange ∧
    pairBufs (processRings nm.toNetmap (some recvPacket) (pairOf s)).2 =
      ringBufs (s.rxrings s.rxringidx) + ringBufs (s.txrings s.txringidx) := by
  have hrx := h.rxin _ (mem_visited.mpr ⟨hcond.1, h.rxidx⟩)
  have htx := h.txin _ (mem_visited.mpr ⟨hcond.2, h.txidx⟩)
  have hr0 : space (s.rxrings s.rxringidx) ≠ 0 := fun hz => hr ((space_eq_zero_iff hrx).mp hz)
  have ht0 : space (s.txrings s.txringidx) ≠ 0 := fun hz => ht ((space_eq_zero_iff htx).mp hz)
  obtain ⟨hadvR, hadvT, hbufs⟩ := @processRings_rings nm.toNetmap (pairOf s) hnm.toDocumented hrx htx
  have hspaceR := hadvR.space_eq hrx (Nat.min_le_left _ _)
  have hspaceT := hadvT.space_eq htx (Nat.min_le_right _ _)
  have hpos : 0 < min (space (s.rxrings s.rxringidx)) (space (s.txrings s.txringidx)) :=
    Nat.lt_min.mpr ⟨Nat.pos_of_ne_zero hr0, Nat.pos_of_ne_zero ht0⟩
  exact ⟨_, hpos, hadvR, hspaceR.1, hspaceR.2, hadvT, hspaceT.1, hspaceT.2, hbufs⟩

theorem kept_step (hnm : nm.Documented) (h : Kept nmd s₀ s) (hstep : moveStep nm (some recvPacket) nmd s = some s') :
    Kept nmd s₀ s' := by
  obtain ⟨hcond, (⟨hr, rfl⟩ | ⟨hr, ht, rfl⟩) | ⟨hr, ht, rfl⟩⟩ := moveStep_cases hnm hstep
  · -- the next receive ring
    refine ⟨h.rxin, h.txin, h.rx, h.tx, h.bufs, h.balance, next_ge hcond.1 h.rxidx, h.txidx, ?_, h.txdone, ?_⟩
    · intro hlast i hi hlt
      rcases lt_next hcond.1 hlast hlt with hlt | rfl
      · exact h.rxdone hlast i hi hlt
      · exact hr
    · exact fun _ hlast => absurd hcond.2 (Fin.not_le.mpr hlast)
  · -- the next transmit ring
    refine ⟨h.rxin, h.txin, h.rx, h.tx, h.bufs, h.balance, h.rxidx, next_ge hcond.2 h.txidx, h.rxdone, ?_, ?_⟩
    · intro hlast i hi hlt
      rcases lt_next hcond.2 hlast hlt with hlt | rfl
      · exact h.txdone hlast i hi hlt
      · exact ht
    · exact fun _ _ => ⟨mem_visited.mpr ⟨hcond.1, h.rxidx⟩, hr⟩
  · -- a pair
    have hrv := mem_visited.mpr ⟨hcond.1, h.rxidx⟩
    have htv := mem_visited.mpr ⟨hcond.2, h.txidx⟩
    obtain ⟨k, -, hadvR, hspaceR, hinR, hadvT, hspaceT, hinT, hbufs⟩ := pair_round hnm h hcond hr ht
    generalize hph : (processRings nm.toNetmap (some recvPacket) (pairOf s)).2 = ph' at *
    refine ⟨?_, ?_, ?_, ?_, ?_, ?_, h.rxidx, h.txidx, ?_, ?_, ?_⟩
    · exact (Function.forall_update_iff s.rxrings fun i r => i ∈ visited nmd.firstRxRing nmd.lastRxRing →
        r.InRange).mpr ⟨fun _ => hinR, fun i _ => h.rxin i⟩
    · exact (Function.forall_update_iff s.txrings fun i r => i ∈ visited nmd.firstTxRing nmd.lastTxRing →
        r.InRange).mpr ⟨fun _ => hinT, fun i _ => h.txin i⟩
    · exact (Function.forall_update_iff s.rxrings fun i r => Moved (s₀.rxrings i) r).mpr
        ⟨(h.rx _).step hadvR hspaceR, fun i _ => h.rx i⟩
    · exact (Function.forall_update_iff s.txrings fun i r => Moved (s₀.txrings i) r).mpr
        ⟨(h.tx _).step hadvT hspaceT, fun i _ => h.tx i⟩
    · rw [← h.bufs]
      have hR := sum_update_add hrv ringBufs s.rxrings ph'.rxring
      have hT := sum_update_add htv ringBufs s.txrings ph'.txring
      refine add_right_cancel (b := ringBufs (s.rxrings s.rxringidx) + ringBufs (s.txrings s.txringidx)) ?_
      refine (add_add_add_comm _ _ _ _).trans ((congrArg₂ (· + ·) hR hT).trans ?_)
      rw [add_add_add_comm, ← hbufs]
      rfl
    · have hR := sum_update_add hrv space s.rxrings ph'.rxring
      have hT := sum_update_add htv space s.txrings ph'.txring
      have hbalance := h.balance
      simp only [rxSum, txSum] at hbalance ⊢
      omega
    · intro hlast i hi hlt
      dsimp only
      rw [Function.update_of_ne (Fin.ne_of_lt hlt)]
      exact h.rxdone hlast i hi hlt
    · intro hlast i hi hlt
      dsimp only
      rw [Function.update_of_ne (Fin.ne_of_lt hlt)]
      exact h.txdone hlast i hi hlt
    · exact fun _ hlast => absurd hcond.2 (Fin.not_le.mpr hlast)

/-- The rings that `move` starts with. -/
theorem kept_start (hrx : ∀ i ∈ visited nmd.firstRxRing nmd.lastRxRing, (s₀.rxrings i).InRange)
    (htx : ∀ i ∈ visited nmd.firstTxRing nmd.lastTxRing, (s₀.txrings i).InRange)
    (hr : s₀.rxringidx = nmd.firstRxRing) (ht : s₀.txringidx = nmd.firstTxRing) : Kept nmd s₀ s₀ := by
  refine ⟨hrx, htx, fun _ => .inl rfl, fun _ => .inl rfl, rfl, Nat.add_comm _ _, .inl (Fin.le_of_eq hr.symm),
    .inl (Fin.le_of_eq ht.symm), fun _ i hi hlt => ?_, fun _ i hi hlt => ?_, fun hle hlt => ?_⟩
  · rw [hr] at hlt
    exact absurd hi (Fin.not_le.mpr hlt)
  · rw [ht] at hlt
    exact absurd hi (Fin.not_le.mpr hlt)
  · rw [ht] at hlt
    exact absurd hle (Fin.not_le.mpr hlt)

/-! ## The end of the loop -/

/-- There are no rings on one side; or an index that never exceeds its bound is not the one that has to: more frames
have come in than there is space for, or not. -/
def Ends (nmd : NmDesc) (s : MoveState) : Prop :=
  nmd.lastRxRing < nmd.firstRxRing ∨ nmd.lastTxRing < nmd.firstTxRing ∨
    (nmd.lastRxRing.val ≠ 65535 ∨ txSum space nmd s < rxSum space nmd s) ∧
      (nmd.lastTxRing.val ≠ 65535 ∨ rxSum space nmd s ≤ txSum space nmd s)

theorem exists_rx_of_sum (h : Kept nmd s₀ s) (hsum : 0 < rxSum space nmd s) :
    ∃ i, (s.rxrings i).cur ≠ (s.rxrings i).tail := by
  obtain ⟨i, hi, hne⟩ := Finset.exists_ne_zero_of_sum_ne_zero (Nat.ne_of_gt hsum)
  exact ⟨i, fun he => hne ((space_eq_zero_iff (h.rxin i hi)).mpr he)⟩

theorem exists_tx_of_sum (h : Kept nmd s₀ s) (hsum : 0 < txSum space nmd s) :
    ∃ i, (s.txrings i).cur ≠ (s.txrings i).tail := by
  obtain ⟨i, hi, hne⟩ := Finset.exists_ne_zero_of_sum_ne_zero (Nat.ne_of_gt hsum)
  exact ⟨i, fun he => hne ((space_eq_zero_iff (h.txin i hi)).mpr he)⟩

/-- A receive ring that has frames counts. -/
theorem rxSum_pos (h : Kept nmd s₀ s) {i : Fin 65536} (hi : i ∈ visited nmd.firstRxRing nmd.lastRxRing)
    (hne : (s.rxrings i).cur ≠ (s.rxrings i).tail) : 0 < rxSum space nmd s := by
  refine Nat.lt_of_lt_of_le ?_ (Finset.single_le_sum (f := fun i => space (s.rxrings i))
    (fun _ _ => Nat.zero_le _) hi)
  exact Nat.pos_of_ne_zero fun hz => hne ((space_eq_zero_iff (h.rxin i hi)).mp hz)

/-- What is left to do: the frames, and the way of the two indices. -/
noncomputable def toGo (nmd : NmDesc) (s : MoveState) : Nat :=
  rxSum space nmd s * 131073 +
    (stepsLeft (fun i => (s.rxrings i).cur ≠ (s.rxrings i).tail) nmd.lastRxRing s.rxringidx +
      stepsLeft (fun i => (s.txrings i).cur ≠ (s.txrings i).tail) nmd.lastTxRing s.txringidx)

theorem toGo_lt (hnm : nm.Documented) (h : Kept nmd s₀ s)
    (hrx : nmd.lastRxRing.val ≠ 65535 ∨ txSum space nmd s₀ < rxSum space nmd s₀)
    (htx : nmd.lastTxRing.val ≠ 65535 ∨ rxSum space nmd s₀ ≤ txSum space nmd s₀)
    (hstep : moveStep nm (some recvPacket) nmd s = some s') : toGo nmd s' < toGo nmd s := by
  have hbalance := h.balance
  obtain ⟨hcond, (⟨hr, rfl⟩ | ⟨hr, ht, rfl⟩) | ⟨hr, ht, rfl⟩⟩ := moveStep_cases hnm hstep
  · have hex : nmd.lastRxRing.val + 1 = 65536 → ∃ i, (s.rxrings i).cur ≠ (s.rxrings i).tail := fun hlast =>
      exists_rx_of_sum h (by omega)
    exact Nat.add_lt_add_left (Nat.add_lt_add_right (stepsLeft_succ_lt hcond.1 (not_not.mpr hr) hex) _) _
  · have hpos := rxSum_pos h (mem_visited.mpr ⟨hcond.1, h.rxidx⟩) hr
    have hex : nmd.lastTxRing.val + 1 = 65536 → ∃ i, (s.txrings i).cur ≠ (s.txrings i).tail := fun hlast =>
      exists_tx_of_sum h (by omega)
    exact Nat.add_lt_add_left (Nat.add_lt_add_left (stepsLeft_succ_lt hcond.2 (not_not.mpr ht) hex) _) _
  · obtain ⟨k, hk, -, hspaceR, -⟩ := pair_round hnm h hcond hr ht
    have hR := sum_update_add (mem_visited.mpr ⟨hcond.1, h.rxidx⟩) space s.rxrings
      (processRings nm.toNetmap (some recvPacket) (pairOf s)).2.rxring
    have hlt : rxSum space nmd { s with
        rxrings := Function.update s.rxrings s.rxringidx
          (processRings nm.toNetmap (some recvPacket) (pairOf s)).2.rxring
        txrings := Function.update s.txrings s.txringidx
          (processRings nm.toNetmap (some recvPacket) (pairOf s)).2.txring
        ph := (processRings nm.toNetmap (some recvPacket) (pairOf s)).2
        m := s.m + BitVec.ofNat 32 (processRings nm.toNetmap (some recvPacket) (pairOf s)).1 } + 1 ≤
        rxSum space nmd s := by
      simp only [rxSum] at hR ⊢
      omega
    have hleft : ∀ P last i, stepsLeft (n := 65536) P last i ≤ 65536 := stepsLeft_le
    unfold toGo
    dsimp only at hlt ⊢
    have h1 := hleft (fun i => (Function.update s.rxrings s.rxringidx
      (processRings nm.toNetmap (some recvPacket) (pairOf s)).2.rxring i).cur ≠ (Function.update s.rxrings s.rxringidx
      (processRings nm.toNetmap (some recvPacket) (pairOf s)).2.rxring i).tail) nmd.lastRxRing s.rxringidx
    have h2 := hleft (fun i => (Function.update s.txrings s.txringidx
      (processRings nm.toNetmap (some recvPacket) (pairOf s)).2.txring i).cur ≠ (Function.update s.txrings s.txringidx
      (processRings nm.toNetmap (some recvPacket) (pairOf s)).2.txring i).tail) nmd.lastTxRing s.txringidx
    omega

/-- Where the loop stands still, one side has no more. -/
theorem drained_of_none (h : Kept nmd s₀ s) (hnone : moveStep nm (some recvPacket) nmd s = none) :
    (∀ i, nmd.firstRxRing ≤ i → i ≤ nmd.lastRxRing → (s.rxrings i).cur = (s.rxrings i).tail) ∨
      ∀ i, nmd.firstTxRing ≤ i → i ≤ nmd.lastTxRing → (s.txrings i).cur = (s.txrings i).tail := by
  have hstop := moveStep_eq_none.mp hnone
  have hmax : ∀ i : Fin 65536, i.val ≤ 65535 := fun i => Nat.le_of_lt_succ i.isLt
  by_cases hr : s.rxringidx ≤ nmd.lastRxRing
  · refine .inr fun i hi hle => ?_
    have hlt := Fin.lt_def.mp (Fin.not_le.mp fun ht => hstop ⟨hr, ht⟩)
    have hle' := Fin.le_def.mp hle
    have hidx := hmax s.txringidx
    exact h.txdone (by omega) i hi (Fin.lt_def.mpr (by omega))
  · refine .inl fun i hi hle => ?_
    have hlt := Fin.lt_def.mp (Fin.not_le.mp hr)
    have hle' := Fin.le_def.mp hle
    have hidx := hmax s.rxringidx
    exact h.rxdone (by omega) i hi (Fin.lt_def.mpr (by omega))

/-- If the loop ends, `Ends` held when it began. -/
theorem ends_of_none (h : Kept nmd s₀ s) (hnone : moveStep nm (some recvPacket) nmd s = none) : Ends nmd s₀ := by
  have hstop := moveStep_eq_none.mp hnone
  have hmax : ∀ i : Fin 65536, i.val ≤ 65535 := fun i => Nat.le_of_lt_succ i.isLt
  have hbalance := h.balance
  by_cases hrange : nmd.lastRxRing < nmd.firstRxRing
  · exact .inl hrange
  by_cases htrange : nmd.lastTxRing < nmd.firstTxRing
  · exact .inr (.inl htrange)
  refine .inr (.inr ?_)
  have hmem : ∀ {first last i : Fin 65536}, last.val ≠ 65535 → i ∈ visited first last → first ≤ i ∧ i ≤ last := by
    intro first last i hlast hi
    obtain ⟨hle, hfirst⟩ := mem_visited.mp hi
    exact ⟨hfirst.resolve_right hlast, hle⟩
  by_cases hr : s.rxringidx ≤ nmd.lastRxRing
  · -- the transmit index has gone beyond its bound, and a receive ring still has frames
    have htlast := Fin.not_le.mp fun ht => hstop ⟨hr, ht⟩
    have hlt := Fin.lt_def.mp htlast
    have hidx := hmax s.txringidx
    have hlast : nmd.lastTxRing.val ≠ 65535 := by omega
    obtain ⟨hv, hne⟩ := h.txlast (Fin.not_lt.mp htrange) htlast
    have hpos := rxSum_pos h hv hne
    have hzero : txSum space nmd s = 0 := by
      refine Finset.sum_eq_zero fun i hi => (space_eq_zero_iff (h.txin i hi)).mpr ?_
      obtain ⟨hfirst, hle⟩ := hmem hlast hi
      exact h.txdone hlast i hfirst (Fin.lt_of_le_of_lt hle htlast)
    exact ⟨.inr (by omega), .inl hlast⟩
  · -- the receive index has gone beyond its bound
    have hrlast := Fin.not_le.mp hr
    have hlt := Fin.lt_def.mp hrlast
    have hidx := hmax s.rxringidx
    have hlast : nmd.lastRxRing.val ≠ 65535 := by omega
    have hzero : rxSum space nmd s = 0 := by
      refine Finset.sum_eq_zero fun i hi => (space_eq_zero_iff (h.rxin i hi)).mpr ?_
      obtain ⟨hfirst, hle⟩ := hmem hlast hi
      exact h.rxdone hlast i hfirst (Fin.lt_of_le_of_lt hle hrlast)
    exact ⟨.inl hlast, .inr (by omega)⟩

end Loop

/-- A call of `move` from `s₀` to `s`: every ring has moved, not past its tail; the buffers are the same; and no receive
ring has frames, or no transmit ring has space. -/
structure Conserved (nmd : NmDesc) (s₀ s : MoveState) : Prop where
  rx : ∀ i, Moved (s₀.rxrings i) (s.rxrings i)
  tx : ∀ i, Moved (s₀.txrings i) (s.txrings i)
  bufs : allBufs nmd s = allBufs nmd s₀
  drained : (∀ i, nmd.firstRxRing ≤ i → i ≤ nmd.lastRxRing → (s.rxrings i).cur = (s.rxrings i).tail) ∨
    ∀ i, nmd.firstTxRing ≤ i → i ≤ nmd.lastTxRing → (s.txrings i).cur = (s.txrings i).tail

/-- `move` ends, with nothing lost, exactly if the index that has to exceed its bound can. -/
theorem move_iff {nm : NetmapUser} (nmd : NmDesc) (rxrings txrings : Fin 65536 → NetmapRing) (ph : ProcessHandle)
    (hnm : nm.Documented) (hrx : ∀ i ∈ visited nmd.firstRxRing nmd.lastRxRing, (rxrings i).InRange)
    (htx : ∀ i ∈ visited nmd.firstTxRing nmd.lastTxRing, (txrings i).InRange) :
    (∃ fuel s, move nm (some recvPacket) nmd rxrings txrings ph fuel = some s ∧
      Conserved nmd (moveStart nmd rxrings txrings ph) s) ↔ Ends nmd (moveStart nmd rxrings txrings ph) := by
  have hstart := @kept_start nmd (moveStart nmd rxrings txrings ph) hrx htx rfl rfl
  have hinv : ∀ fuel s, move nm (some recvPacket) nmd rxrings txrings ph fuel = some s →
      Kept nmd (moveStart nmd rxrings txrings ph) s ∧ moveStep nm (some recvPacket) nmd s = none := fun fuel s hrun =>
    runLoop_inv (fun _ _ h hstep => kept_step hnm h hstep) fuel hstart hrun
  constructor
  · rintro ⟨fuel, s, hrun, -⟩
    obtain ⟨hkept, hnone⟩ := hinv fuel s hrun
    exact ends_of_none hkept hnone
  · intro hends
    have hstop : ∃ fuel s, move nm (some recvPacket) nmd rxrings txrings ph fuel = some s := by
      rcases hends with hr | ht | ⟨hr, ht⟩
      · have hnone : moveStep nm (some recvPacket) nmd (moveStart nmd rxrings txrings ph) = none :=
          moveStep_eq_none.mpr fun hcond => absurd hcond.1 (Fin.not_le.mpr hr)
        exact ⟨1, _, by rw [move, runLoop, hnone]⟩
      · have hnone : moveStep nm (some recvPacket) nmd (moveStart nmd rxrings txrings ph) = none :=
          moveStep_eq_none.mpr fun hcond => absurd hcond.2 (Fin.not_le.mpr ht)
        exact ⟨1, _, by rw [move, runLoop, hnone]⟩
      · obtain ⟨s, hs⟩ := runLoop_ends (fun s s' h hstep => ⟨kept_step hnm h hstep, toGo_lt hnm h hr ht hstep⟩)
          (toGo nmd (moveStart nmd rxrings txrings ph) + 1) _ hstart (Nat.lt_succ_self _)
        exact ⟨_, s, hs⟩
    obtain ⟨fuel, s, hrun⟩ := hstop
    obtain ⟨hkept, hnone⟩ := hinv fuel s hrun
    exact ⟨fuel, s, hrun, hkept.rx, hkept.tx, hkept.bufs, drained_of_none hkept hnone⟩

/-! ## One ring on each side -/

/-- The functions as netmap has them. -/
def netmapRings : NetmapUser where
  toNetmap := netmapUser
  nmRingEmpty r := r.cur == r.tail

theorem netmapRings_documented : netmapRings.Documented :=
  ⟨netmapUser_documented, fun _ => beq_iff_eq⟩

/-- A frame comes in on one ring, and goes out on another. -/
theorem move_iff_one : ∃ fuel s,
    move netmapRings (some recvPacket) ⟨0, 0, 0, 0⟩ (fun _ => (oneFrame bfdFrame).rxring)
      (fun _ => (oneFrame bfdFrame).txring) (oneFrame bfdFrame) fuel = some s ∧
    Conserved ⟨0, 0, 0, 0⟩ (moveStart ⟨0, 0, 0, 0⟩ (fun _ => (oneFrame bfdFrame).rxring)
      (fun _ => (oneFrame bfdFrame).txring) (oneFrame bfdFrame)) s := by
  have h := oneFrame_ready bfdFrame
  exact (move_iff ⟨0, 0, 0, 0⟩ _ _ _ netmapRings_documented (fun _ _ => ⟨h.rxcur, h.rxtail⟩)
    (fun _ _ => ⟨h.txcur, h.txtail⟩)).mpr (.inr (.inr ⟨.inl (by decide), .inl (by decide)⟩))

/-- An empty ring of one slot, and a ring with space in one of its two slots; all buffers are different. -/
def emptyRing (i : Fin 65536) : NetmapRing := ⟨1, 0, 0, 0, 0, fun j => ⟨2 + i.val + j, 0, 0⟩⟩

def freeRing (i : Fin 65536) : NetmapRing := ⟨2, 0, 0, 1, 0, fun j => ⟨65538 + 2 * i.val + j, 0, 0⟩⟩

/-- Nothing comes in on the rings up to 65535, and `move` does not end. -/
theorem move_runs_on : ¬ ∃ fuel s,
    move netmapRings (some recvPacket) ⟨0, 65535, 0, 0⟩ emptyRing freeRing (oneFrame []) fuel = some s ∧
    Conserved ⟨0, 65535, 0, 0⟩ (moveStart ⟨0, 65535, 0, 0⟩ emptyRing freeRing (oneFrame [])) s := by
  rintro ⟨fuel, s, hrun, -⟩
  have hrx : ∀ i, (emptyRing i).InRange := fun i => ⟨Nat.zero_lt_one, Nat.zero_lt_one⟩
  have hstart := @kept_start ⟨0, 65535, 0, 0⟩ (moveStart ⟨0, 65535, 0, 0⟩ emptyRing freeRing (oneFrame []))
    (fun i _ => hrx i) (fun i _ => ⟨Nat.zero_lt_two, Nat.one_lt_two⟩) rfl rfl
  obtain ⟨hkept, hnone⟩ :=
    runLoop_inv (fun _ _ h hstep => kept_step netmapRings_documented h hstep) fuel hstart hrun
  have hzero : rxSum space ⟨0, 65535, 0, 0⟩ (moveStart ⟨0, 65535, 0, 0⟩ emptyRing freeRing (oneFrame [])) = 0 :=
    Finset.sum_eq_zero fun i _ => (space_eq_zero_iff (hrx i)).mpr rfl
  rcases ends_of_none hkept hnone with h | h | ⟨h | h, -⟩
  · exact absurd h (by decide)
  · exact absurd h (by decide)
  · exact h rfl
  · omega

end NetworkBfd.BfddNetmap
