import NetworkBfd.BfddNetmap.Replies
import NetworkBfd.Lib.OnesComplement

/-!
# The checksum of the IP header

`recv_packet` swaps the addresses, which the checksum does not see, and sets the TTL, which it does
(`sum_replyFrame`). The header checksum of the reply is right exactly if the TTL was 255 before (`reply_checksum_iff`).
-/

namespace NetworkBfd.BfddNetmap

open Lib Lib.Bytes Smmr Bfdd

/-- The words of the IP header at `ip`, in network order. -/
def headerWords (buf : Bytes) (ip : Nat) : List Nat :=
  (List.range (2 * headerAt buf ip)).map fun i => net16 buf (ip + 2 * i)

/-- The words of the header, `ip_sum` with them, add up to all ones. -/
def ValidChecksum (buf : Bytes) (ip : Nat) : Prop := onesSum 0xffff (headerWords buf ip) = 0xffff

instance (buf : Bytes) (ip : Nat) : Decidable (ValidChecksum buf ip) := inferInstanceAs (Decidable (_ = _))

theorem validChecksum_iff {buf : Bytes} {ip : Nat} :
    ValidChecksum buf ip ↔ (headerWords buf ip).sum % 0xffff = 0 ∧ (headerWords buf ip).sum ≠ 0 := by
  refine onesSum_eq_max_iff (by decide) fun w hw => ?_
  obtain ⟨i, -, rfl⟩ := List.mem_map.mp hw
  exact Nat.le_of_lt_succ (net16_lt buf (ip + 2 * i))

section Reply

variable {buf : Bytes}

theorem ipHl_eq (buf : Bytes) : ipHl buf = headerAt buf (ipOff buf) := rfl

/-- The header of the reply: the TTL is set, the addresses have changed places. -/
theorem replyFrame_header {j : Nat} (hj : j < ipHl buf * 4) : replyFrame buf (ipOff buf + j) =
    if j = 8 then 0xff
    else if 12 ≤ j ∧ j < 16 then buf (ipOff buf + (j + 4))
    else if 16 ≤ j ∧ j < 20 then buf (ipOff buf + (j - 4))
    else buf (ipOff buf + j) := by
  have hip := ipOff_ge buf
  have hmac : ∀ i, 14 ≤ i → swapMac buf i = buf i := fun i hi => swapMac_of_behind (by omega)
  have hread : ∀ a k, k < 4 → (read (swapMac buf) a 4)[k]? = some (swapMac buf (a + k)) := by
    intro a k hk
    rw [getElem?_read, if_pos hk]
  rw [replyFrame_eq, patchBfd_of_before _ (by rw [bfdOff, udpOff]; omega), replyHeaders,
    putWord_of_outside (.inl (by rw [udpOff]; omega)), swapIp]
  split_ifs with h8 hdst hsrc
  · subst h8
    exact @write_of_inside _ _ [(0xff : Byte)] 0 (by simp)
  · rw [write_of_outside (by rw [List.length_singleton]; omega), swapBytes,
      write_of_outside (by rw [length_read]; omega), write, if_pos (by omega), hread _ _ (by omega), Option.getD_some,
      hmac _ (by omega)]
    congr 1
    omega
  · rw [write_of_outside (by rw [List.length_singleton]; omega), swapBytes, write, if_pos (by omega),
      hread _ _ (by omega), Option.getD_some, hmac _ (by omega)]
    congr 1
    omega
  · rw [write_of_outside (by rw [List.length_singleton]; omega), swapBytes_of_outside (by omega) (by omega),
      hmac _ (by omega)]

/-- The words of the header of the reply. -/
theorem net16_replyFrame {i : Nat} (hi : i < 2 * ipHl buf) : net16 (replyFrame buf) (ipOff buf + 2 * i) =
    if i = 4 then 0xff * 256 + (ipP buf).toNat
    else if 6 ≤ i ∧ i < 8 then net16 buf (ipOff buf + 2 * (i + 2))
    else if 8 ≤ i ∧ i < 10 then net16 buf (ipOff buf + 2 * (i - 2))
    else net16 buf (ipOff buf + 2 * i) := by
  rw [net16, Nat.add_assoc, replyFrame_header (by omega), replyFrame_header (by omega)]
  by_cases h4 : i = 4
  · subst h4
    rw [if_pos rfl, if_pos rfl, if_neg (by decide), if_neg (by decide), if_neg (by decide)]
    rfl
  rw [if_neg (by omega : ¬ 2 * i = 8), if_neg (by omega : ¬ 2 * i + 1 = 8), if_neg h4]
  by_cases h6 : 6 ≤ i ∧ i < 8
  · rw [if_pos (by omega), if_pos (by omega), if_pos h6, Nat.add_right_comm (2 * i), net16, Nat.mul_add,
      Nat.add_assoc (ipOff buf)]
  rw [if_neg (by omega : ¬(12 ≤ 2 * i ∧ 2 * i < 16)), if_neg (by omega : ¬(12 ≤ 2 * i + 1 ∧ 2 * i + 1 < 16)), if_neg h6]
  by_cases h8 : 8 ≤ i ∧ i < 10
  · rw [if_pos (by omega), if_pos (by omega), if_pos h8, net16, Nat.mul_sub, Nat.add_assoc,
      show 2 * i + 1 - 4 = 2 * i - 2 * 2 + 1 by omega]
  · rw [if_neg (by omega), if_neg (by omega), if_neg h8, net16, Nat.add_assoc]

/-- The sum of the header: the place of the TTL has the weight 256. -/
theorem sum_replyFrame (h5 : 5 ≤ ipHl buf) :
    (headerWords (replyFrame buf) (ipOff buf)).sum + (ipTtl buf).toNat * 256 =
      (headerWords buf (ipOff buf)).sum + 0xff * 256 := by
  have hhl : headerAt (replyFrame buf) (ipOff buf) = headerAt buf (ipOff buf) := by
    have hbyte := @replyFrame_header buf 0 (by omega)
    rw [headerAt, headerAt, ← Nat.add_zero (ipOff buf), hbyte, if_neg (by decide), if_neg (by decide),
      if_neg (by decide)]
  obtain ⟨k, hk⟩ : ∃ k, 2 * headerAt buf (ipOff buf) = 10 + k := Nat.exists_eq_add_of_le (by rw [← ipHl_eq]; omega)
  have hword : ∀ i, i < 10 + k → net16 (replyFrame buf) (ipOff buf + 2 * i) = _ := fun i hi =>
    net16_replyFrame (by rw [ipHl_eq]; omega)
  have hrest : (List.range k).map (fun i => net16 (replyFrame buf) (ipOff buf + 2 * (10 + i))) =
      (List.range k).map fun i => net16 buf (ipOff buf + 2 * (10 + i)) := by
    refine List.map_congr_left fun i hi => ?_
    rw [List.mem_range] at hi
    rw [hword (10 + i) (by omega), if_neg (by omega), if_neg (by omega), if_neg (by omega)]
  have httl : net16 buf (ipOff buf + 2 * 4) = (ipTtl buf).toNat * 256 + (ipP buf).toNat := rfl
  have hten : List.range 10 = [0, 1, 2, 3, 4, 5, 6, 7, 8, 9] := rfl
  unfold headerWords
  rw [hhl, hk, List.range_add, List.map_append, List.map_append, List.sum_append, List.sum_append, List.map_map,
    List.map_map, hten]
  simp only [Function.comp_def, hrest, List.map_cons, List.map_nil, List.sum_cons, List.sum_nil]
  rw [hword 0 (by omega), hword 1 (by omega), hword 2 (by omega), hword 3 (by omega), hword 4 (by omega),
    hword 5 (by omega), hword 6 (by omega), hword 7 (by omega), hword 8 (by omega), hword 9 (by omega)]
  simp only [Nat.reduceEqDiff, Nat.reduceLeDiff, Nat.reduceLT, and_self, and_true, and_false, if_true,
    if_false, Nat.reduceAdd, Nat.reduceSub, httl]
  omega

/-- The checksum of the header stays right exactly if the TTL was 255 already. -/
theorem reply_checksum_iff (h5 : 5 ≤ ipHl buf) (hsum : ValidChecksum buf (ipOff buf)) :
    ValidChecksum (replyFrame buf) (ipOff buf) ↔ ipTtl buf = 0xff := by
  have hsums := sum_replyFrame h5
  have hlt := (ipTtl buf).isLt
  have httl : ipTtl buf = 0xff ↔ (ipTtl buf).toNat = 255 := BitVec.toNat_inj.symm
  rw [validChecksum_iff] at hsum ⊢
  rw [httl]
  omega

end Reply

/-- A frame with the given TTL and checksum. -/
def routedFrame (ttl hi lo : Byte) : List Byte :=
  [1, 1, 1, 1, 1, 1, 2, 2, 2, 2, 2, 2, 0x08, 0x00,
    0x45, 0, 0, 52, 0, 0, 0, 0, ttl, 17, hi, lo, 10, 0, 0, 1, 10, 0, 0, 2,
    0xc0, 0x00, 0x0e, 0xc8, 0, 32, 0, 0,
    0x20, 0x40, 3, 24, 0, 0, 0, 1, 0, 0, 0, 0, 0, 0, 0, 0, 0, 0, 0, 0, 0, 0, 0, 0]

/-- TTL 255. -/
theorem reply_checksum_iff_max : 5 ≤ ipHl (frame (routedFrame 0xff 0xa7 0xb6)) ∧
    ValidChecksum (frame (routedFrame 0xff 0xa7 0xb6)) 14 ∧
    ValidChecksum (replyFrame (frame (routedFrame 0xff 0xa7 0xb6))) 14 := by
  have h5 : 5 ≤ ipHl (frame (routedFrame 0xff 0xa7 0xb6)) := by decide
  have hsum : ValidChecksum (frame (routedFrame 0xff 0xa7 0xb6)) 14 := by decide
  exact ⟨h5, hsum, (reply_checksum_iff h5 hsum).mpr (by decide)⟩

/-- TTL 64, as from an ordinary sender. -/
theorem reply_checksum_wrong : isBfdPacket (frame (routedFrame 64 0x66 0xb7)) 66 = 0 ∧
    5 ≤ ipHl (frame (routedFrame 64 0x66 0xb7)) ∧ ValidChecksum (frame (routedFrame 64 0x66 0xb7)) 14 ∧
    ¬ ValidChecksum (replyFrame (frame (routedFrame 64 0x66 0xb7))) 14 := by
  decide

end NetworkBfd.BfddNetmap
