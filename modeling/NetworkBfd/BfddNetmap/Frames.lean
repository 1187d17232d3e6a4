import NetworkBfd.BfddNetmap.Rings

/-!
# Which frames is_bfd_packet accepts

What a frame with a BFD control packet is, from its bytes in network order (`CarriesBfd`), and the frames on which
`is_bfd_packet` says something else (`isBfdPacket_exact_iff`): it accepts no tagged frame, and of an untagged one it
checks neither the version and the length of the IP header nor the end of the packet.
-/

namespace NetworkBfd.BfddNetmap

open Lib Lib.Bytes Smmr Bfdd

/-! ## Network order -/

/-- The two bytes at `off`, first byte first. -/
def net16 (buf : Bytes) (off : Nat) : Nat := (buf off).toNat * 256 + (buf (off + 1)).toNat

theorem net16_lt (buf : Bytes) (off : Nat) : net16 buf off < 65536 := by
  have h0 := (buf off).isLt
  have h1 := (buf (off + 1)).isLt
  unfold net16
  omega

theorem toNat_htons (v : BitVec 16) : (htons v).toNat = v.toNat % 256 * 256 + v.toNat / 256 := by
  have hlt := v.isLt
  have hhi : v.toNat / 256 % 256 = v.toNat / 256 := Nat.mod_eq_of_lt (by omega)
  rw [htons, BitVec.toNat_append, BitVec.extractLsb'_toNat, BitVec.extractLsb'_toNat, ← Nat.shiftLeft_add_eq_or_of_lt,
    Nat.shiftLeft_eq, Nat.shiftRight_zero, Nat.shiftRight_eq_div_pow]
  · simp only [Nat.reducePow, hhi]
  · exact Nat.mod_lt _ (by decide)

theorem toNat_u16At (buf : Bytes) (off : Nat) :
    (u16At buf off).toNat = (buf off).toNat + 256 * (buf (off + 1)).toNat := by
  have h0 := (buf off).isLt
  have h1 := (buf (off + 1)).isLt
  have hword : word buf off 2 = (buf off).toNat + 256 * (buf (off + 1)).toNat := by
    simp only [word, Bytes.read, ofBytes, Nat.mul_zero, Nat.add_zero]
  rw [u16At, hword, BitVec.toNat_ofNat, Nat.mod_eq_of_lt (by omega)]

/-- `ntohs` of two bytes in memory. -/
theorem toNat_htons_u16At (buf : Bytes) (off : Nat) : (htons (u16At buf off)).toNat = net16 buf off := by
  have h0 := (buf off).isLt
  rw [toNat_htons, toNat_u16At, net16]
  omega

theorem htons_u16At_eq_iff {buf : Bytes} {off : Nat} {v : BitVec 16} :
    htons (u16At buf off) = v ↔ net16 buf off = v.toNat := by
  rw [← toNat_htons_u16At]
  exact BitVec.toNat_inj.symm

theorem u16At_eq_htons_iff {buf : Bytes} {off : Nat} {v : BitVec 16} :
    u16At buf off = htons v ↔ net16 buf off = v.toNat := by
  rw [← htons_u16At_eq_iff]
  constructor
  · intro h
    rw [h, htons_htons]
  · intro h
    rw [← h, htons_htons]

/-! ## Frames with a control packet -/

/-- `ip_v` and `ip_hl` of a header at `ip`. -/
def versionAt (buf : Bytes) (ip : Nat) : Nat := ((buf ip).extractLsb' 4 4).toNat

def headerAt (buf : Bytes) (ip : Nat) : Nat := ((buf ip).extractLsb' 0 4).toNat

/-- UDP to the port of BFD, with the length of a control packet, behind a header of `hl` words at `ip`. -/
structure BfdPorts (buf : Bytes) (ip : Nat) : Prop where
  protocol : buf (ip + 9) = ipprotoUdp
  port : net16 buf (ip + headerAt buf ip * 4 + 2) = 3784
  length : net16 buf (ip + headerAt buf ip * 4 + 4) = 32

/-- An IPv4 header at `ip` with a whole control packet behind it. -/
structure BfdDatagram (buf : Bytes) (len ip : Nat) : Prop extends BfdPorts buf ip where
  version : versionAt buf ip = 4
  header : 5 ≤ headerAt buf ip
  whole : ip + headerAt buf ip * 4 + sizeofUdphdr + sizeofBfd ≤ len

structure Untagged (buf : Bytes) (len : Nat) : Prop where
  type : net16 buf 12 = 0x0800
  datagram : BfdDatagram buf len 14

structure Tagged (buf : Bytes) (len : Nat) : Prop where
  tag : net16 buf 12 = 0x8100
  type : net16 buf 16 = 0x0800
  datagram : BfdDatagram buf len 18

/-- The first `len` bytes are a frame that carries a control packet. -/
def CarriesBfd (buf : Bytes) (len : Nat) : Prop := Untagged buf len ∨ Tagged buf len

/-- An untagged frame for the port of BFD whose IP header is none, or whose control packet ends behind `len`. -/
structure Malformed (buf : Bytes) (len : Nat) : Prop extends BfdPorts buf 14 where
  type : net16 buf 12 = 0x0800
  ports : 14 + headerAt buf 14 * 4 + sizeofUdphdr ≤ len
  wrong : versionAt buf 14 ≠ 4 ∨ headerAt buf 14 < 5 ∨ len < 14 + headerAt buf 14 * 4 + sizeofUdphdr + sizeofBfd

section Accept

variable {buf : Bytes} {len : Nat}

theorem etherType_eq_iff {v : BitVec 16} : etherType buf = htons v ↔ net16 buf 12 = v.toNat := u16At_eq_htons_iff

/-- Without a tag the IP header comes right behind the Ethernet header. -/
theorem ipOff_untagged (h : net16 buf 12 = 0x0800) : ipOff buf = 14 := by
  have hvlan : ¬ etherType buf = htons ethertypeVlan := by
    rw [etherType_eq_iff, h]
    decide
  rw [ipOff, lenVlan, if_neg hvlan]

/-- What `is_bfd_packet` asks for. -/
theorem isBfdPacket_eq_zero_iff : isBfdPacket buf len = 0 ↔
    net16 buf 12 = 0x0800 ∧ 14 + headerAt buf 14 * 4 + sizeofUdphdr ≤ len ∧ BfdPorts buf 14 := by
  have hip : etherType buf = htons ethertypeIp ↔ net16 buf 12 = 0x0800 := etherType_eq_iff
  have harp : etherType buf = htons ethertypeArp ↔ net16 buf 12 = 0x0806 := etherType_eq_iff
  unfold isBfdPacket
  simp only [hip, harp]
  by_cases htype : net16 buf 12 = 0x0800
  · have hoff := ipOff_untagged htype
    have hlen : ∀ k, sizeofEtherHeader + lenVlan buf + k = 14 + k := by
      intro k
      rw [← hoff]
      rfl
    have hport : htons (u16At buf (14 + headerAt buf 14 * 4 + 2)) = bfddfltUdpport ↔
        net16 buf (14 + headerAt buf 14 * 4 + 2) = 3784 := htons_u16At_eq_iff
    have hulen : htons (u16At buf (14 + headerAt buf 14 * 4 + 4)) = BitVec.ofNat 16 (sizeofBfd + sizeofUdphdr) ↔
        net16 buf (14 + headerAt buf 14 * 4 + 4) = 32 := htons_u16At_eq_iff
    have hne : ¬ net16 buf 12 = 0x0806 := by omega
    have hhl : ipHl buf = headerAt buf 14 := by rw [ipHl, hoff, headerAt]
    simp only [Nat.add_assoc, hlen, udpOff, hhl, ipP, ipTtl, hoff]
    simp only [← Nat.add_assoc, hport, hulen]
    rw [if_neg fun hn => hne hn.2]
    constructor
    · intro h
      split_ifs at h with hicmp hudp hdst
      · exact ⟨htype, hudp.1, hudp.2.2.2, hdst, hudp.2.1⟩
    · rintro ⟨-, hend, hproto, hdst, hlength⟩
      rw [if_neg, if_pos ⟨hend, hlength, htype, hproto⟩, if_pos hdst]
      rintro ⟨-, -, hicmp, -⟩
      exact absurd (hicmp.symm.trans hproto) (by decide)
  · constructor
    · intro h
      split_ifs at h with h1 h2 h3
      exact absurd h3.2.2.1 htype
    · exact fun h => absurd h.1 htype

/-- `is_bfd_packet` accepts exactly the frames that carry a control packet, except that it refuses every tagged one
and takes the malformed ones. -/
theorem isBfdPacket_exact_iff (buf : Bytes) (len : Nat) :
    (isBfdPacket buf len = 0 ↔ CarriesBfd buf len) ↔ ¬ Tagged buf len ∧ ¬ Malformed buf len := by
  rw [isBfdPacket_eq_zero_iff]
  constructor
  · intro hiff
    refine ⟨fun htagged => ?_, fun hbad => ?_⟩
    · have htype := (hiff.mpr (.inr htagged)).1
      have htag := htagged.tag
      omega
    · rcases hiff.mp ⟨hbad.type, hbad.ports, hbad.toBfdPorts⟩ with h | h
      · rcases hbad.wrong with hv | hhl | hend
        · exact hv h.datagram.version
        · exact absurd h.datagram.header (Nat.not_le.mpr hhl)
        · exact absurd h.datagram.whole (Nat.not_le.mpr hend)
      · have htag := h.tag
        have htype := hbad.type
        omega
  · rintro ⟨htagged, hbad⟩
    constructor
    · rintro ⟨htype, hend, hports⟩
      have hright : ¬(versionAt buf 14 ≠ 4 ∨ headerAt buf 14 < 5 ∨
          len < 14 + headerAt buf 14 * 4 + sizeofUdphdr + sizeofBfd) := fun hwrong => hbad ⟨hports, htype, hend, hwrong⟩
      rw [not_or, not_or, not_not, Nat.not_lt, Nat.not_lt] at hright
      exact .inl ⟨htype, hports, hright.1, hright.2.1, hright.2.2⟩
    · rintro (h | h)
      · exact ⟨h.type, Nat.le_trans (Nat.le_add_right _ _) h.datagram.whole, h.datagram.toBfdPorts⟩
      · exact absurd h htagged

end Accept

/-- The bytes of a frame in a buffer of zeros. -/
def frame (bytes : List Byte) : Bytes := fun i => bytes.getD i 0

/-- A control packet in state Down behind one tag. -/
def taggedFrame : List Byte :=
  [1, 1, 1, 1, 1, 1, 2, 2, 2, 2, 2, 2, 0x81, 0x00, 0x00, 0x05, 0x08, 0x00,
    0x45, 0, 0, 52, 0, 0, 0, 0, 0xff, 17, 0, 0, 10, 0, 0, 1, 10, 0, 0, 2,
    0xc0, 0x00, 0x0e, 0xc8, 0, 32, 0, 0,
    0x20, 0x40, 3, 24, 0, 0, 0, 1, 0, 0, 0, 0, 0, 0, 0, 0, 0, 0, 0, 0, 0, 0, 0, 0]

/-- The headers of a control packet, which is not there. -/
def shortFrame : List Byte :=
  [1, 1, 1, 1, 1, 1, 2, 2, 2, 2, 2, 2, 0x08, 0x00,
    0x45, 0, 0, 52, 0, 0, 0, 0, 0xff, 17, 0, 0, 10, 0, 0, 1, 10, 0, 0, 2,
    0xc0, 0x00, 0x0e, 0xc8, 0, 32, 0, 0]

/-- The tagged frame is refused, and the short one accepted. -/
theorem isBfdPacket_inexact :
    ¬(isBfdPacket (frame taggedFrame) 70 = 0 ↔ CarriesBfd (frame taggedFrame) 70) ∧
    ¬(isBfdPacket (frame shortFrame) 42 = 0 ↔ CarriesBfd (frame shortFrame) 42) := by
  constructor
  · intro hiff
    have hcarries : CarriesBfd (frame taggedFrame) 70 :=
      .inr ⟨by decide, by decide, ⟨by decide, by decide, by decide⟩, by decide, by decide, by decide⟩
    exact absurd (hiff.mpr hcarries) (by decide)
  · intro hiff
    rcases hiff.mp (by decide) with h | h
    · exact absurd h.datagram.whole (by decide)
    · exact absurd h.tag (by decide)

end NetworkBfd.BfddNetmap
