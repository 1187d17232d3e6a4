import NetworkBfd.Lib.LittleEndian
import NetworkBfd.Smmr.Basic

/-!
# The types of bfdd

The BFD control packet with its bit-fields, and the records of the session table as they lie in memory on a
little-endian host: the session (`bfd_sess_t`, 112 bytes with its padding), the summary (`bfd_sess_manage_t`), the
key (`bfd_sess_key_t`) and the key list of one group (`bfd_sess_key_list_t`).
-/

namespace NetworkBfd.Bfdd

open Lib Smmr

@[simp] def bfdMinpktlen : Nat := 24
@[simp] def bfdVersion : BitVec 3 := 1
@[simp] def bfddfltDetectmult : BitVec 32 := 3
@[simp] def bfddfltDesiredmintx : BitVec 32 := 1000000
@[simp] def bfddfltRequiredminrx : BitVec 32 := 1000000
@[simp] def bfddfltUdpport : BitVec 16 := 3784

@[simp] def bfdstateAdmindown : Nat := 0
@[simp] def bfdstateDown : Nat := 1
@[simp] def bfdstateInit : Nat := 2
@[simp] def bfdstateUp : Nat := 3
@[simp] def bfddiagNeighborsaiddown : BitVec 32 := 3
@[simp] def bfdOn : BitVec 32 := 1
@[simp] def bfdOff : BitVec 32 := 0

@[simp] def sessionKeysMange : BitVec 32 := 1000
@[simp] def sessionKeysBase : BitVec 32 := 2000
@[simp] def sessionKeysMax : Nat := 32
@[simp] def sessionKeysListcnt : Nat := 128

/-! ## Packets -/

/-- `bfd_t`. -/
structure Bfd where
  diag : BitVec 5
  vers : BitVec 3
  multipoint : BitVec 1
  demand : BitVec 1
  auth : BitVec 1
  cpi : BitVec 1
  final : BitVec 1
  poll : BitVec 1
  state : BitVec 2
  detectMult : BitVec 8
  length : BitVec 8
  myDiscr : BitVec 32
  yourDiscr : BitVec 32
  minTxInt : BitVec 32
  minRxInt : BitVec 32
  minEchoRxInt : BitVec 32
deriving DecidableEq, Repr

/-- The word at offset `i` of a packet. -/
def u32At (pkt : List Byte) (i : Nat) : BitVec 32 :=
  BitVec.ofNat 32 (ofBytes [pkt.getD i 0, pkt.getD (i + 1) 0, pkt.getD (i + 2) 0, pkt.getD (i + 3) 0])

/-- `(bfd_ptr)pkt`: bit-fields start at the low bit of their byte. -/
def Bfd.ofPacket (pkt : List Byte) : Bfd :=
  let flags := pkt.getD 0 0
  let bits := pkt.getD 1 0
  { diag := flags.extractLsb' 0 5
    vers := flags.extractLsb' 5 3
    multipoint := bits.extractLsb' 0 1
    demand := bits.extractLsb' 1 1
    auth := bits.extractLsb' 2 1
    cpi := bits.extractLsb' 3 1
    final := bits.extractLsb' 4 1
    poll := bits.extractLsb' 5 1
    state := bits.extractLsb' 6 2
    detectMult := pkt.getD 2 0
    length := pkt.getD 3 0
    myDiscr := u32At pkt 4
    yourDiscr := u32At pkt 8
    minTxInt := u32At pkt 12
    minRxInt := u32At pkt 16
    minEchoRxInt := u32At pkt 20 }

/-- `htonl` and `ntohl` on a little-endian host. -/
def htonl (v : BitVec 32) : BitVec 32 :=
  v.extractLsb' 0 8 ++ v.extractLsb' 8 8 ++ v.extractLsb' 16 8 ++ v.extractLsb' 24 8

/-- `htons` and `ntohs` on a little-endian host. -/
def htons (v : BitVec 16) : BitVec 16 := v.extractLsb' 0 8 ++ v.extractLsb' 8 8

/-- Bit `i` comes from the byte at the other end. -/
theorem getLsbD_htonl (v : BitVec 32) {i : Nat} (hi : i < 32) :
    (htonl v).getLsbD i = v.getLsbD (24 - i / 8 * 8 + i % 8) := by
  simp only [htonl, BitVec.getLsbD_append, BitVec.getLsbD_extractLsb']
  split_ifs with h1 h2 h3
  · rw [decide_eq_true h1, Bool.true_and]
    congr 1
    omega
  · rw [decide_eq_true h2, Bool.true_and]
    congr 1
    omega
  · rw [decide_eq_true h3, Bool.true_and]
    congr 1
    omega
  · rw [decide_eq_true (by omega), Bool.true_and]
    congr 1
    omega

theorem htonl_htonl (v : BitVec 32) : htonl (htonl v) = v := by
  apply BitVec.eq_of_getLsbD_eq
  intro i hi
  rw [getLsbD_htonl _ hi, getLsbD_htonl _ (by omega)]
  congr 1
  omega

theorem getLsbD_htons (v : BitVec 16) {i : Nat} (hi : i < 16) :
    (htons v).getLsbD i = v.getLsbD (8 - i / 8 * 8 + i % 8) := by
  simp only [htons, BitVec.getLsbD_append, BitVec.getLsbD_extractLsb']
  split_ifs with h1
  · rw [decide_eq_true h1, Bool.true_and]
    congr 1
    omega
  · rw [decide_eq_true (by omega), Bool.true_and]
    congr 1
    omega

theorem htons_htons (v : BitVec 16) : htons (htons v) = v := by
  apply BitVec.eq_of_getLsbD_eq
  intro i hi
  rw [getLsbD_htons _ hi, getLsbD_htons _ (by omega)]
  congr 1
  omega

/-! ## Records of the session table -/

/-- `struct sockaddr_in`. -/
structure SockaddrIn where
  family : BitVec 16
  port : BitVec 16
  addr : BitVec 32
  zero : BitVec 64
deriving DecidableEq, Inhabited, Repr

/-- `bfd_sess_key_t`. -/
structure SessKey where
  addr : BitVec 32
  port : BitVec 16
  padd : BitVec 16
deriving DecidableEq, Repr

instance : Inhabited SessKey := ⟨0, 0, 0⟩

/-- `bfd_sess_t`, with the four bytes before `detect_time` that no field names. -/
structure BfdSess where
  sessionState : BitVec 32
  remoteSessionState : BitVec 32
  localDiscr : BitVec 32
  remoteDiscr : BitVec 32
  localDiag : BitVec 32
  desiredMinTxInterval : BitVec 32
  requiredMinRxInterval : BitVec 32
  remoteMinRxInterval : BitVec 32
  demandMode : BitVec 32
  remoteDemandMode : BitVec 32
  detectMult : BitVec 32
  authType : BitVec 32
  rcvAuthSeq : BitVec 32
  xmitAuthSeq : BitVec 32
  authSeqKnown : BitVec 32
  mustCeaseTxEcho : BitVec 32
  mustTerminate : BitVec 32
  padding : BitVec 32
  detectTime : BitVec 64
  pollbitOn : BitVec 32
  receivedMinRxInterval : BitVec 32
  clientAddr : SockaddrIn
  clientAddrlen : BitVec 32
  attached : BitVec 32
deriving DecidableEq, Inhabited, Repr

/-- `bfd_sess_manage_t`. -/
structure SessManage where
  keysBits : BitVec 32
  keysIncnt : Fin sessionKeysMax → BitVec 32

/-- `bfd_sess_key_list_t`. -/
structure SessKeyList where
  keys : Fin sessionKeysListcnt → SessKey

def u16 : Codec (BitVec 16) := Codec.word 16 2 (by decide)

def u32 : Codec (BitVec 32) := Codec.word 32 4 (by decide)

def u64 : Codec (BitVec 64) := Codec.word 64 8 (by decide)

def SockaddrIn.codec : Codec SockaddrIn :=
  (u16.pair (u16.pair (u32.pair u64))).iso
    (fun a => (a.family, a.port, a.addr, a.zero)) (fun ⟨f, p, a, z⟩ => ⟨f, p, a, z⟩) fun _ => rfl

def SessKey.codec : Codec SessKey :=
  (u32.pair (u16.pair u16)).iso (fun k => (k.addr, k.port, k.padd)) (fun ⟨a, p, z⟩ => ⟨a, p, z⟩) fun _ => rfl

def SessManage.codec : Codec SessManage :=
  (u32.pair (u32.array sessionKeysMax)).iso (fun m => (m.keysBits, m.keysIncnt)) (fun ⟨b, c⟩ => ⟨b, c⟩) fun _ => rfl

def SessKeyList.codec : Codec SessKeyList :=
  (SessKey.codec.array sessionKeysListcnt).iso (fun l => l.keys) (fun k => ⟨k⟩) fun _ => rfl

def BfdSess.codec : Codec BfdSess :=
  (u32.pair (u32.pair (u32.pair (u32.pair (u32.pair (u32.pair (u32.pair (u32.pair (u32.pair (u32.pair (u32.pair
    (u32.pair (u32.pair (u32.pair (u32.pair (u32.pair (u32.pair (u32.pair (u64.pair (u32.pair (u32.pair
    (SockaddrIn.codec.pair (u32.pair u32))))))))))))))))))))))).iso
    (fun s => (s.sessionState, s.remoteSessionState, s.localDiscr, s.remoteDiscr, s.localDiag, s.desiredMinTxInterval,
      s.requiredMinRxInterval, s.remoteMinRxInterval, s.demandMode, s.remoteDemandMode, s.detectMult, s.authType,
      s.rcvAuthSeq, s.xmitAuthSeq, s.authSeqKnown, s.mustCeaseTxEcho, s.mustTerminate, s.padding, s.detectTime,
      s.pollbitOn, s.receivedMinRxInterval, s.clientAddr, s.clientAddrlen, s.attached))
    (fun ⟨a, b, c, d, e, f, g, h, i, j, k, l, m, n, o, p, q, r, s, t, u, v, w, x⟩ =>
      ⟨a, b, c, d, e, f, g, h, i, j, k, l, m, n, o, p, q, r, s, t, u, v, w, x⟩)
    fun _ => rfl

@[simp] theorem width_sessKey : SessKey.codec.width = 8 := rfl
@[simp] theorem width_sessManage : SessManage.codec.width = 132 := rfl
@[simp] theorem width_sessKeyList : SessKeyList.codec.width = 1024 := rfl
@[simp] theorem width_bfdSess : BfdSess.codec.width = 112 := rfl
@[simp] theorem width_u32 : u32.width = 4 := rfl

end NetworkBfd.Bfdd
