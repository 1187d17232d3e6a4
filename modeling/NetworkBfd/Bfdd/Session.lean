import NetworkBfd.Bfdd.Types

/-!
# The session table

The functions of `bfdd_session.c` over a key-value store (`Kv`). The store keeps an exact map from key bytes to value
bytes; each `store` fails if the next entry of `fails` says so. Three kinds of records share it: the summary under
`SESSION_KEYS_MANGE`, the key list of group `g` under `SESSION_KEYS_BASE + g`, and each session under its
address and port.
-/

namespace NetworkBfd.Bfdd

open Lib Smmr

/-- The key of a peer: `memset(&keyt,0,..)` and the two fields that are set. -/
def keyt (cAddr : SockaddrIn) : SessKey := ⟨cAddr.addr, cAddr.port, 0⟩

/-- `safe_hash(..) % SESSION_KEYS_MAX`. -/
def hashed (key : SessKey) : Fin sessionKeysMax :=
  ⟨(safeHash (SessKey.codec.encode key)).toNat % sessionKeysMax, Nat.mod_lt _ (by decide)⟩

/-- The list at an index that may be past its end. -/
def keyAt (list : SessKeyList) (n : Nat) : SessKey :=
  if h : n < sessionKeysListcnt then list.keys ⟨n, h⟩ else default

/-- `for(n = 0;n < MIN(SESSION_KEYS_LISTCNT,mng.keys_incnt[hashed]);n++)`: is the key listed? -/
def isupdate (list : SessKeyList) (incnt : BitVec 32) (key : SessKey) : Bool :=
  (List.range (min sessionKeysListcnt incnt.toNat)).any fun n => keyAt list n == key

/-! ## The store -/

/-- The database as its callers see it. -/
structure Kv where
  data : List Byte → Option (List Byte)
  fails : List Bool

namespace Kv

def empty : Kv := ⟨fun _ => none, []⟩

def store (kv : Kv) (key val : List Byte) : Ret × Kv :=
  match kv.fails with
  | true :: rest => (.ng, { kv with fails := rest })
  | _ => (.ok, ⟨Function.update kv.data key (some val), kv.fails.tail⟩)

/-- `search` with `*val` set (`held`) fails. -/
def search (kv : Kv) (key : List Byte) (held : Bool) : Option (List Byte) :=
  if held then none else kv.data key

/-- `STORE_U32KEY`. -/
def storeU32key (kv : Kv) (keyid : BitVec 32) (val : List Byte) : Ret × Kv :=
  kv.store (u32.encode keyid) val

/-- `get_sess_manage`. -/
def getSessManage (kv : Kv) : Option SessManage :=
  match kv.search (u32.encode sessionKeysMange) false with
  | none => none
  | some resp => if resp.length ≠ SessManage.codec.width then none else some (SessManage.codec.decode resp)

/-- `get_sess_manage_keylist`. -/
def getSessManageKeylist (kv : Kv) (key : BitVec 32) : Option SessKeyList :=
  match kv.search (u32.encode key) false with
  | none => none
  | some resp => if resp.length ≠ SessKeyList.codec.width then none else some (SessKeyList.codec.decode resp)

/-! ## Setting up -/

/-- The loop of `initialize_bfd_session_table` over the groups from `n` on. -/
def storeEmptyLists (kv : Kv) : Nat → Nat → Ret × Kv
  | 0, _ => (.ok, kv)
  | steps + 1, n =>
    match kv.storeU32key (sessionKeysBase + BitVec.ofNat 32 n) (SessKeyList.codec.encode ⟨fun _ => default⟩) with
    | (.ok, kv) => storeEmptyLists kv steps (n + 1)
    | (_, kv) => (.warn, kv)

/-- `initialize_bfd_session_table` on a fresh database. -/
def initializeBfdSessionTable (kv : Kv) : Ret × Kv :=
  match kv.storeU32key sessionKeysMange (SessManage.codec.encode ⟨0, fun _ => 0⟩) with
  | (.ok, kv) => storeEmptyLists kv sessionKeysMax 0
  | (_, kv) => (.warn, kv)

/-! ## Sessions -/

/-- `insert_session`. -/
def insertSession (kv : Kv) (psess : BfdSess) (cAddr : SockaddrIn) (cAddrlen : BitVec 32) : Ret × Kv :=
  if cAddrlen = 0 then (.ng, kv)
  else
    let key := keyt cAddr
    let g := hashed key
    let listid := sessionKeysBase + BitVec.ofNat 32 g
    match kv.getSessManage with
    | none => (.ng, kv)
    | some mng =>
      match kv.getSessManageKeylist listid with
      | none => (.ng, kv)
      | some list =>
        if sessionKeysListcnt ≤ (mng.keysIncnt g).toNat then (.ng, kv)
        else
          match kv.store (SessKey.codec.encode key) (BfdSess.codec.encode psess) with
          | (.ok, kv) =>
            if isupdate list (mng.keysIncnt g) key then (.ok, kv)
            else
              let curidx := (mng.keysIncnt g).toNat
              let mng : SessManage := ⟨mng.keysBits ||| (1#32 <<< (g : Nat)),
                Function.update mng.keysIncnt g (mng.keysIncnt g + 1)⟩
              let list : SessKeyList := ⟨fun n => if (n : Nat) = curidx then key else list.keys n⟩
              match kv.storeU32key sessionKeysMange (SessManage.codec.encode mng) with
              | (.ok, kv) =>
                match kv.storeU32key listid (SessKeyList.codec.encode list) with
                | (.ok, kv) => (.ok, kv)
                | (_, kv) => (.warn, kv)
              | (_, kv) => (.warn, kv)
          | (ret, kv) => (ret, kv)

/-- `find_session`. -/
def findSession (kv : Kv) (cAddr : SockaddrIn) (cAddrlen : BitVec 32) : Option BfdSess :=
  if cAddrlen = 0 then none
  else
    match kv.search (SessKey.codec.encode (keyt cAddr)) false with
    | none => none
    | some resp => if resp.length ≠ BfdSess.codec.width then none else some (BfdSess.codec.decode resp)

section Iterate

variable {σ : Type}

/-- The loop over the listed keys of one group. `held` is `resp_sess != NULL`; the key is passed on to the callback for
the record only. -/
def iterateGroup (kv : Kv) (itr : SessKey → BfdSess → σ → Int × σ) (list : SessKeyList) :
    List Nat → Bool → σ → Bool × σ
  | [], held, u => (held, u)
  | m :: ms, held, u =>
    match kv.search (SessKey.codec.encode (keyAt list m)) held with
    | none => iterateGroup kv itr list ms held u
    | some resp =>
      if resp.length = BfdSess.codec.width then
        let (ret, u) := itr (keyAt list m) (BfdSess.codec.decode resp) u
        if ret ≠ 0 then (true, u) else iterateGroup kv itr list ms false u
      else iterateGroup kv itr list ms true u

/-- The loop over the groups. -/
def iterateGroups (kv : Kv) (itr : SessKey → BfdSess → σ → Int × σ) (mng : SessManage) :
    List (Fin sessionKeysMax) → Bool → σ → σ
  | [], _, u => u
  | n :: ns, held, u =>
    if mng.keysBits.getLsbD n ∧ mng.keysIncnt n ≠ 0 then
      match kv.getSessManageKeylist (sessionKeysBase + BitVec.ofNat 32 n) with
      | none => iterateGroups kv itr mng ns held u
      | some list =>
        let (held, u) := iterateGroup kv itr list (List.range (mng.keysIncnt n).toNat) held u
        iterateGroups kv itr mng ns held u
    else iterateGroups kv itr mng ns held u

/-- `iterate_all_session`. -/
def iterateAllSession (kv : Kv) (itr : SessKey → BfdSess → σ → Int × σ) (u : σ) : σ :=
  match kv.getSessManage with
  | none => u
  | some mng => iterateGroups kv itr mng (List.finRange sessionKeysMax) false u

end Iterate

end Kv

/-- `init_session` on the bytes that `sess` held before. -/
def initSession (sess : BfdSess) (cAddr : SockaddrIn) (cAddrlen : BitVec 32) : BfdSess :=
  { sess with
    sessionState := BitVec.ofNat 32 bfdstateDown
    remoteSessionState := BitVec.ofNat 32 bfdstateDown
    localDiscr := bfdOff
    remoteDiscr := bfdOff
    localDiag := bfdOff
    desiredMinTxInterval := bfddfltDesiredmintx
    requiredMinRxInterval := bfddfltRequiredminrx
    remoteMinRxInterval := bfdOff
    demandMode := bfdOff
    remoteDemandMode := bfdOff
    detectMult := bfddfltDetectmult
    authType := bfdOff
    rcvAuthSeq := bfdOff
    xmitAuthSeq := bfdOff
    authSeqKnown := bfdOff
    mustCeaseTxEcho := bfdOff
    mustTerminate := bfdOff
    detectTime := 0
    pollbitOn := bfdOff
    receivedMinRxInterval := bfdOff
    attached := bfdOff
    clientAddr := { sess.clientAddr with
      port := htons bfddfltUdpport
      family := 2
      addr := cAddr.addr }
    clientAddrlen := cAddrlen }

end NetworkBfd.Bfdd
