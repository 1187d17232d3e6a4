import NetworkBfd.Bfdd.Session
import NetworkBfd.Lib.Visits
import Mathlib.Data.List.Nodup

/-!
# What the session table is for

`Registry` is the table without its records: which keys each group lists, and the session of each key. Its fields are
the invariant that the three records of the source keep together. `Represents kv R` reads a registry off the store;
`insertSession_refines` is the simulation, and `findSession_eq` and `iterateAllSession_visits` are the two ways to read.
-/

namespace NetworkBfd.Bfdd

open Lib Smmr

/-- The keys of each group, in the order of their insertion, and the sessions. -/
structure Registry where
  listed : Fin sessionKeysMax → List SessKey
  sess : SessKey → Option BfdSess
  short : ∀ g, (listed g).length ≤ sessionKeysListcnt
  nodup : ∀ g, (listed g).Nodup
  group : ∀ g, ∀ k ∈ listed g, hashed k = g
  stored : ∀ k, (sess k).isSome = true ↔ k ∈ listed (hashed k)

namespace Registry

/-- No group lists a key. -/
def empty : Registry where
  listed _ := []
  sess _ := none
  short _ := Nat.zero_le _
  nodup _ := List.nodup_nil
  group _ _ h := by simp at h
  stored _ := by simp

theorem room_empty (g : Fin sessionKeysMax) : (empty.listed g).length < sessionKeysListcnt := by simp [empty]

/-- The session of `k` is `s`, and `k` is listed last if it was not listed. -/
def put (R : Registry) (k : SessKey) (s : BfdSess) (room : (R.listed (hashed k)).length < sessionKeysListcnt) :
    Registry where
  listed g := if g = hashed k ∧ k ∉ R.listed g then R.listed g ++ [k] else R.listed g
  sess := Function.update R.sess k (some s)
  short g := by
    split
    · rename_i h
      rw [List.length_append, h.1]
      exact room
    · exact R.short g
  nodup g := by
    split
    · rename_i h
      refine List.nodup_append.mpr ⟨R.nodup g, by simp, fun a ha b hb e => h.2 ?_⟩
      rw [List.mem_singleton] at hb
      rw [← hb, ← e]
      exact ha
    · exact R.nodup g
  group g k' hk' := by
    split at hk'
    · rename_i h
      rcases List.mem_append.mp hk' with hk' | hk'
      · exact R.group g k' hk'
      · rw [List.mem_singleton.mp hk', h.1]
    · exact R.group g k' hk'
  stored k' := by
    by_cases hk : k' = k
    · subst hk
      rw [Function.update_self]
      simp only [Option.isSome_some, true_and, true_iff]
      split
      · simp
      · rename_i h
        exact not_not.mp h
    · rw [Function.update_of_ne hk, R.stored k']
      split
      · simp [hk]
      · exact Iff.rfl

theorem listed_put_of_ne {R : Registry} {k : SessKey} {s : BfdSess}
    {room : (R.listed (hashed k)).length < sessionKeysListcnt} {g : Fin sessionKeysMax} (h : g ≠ hashed k) :
    (R.put k s room).listed g = R.listed g := if_neg fun hn => h hn.1

theorem mem_put {R : Registry} {k k' : SessKey} {s : BfdSess}
    {room : (R.listed (hashed k)).length < sessionKeysListcnt} :
    k' ∈ (R.put k s room).listed (hashed k') ↔ k' = k ∨ k' ∈ R.listed (hashed k') := by
  rw [← (R.put k s room).stored, ← R.stored]
  by_cases hk : k' = k
  · subst hk
    simp [put]
  · simp [put, hk]

end Registry

/-! ## Reading a registry off the store -/

/-- The key of the list of group `g`. -/
def listid (g : Fin sessionKeysMax) : List Byte := u32.encode (sessionKeysBase + BitVec.ofNat 32 g)

theorem listid_injective : Function.Injective listid := by
  intro g g' h
  have h1 := u32.encode_injective h
  have h2 := congrArg BitVec.toNat h1
  simp only [sessionKeysBase, BitVec.toNat_add, BitVec.toNat_ofNat] at h2
  have hg := g.isLt
  have hg' := g'.isLt
  simp only [sessionKeysMax] at hg hg'
  apply Fin.ext
  omega

theorem listid_ne_manage (g : Fin sessionKeysMax) : listid g ≠ u32.encode sessionKeysMange := by
  intro h
  have h1 := congrArg BitVec.toNat (u32.encode_injective h)
  have hg := g.isLt
  simp [BitVec.toNat_add] at hg h1
  omega

/-- Sessions are stored under longer keys than the other records. -/
theorem encode_key_ne (k : SessKey) (v : BitVec 32) : SessKey.codec.encode k ≠ u32.encode v := by
  intro h
  have := congrArg List.length h
  rw [SessKey.codec.length_encode, u32.length_encode] at this
  simp at this

/-- The records in the store are those of `R`. -/
structure Represents (kv : Kv) (R : Registry) : Prop where
  exact : kv.fails = []
  manage : ∃ mng, kv.data (u32.encode sessionKeysMange) = some (SessManage.codec.encode mng) ∧
    ∀ g, (mng.keysIncnt g).toNat = (R.listed g).length ∧ (mng.keysBits.getLsbD g = true ↔ R.listed g ≠ [])
  lists : ∀ g, ∃ list, kv.data (listid g) = some (SessKeyList.codec.encode list) ∧
    ∀ i (h : i < (R.listed g).length), keyAt list i = (R.listed g)[i]
  sessions : ∀ k, kv.data (SessKey.codec.encode k) = (R.sess k).map BfdSess.codec.encode

namespace Kv

theorem store_exact {kv : Kv} (h : kv.fails = []) (key val : List Byte) :
    kv.store key val = (.ok, ⟨Function.update kv.data key (some val), []⟩) := by
  simp [store, h]

@[simp] theorem store_mk (data : List Byte → Option (List Byte)) (key val : List Byte) :
    (Kv.mk data []).store key val = (.ok, ⟨Function.update data key (some val), []⟩) := rfl

theorem getSessManage_eq {kv : Kv} {mng : SessManage}
    (h : kv.data (u32.encode sessionKeysMange) = some (SessManage.codec.encode mng)) :
    kv.getSessManage = some mng := by
  simp only [getSessManage, search, Bool.false_eq_true, if_false, h]
  rw [if_neg (by rw [SessManage.codec.length_encode]; simp), SessManage.codec.decode_encode]

theorem getSessManageKeylist_eq {kv : Kv} {key : BitVec 32} {list : SessKeyList}
    (h : kv.data (u32.encode key) = some (SessKeyList.codec.encode list)) :
    kv.getSessManageKeylist key = some list := by
  simp only [getSessManageKeylist, search, Bool.false_eq_true, if_false, h]
  rw [if_neg (by rw [SessKeyList.codec.length_encode]; simp), SessKeyList.codec.decode_encode]

/-- `find_session` reads the session of the peer. -/
theorem findSession_eq {kv : Kv} {R : Registry} (h : Represents kv R) (cAddr : SockaddrIn) {cAddrlen : BitVec 32}
    (hlen : cAddrlen ≠ 0) : kv.findSession cAddr cAddrlen = R.sess (keyt cAddr) := by
  rw [findSession, if_neg hlen]
  simp only [search, Bool.false_eq_true, if_false, h.sessions]
  cases R.sess (keyt cAddr) with
  | none => rfl
  | some s =>
    simp only [Option.map_some]
    rw [if_neg (by rw [BfdSess.codec.length_encode]; simp), BfdSess.codec.decode_encode]

end Kv

/-! ## Setting up -/

/-- The loop over the groups leaves an empty list for each of them. -/
theorem storeEmptyLists_spec : ∀ (steps n : Nat) (kv : Kv), kv.fails = [] →
    ∃ kv', kv.storeEmptyLists steps n = (.ok, kv') ∧
    kv'.fails = [] ∧
    (∀ i, n ≤ i → i < n + steps → n + steps ≤ sessionKeysMax →
      kv'.data (u32.encode (sessionKeysBase + BitVec.ofNat 32 i)) =
        some (SessKeyList.codec.encode ⟨fun _ => default⟩)) ∧
    ∀ key, (∀ i, n ≤ i → i < n + steps → key ≠ u32.encode (sessionKeysBase + BitVec.ofNat 32 i)) →
      kv'.data key = kv.data key
  | 0, n, kv, h => ⟨kv, rfl, h, fun i h1 h2 => by omega, fun _ _ => rfl⟩
  | steps + 1, n, kv, h => by
    rw [Kv.storeEmptyLists, Kv.storeU32key, Kv.store_exact h]
    simp only
    obtain ⟨kv', hrun, hf, hin, hout⟩ := storeEmptyLists_spec steps (n + 1)
      ⟨Function.update kv.data (u32.encode (sessionKeysBase + BitVec.ofNat 32 n))
        (some (SessKeyList.codec.encode ⟨fun _ => default⟩)), []⟩ rfl
    refine ⟨kv', hrun, hf, fun i h1 h2 h3 => ?_, fun key hkey => ?_⟩
    · rcases Nat.lt_or_ge n i with hlt | hge
      · exact hin i hlt (by omega) (by omega)
      · obtain rfl : i = n := by omega
        refine (hout _ ?_).trans (Function.update_self _ _ _)
        intro j h4 h5 he
        have he' := congrArg BitVec.toNat (u32.encode_injective he)
        simp only [sessionKeysBase, sessionKeysMax, BitVec.toNat_add, BitVec.toNat_ofNat] at he' h3
        omega
    · rw [hout key fun i h1 h2 => hkey i (by omega) (by omega)]
      exact Function.update_of_ne (hkey n (le_refl n) (by omega)) _ _

theorem initialize_represents : ∃ kv, Kv.empty.initializeBfdSessionTable = (.ok, kv) ∧
    Represents kv Registry.empty := by
  rw [Kv.initializeBfdSessionTable, Kv.storeU32key, Kv.store_exact rfl]
  simp only
  obtain ⟨kv, hrun, hf, hin, hout⟩ := storeEmptyLists_spec sessionKeysMax 0
    ⟨Function.update Kv.empty.data (u32.encode sessionKeysMange) (some (SessManage.codec.encode ⟨0, fun _ => 0⟩)), []⟩
    rfl
  refine ⟨kv, hrun, hf, ⟨⟨0, fun _ => 0⟩, ?_, fun g => ⟨rfl, ?_⟩⟩, fun g => ⟨⟨fun _ => default⟩, ?_, ?_⟩, fun k => ?_⟩
  · rw [hout _ fun i _ hi h => listid_ne_manage ⟨i, by simpa using hi⟩ h.symm]
    simp only [Function.update_self]
  · simp [Registry.empty]
  · exact hin g (Nat.zero_le _) (by simpa using g.isLt) (by simp)
  · intro i hi
    simp [Registry.empty] at hi
  · exact (hout _ fun i _ _ => encode_key_ne k _).trans (Function.update_of_ne (encode_key_ne k _) _ _)

/-! ## Inserting -/

theorem isupdate_iff {list : SessKeyList} {incnt : BitVec 32} {ks : List SessKey} (hn : incnt.toNat = ks.length)
    (hs : ks.length ≤ sessionKeysListcnt) (hl : ∀ i (h : i < ks.length), keyAt list i = ks[i]) (key : SessKey) :
    isupdate list incnt key = true ↔ key ∈ ks := by
  rw [isupdate, List.any_eq_true, hn, Nat.min_eq_right hs]
  constructor
  · rintro ⟨n, hmem, he⟩
    rw [List.mem_range] at hmem
    rw [hl n hmem, beq_iff_eq] at he
    exact he ▸ List.getElem_mem hmem
  · intro hmem
    obtain ⟨n, hlt, rfl⟩ := List.mem_iff_getElem.mp hmem
    exact ⟨n, List.mem_range.mpr hlt, by rw [hl n hlt]; exact beq_self_eq_true _⟩

/-- Setting the bit of one group leaves the bits of the others. -/
theorem getLsbD_setBit (bits : BitVec 32) (g g' : Fin sessionKeysMax) :
    (bits ||| (1#32 <<< (g : Nat))).getLsbD g' = (bits.getLsbD g' || decide (g' = g)) := by
  have hg' := g'.isLt
  simp only [sessionKeysMax] at hg'
  rw [BitVec.getLsbD_or, BitVec.getLsbD_shiftLeft]
  congr 1
  simp only [hg', decide_true, Bool.true_and, BitVec.getLsbD_one, Fin.ext_iff, Nat.reduceLT]
  rw [← Bool.decide_eq_false, ← Bool.decide_and, decide_eq_decide, decide_eq_false_iff_not]
  omega

/-- Storing the session of a listed key. -/
theorem represents_overwrite {kv : Kv} {R : Registry} {k : SessKey} (h : Represents kv R) (hk : k ∈ R.listed (hashed k))
    (s : BfdSess) (room : (R.listed (hashed k)).length < sessionKeysListcnt) :
    Represents ⟨Function.update kv.data (SessKey.codec.encode k) (some (BfdSess.codec.encode s)), []⟩
      (R.put k s room) := by
  have hlisted : (R.put k s room).listed = R.listed := by
    funext g
    apply if_neg
    rintro ⟨rfl, hn⟩
    exact hn hk
  have hother : ∀ v, Function.update kv.data (SessKey.codec.encode k) (some (BfdSess.codec.encode s)) (u32.encode v) =
      kv.data (u32.encode v) := fun v => Function.update_of_ne (encode_key_ne k v).symm _ _
  refine ⟨rfl, ?_, fun g => ?_, fun k' => ?_⟩
  · simp only [hlisted, hother]
    exact h.manage
  · simp only [hlisted, listid, hother]
    exact h.lists g
  · by_cases hk' : k' = k
    · subst hk'
      simp [Registry.put]
    · dsimp only
      rw [Function.update_of_ne fun he => hk' (SessKey.codec.encode_injective he), h.sessions]
      simp [Registry.put, hk']

/-- Storing the session of a new key, then the summary that counts it, then the list that names it. -/
theorem represents_append {kv : Kv} {R : Registry} {k : SessKey} {mng : SessManage} {list : SessKeyList}
    (h : Represents kv R) (hk : k ∉ R.listed (hashed k)) (s : BfdSess)
    (room : (R.listed (hashed k)).length < sessionKeysListcnt)
    (hmng : ∀ g, (mng.keysIncnt g).toNat = ((R.put k s room).listed g).length ∧
      (mng.keysBits.getLsbD g = true ↔ (R.put k s room).listed g ≠ []))
    (hlist : ∀ i (h : i < ((R.put k s room).listed (hashed k)).length),
      keyAt list i = ((R.put k s room).listed (hashed k))[i]) :
    Represents ⟨Function.update (Function.update (Function.update kv.data (SessKey.codec.encode k)
      (some (BfdSess.codec.encode s))) (u32.encode sessionKeysMange) (some (SessManage.codec.encode mng)))
      (listid (hashed k)) (some (SessKeyList.codec.encode list)), []⟩ (R.put k s room) := by
  refine ⟨rfl, ⟨mng, ?_, hmng⟩, fun g => ?_, fun k' => ?_⟩
  · dsimp only
    rw [Function.update_of_ne (listid_ne_manage _).symm, Function.update_self]
  · by_cases hg : g = hashed k
    · subst hg
      exact ⟨list, Function.update_self _ _ _, hlist⟩
    · obtain ⟨list', h1, h2⟩ := h.lists g
      refine ⟨list', ?_, ?_⟩
      · dsimp only
        rw [Function.update_of_ne fun he => hg (listid_injective he), Function.update_of_ne (listid_ne_manage g),
          listid, Function.update_of_ne (encode_key_ne k _).symm]
        exact h1
      · rw [Registry.listed_put_of_ne hg]
        exact h2
  · dsimp only
    rw [listid, Function.update_of_ne (encode_key_ne k' _), Function.update_of_ne (encode_key_ne k' _)]
    by_cases hk' : k' = k
    · subst hk'
      simp [Registry.put]
    · rw [Function.update_of_ne fun he => hk' (SessKey.codec.encode_injective he), h.sessions]
      simp [Registry.put, hk']

section Insert

variable {kv : Kv} {R : Registry} {psess : BfdSess} {cAddr : SockaddrIn} {cAddrlen : BitVec 32}

/-- A full group takes no session, not even one that it lists. -/
theorem insertSession_full (h : Represents kv R)
    (hfull : sessionKeysListcnt ≤ (R.listed (hashed (keyt cAddr))).length) :
    kv.insertSession psess cAddr cAddrlen = (.ng, kv) := by
  obtain ⟨mng, hm, hmng⟩ := h.manage
  obtain ⟨list, hl, -⟩ := h.lists (hashed (keyt cAddr))
  unfold Kv.insertSession
  by_cases hlen : cAddrlen = 0
  · rw [if_pos hlen]
  · rw [if_neg hlen]
    simp only [Kv.getSessManage_eq hm, Kv.getSessManageKeylist_eq hl]
    rw [if_pos]
    rw [(hmng _).1]
    exact hfull

/-- `insert_session` puts the session in the registry. -/
theorem insertSession_refines (h : Represents kv R) (hlen : cAddrlen ≠ 0)
    (room : (R.listed (hashed (keyt cAddr))).length < sessionKeysListcnt) :
    ∃ kv', kv.insertSession psess cAddr cAddrlen = (.ok, kv') ∧ Represents kv' (R.put (keyt cAddr) psess room) := by
  obtain ⟨mng, hm, hmng⟩ := h.manage
  obtain ⟨list, hl, hlist⟩ := h.lists (hashed (keyt cAddr))
  obtain ⟨hcnt, -⟩ := hmng (hashed (keyt cAddr))
  have hiff := isupdate_iff hcnt (R.short _) hlist (keyt cAddr)
  unfold Kv.insertSession
  rw [if_neg hlen]
  simp only [Kv.getSessManage_eq hm, Kv.getSessManageKeylist_eq hl]
  rw [if_neg (by rw [hcnt]; exact Nat.not_le.mpr room)]
  simp only [Kv.storeU32key, Kv.store_exact h.exact]
  by_cases hk : keyt cAddr ∈ R.listed (hashed (keyt cAddr))
  · rw [if_pos (hiff.mpr hk)]
    exact ⟨_, rfl, represents_overwrite h hk psess room⟩
  · rw [if_neg fun hup => hk (hiff.mp hup)]
    simp only [Kv.store_mk]
    refine ⟨_, rfl, represents_append h hk psess room (fun g => ?_) fun i hi => ?_⟩
    · by_cases hg : g = hashed (keyt cAddr)
      · subst hg
        have hput : (R.put (keyt cAddr) psess room).listed (hashed (keyt cAddr)) = _ := if_pos ⟨rfl, hk⟩
        rw [hput, getLsbD_setBit]
        simp only [sessionKeysListcnt] at room
        simp only [Function.update_self, BitVec.toNat_add, hcnt, List.length_append, List.length_singleton]
        refine ⟨?_, by simp⟩
        have hone : (1 : BitVec 32).toNat = 1 := rfl
        omega
      · rw [Registry.listed_put_of_ne hg, getLsbD_setBit]
        simp only [Function.update_of_ne hg, decide_eq_false hg, Bool.or_false]
        exact hmng g
    · have hput : (R.put (keyt cAddr) psess room).listed (hashed (keyt cAddr)) = _ := if_pos ⟨rfl, hk⟩
      simp only [hput, List.length_append, List.length_singleton] at hi ⊢
      have hi128 : i < sessionKeysListcnt := by omega
      by_cases he : i = (R.listed (hashed (keyt cAddr))).length
      · subst he
        rw [keyAt, dif_pos hi128]
        simp [hcnt]
      · have hlt : i < (R.listed (hashed (keyt cAddr))).length := by omega
        rw [List.getElem_append_left hlt, ← hlist i hlt, keyAt, keyAt, dif_pos hi128, dif_pos hi128]
        exact if_neg (hcnt ▸ he)

end Insert

/-! ## Iterating -/

/-- The sessions stored under `ks`. -/
def Registry.sessions (R : Registry) (ks : List SessKey) : List (SessKey × BfdSess) :=
  ks.filterMap fun k => (R.sess k).map (Prod.mk k)

/-- All stored sessions, group after group. -/
def Registry.entries (R : Registry) : List (SessKey × BfdSess) :=
  (List.finRange sessionKeysMax).flatMap fun g => R.sessions (R.listed g)

namespace Registry

theorem mem_sessions {R : Registry} {ks : List SessKey} {k : SessKey} {s : BfdSess} :
    (k, s) ∈ R.sessions ks ↔ k ∈ ks ∧ R.sess k = some s := by
  simp only [sessions, List.mem_filterMap, Option.map_eq_some_iff, Prod.mk.injEq]
  constructor
  · rintro ⟨k', hk', s', hs', rfl, rfl⟩
    exact ⟨hk', hs'⟩
  · rintro ⟨hk, hs⟩
    exact ⟨k, hk, s, hs, rfl, rfl⟩

theorem mem_entries {R : Registry} {k : SessKey} {s : BfdSess} : (k, s) ∈ R.entries ↔ R.sess k = some s := by
  simp only [entries, List.mem_flatMap, mem_sessions, List.mem_finRange, true_and]
  constructor
  · rintro ⟨g, -, hs⟩
    exact hs
  · intro hs
    refine ⟨hashed k, (R.stored k).mp ?_, hs⟩
    rw [hs]
    rfl

theorem map_fst_sessions (R : Registry) (ks : List SessKey) :
    (R.sessions ks).map Prod.fst = ks.filter fun k => (R.sess k).isSome := by
  unfold sessions
  induction ks with
  | nil => rfl
  | cons k ks ih =>
    rw [List.filterMap_cons]
    cases hk : R.sess k with
    | none => simpa [hk] using ih
    | some s => simpa [hk] using ih

/-- No key has two entries. -/
theorem nodup_entries (R : Registry) : (R.entries.map Prod.fst).Nodup := by
  rw [entries, List.map_flatMap, List.nodup_flatMap]
  constructor
  · intro g _
    rw [map_fst_sessions]
    exact (R.nodup g).filter _
  · refine (List.nodup_finRange _).imp fun {g g'} hne => ?_
    simp only [Function.onFun, map_fst_sessions]
    intro k hk hk'
    apply hne
    rw [← R.group g k (List.mem_of_mem_filter hk), R.group g' k (List.mem_of_mem_filter hk')]

end Registry

section Iterate

variable {σ : Type} {kv : Kv} {R : Registry} {itr : SessKey → BfdSess → σ → Int × σ} {mng : SessManage}
  {list : SessKeyList}

theorem iterateGroup_invariant {I : σ → Prop} (step : ∀ k s u, I u → I (itr k s u).2) :
    ∀ (ms : List Nat) (held : Bool) {u : σ}, I u → I (kv.iterateGroup itr list ms held u).2
  | [], _, _, hu => hu
  | m :: ms, held, u, hu => by
    rw [Kv.iterateGroup]
    cases kv.search (SessKey.codec.encode (keyAt list m)) held with
    | none => exact iterateGroup_invariant step ms held hu
    | some resp =>
      simp only
      split
      · split
        · exact step _ _ u hu
        · exact iterateGroup_invariant step ms false (step _ _ u hu)
      · exact iterateGroup_invariant step ms true hu

theorem iterateGroups_invariant {I : σ → Prop} (step : ∀ k s u, I u → I (itr k s u).2) :
    ∀ (ns : List (Fin sessionKeysMax)) (held : Bool) {u : σ}, I u → I (kv.iterateGroups itr mng ns held u)
  | [], _, _, hu => hu
  | n :: ns, held, u, hu => by
    rw [Kv.iterateGroups]
    split
    · split
      · exact iterateGroups_invariant step ns held hu
      · exact iterateGroups_invariant step ns _ (iterateGroup_invariant step _ _ hu)
    · exact iterateGroups_invariant step ns held hu

/-- What every call of the callback keeps holds after the iteration, whatever the store holds. -/
theorem iterateAllSession_invariant {I : σ → Prop} (step : ∀ k s u, I u → I (itr k s u).2) {u : σ} (hu : I u) :
    I (kv.iterateAllSession itr u) := by
  rw [Kv.iterateAllSession]
  split
  · exact hu
  · exact iterateGroups_invariant step _ _ hu

/-- After a break every search of the iteration fails. -/
theorem iterateGroup_held : ∀ (ms : List Nat) (u : σ), kv.iterateGroup itr list ms true u = (true, u)
  | [], _ => rfl
  | _ :: ms, u => iterateGroup_held ms u

theorem iterateGroups_held : ∀ (ns : List (Fin sessionKeysMax)) (u : σ), kv.iterateGroups itr mng ns true u = u
  | [], _ => rfl
  | n :: ns, u => by
    rw [Kv.iterateGroups]
    split
    · split
      · exact iterateGroups_held ns u
      · rw [iterateGroup_held]
        exact iterateGroups_held ns u
    · exact iterateGroups_held ns u

/-- The calls on one group, in the order of its list. Breaking them off leaves `resp_sess` set. -/
theorem iterateGroup_course (h : Represents kv R) : ∀ (ms : List Nat) (u : σ), ∃ vs held,
    kv.iterateGroup itr list ms false u = (held, callAll (fun p => itr p.1 p.2) vs u) ∧
      Course (· ≠ 0) (fun p => itr p.1 p.2) (marked (R.sessions (ms.map (keyAt list)))) u vs held
  | [], u => ⟨[], false, rfl, Course.nil u⟩
  | m :: ms, u => by
    rw [Kv.iterateGroup, Kv.search, if_neg Bool.false_ne_true, h.sessions, List.map_cons, Registry.sessions,
      List.filterMap_cons]
    cases hk : R.sess (keyAt list m) with
    | none => exact iterateGroup_course h ms u
    | some s =>
      simp only [Option.map_some, BfdSess.codec.length_encode, if_true, BfdSess.codec.decode_encode]
      by_cases hret : (itr (keyAt list m) s u).1 = 0
      · rw [if_neg (not_not.mpr hret)]
        obtain ⟨vs, held, hrun, hc⟩ := iterateGroup_course h ms (itr (keyAt list m) s u).2
        exact ⟨(keyAt list m, s) :: vs, held, hrun, Course.call (not_not.mpr hret) hc⟩
      · rw [if_pos hret]
        exact ⟨[(keyAt list m, s)], true, rfl, Course.halt hret⟩

/-- The keys that the loop over one group reads are those the group lists. -/
theorem map_keyAt {ks : List SessKey} (hl : ∀ i (h : i < ks.length), keyAt list i = ks[i]) :
    (List.range ks.length).map (keyAt list) = ks := by
  apply List.ext_getElem
  · simp
  · intro i h1 h2
    simp [hl i h2]

/-- The calls on the groups in turn: a break ends them all. -/
theorem iterateGroups_course (h : Represents kv R)
    (hmng : ∀ g, (mng.keysIncnt g).toNat = (R.listed g).length ∧ (mng.keysBits.getLsbD g = true ↔ R.listed g ≠ [])) :
    ∀ (ns : List (Fin sessionKeysMax)) (u : σ), ∃ vs ended,
      kv.iterateGroups itr mng ns false u = callAll (fun p => itr p.1 p.2) vs u ∧
        Course (· ≠ 0) (fun p => itr p.1 p.2) (marked (ns.flatMap fun g => R.sessions (R.listed g))) u vs ended
  | [], u => ⟨[], false, rfl, Course.nil u⟩
  | n :: ns, u => by
    rw [Kv.iterateGroups, List.flatMap_cons, marked_append]
    obtain ⟨hcnt, hbit⟩ := hmng n
    split
    · obtain ⟨list, hl, hlist⟩ := h.lists n
      rw [Kv.getSessManageKeylist_eq hl]
      obtain ⟨vs, held, hrun, hc⟩ := @iterateGroup_course σ kv R itr list h (List.range (mng.keysIncnt n).toNat) u
      simp only [hrun]
      rw [hcnt, map_keyAt hlist] at hc
      cases held with
      | true =>
        rw [iterateGroups_held]
        exact ⟨vs, true, rfl, hc.append_ended rfl⟩
      | false =>
        obtain ⟨ws, ended, hrun', hc'⟩ := iterateGroups_course h hmng ns (callAll (fun p => itr p.1 p.2) vs u)
        exact ⟨vs ++ ws, ended, hrun'.trans (callAll_append ..).symm, hc.append hc'⟩
    · rename_i hskip
      have hnil : R.listed n = [] := by
        by_contra hne
        refine hskip ⟨hbit.mpr hne, fun h0 => hne (List.length_eq_zero_iff.mp ?_)⟩
        rw [← hcnt, h0]
        rfl
      rw [hnil]
      exact iterateGroups_course h hmng ns u

/-- `iterate_all_session` calls back on the stored sessions, group after group, until a callback breaks it off. -/
theorem iterateAllSession_course (h : Represents kv R) (itr : SessKey → BfdSess → σ → Int × σ) (u : σ) : ∃ vs ended,
    kv.iterateAllSession itr u = callAll (fun p => itr p.1 p.2) vs u ∧
      Course (· ≠ 0) (fun p => itr p.1 p.2) (marked R.entries) u vs ended := by
  obtain ⟨mng, hm, hmng⟩ := h.manage
  rw [Kv.iterateAllSession, Kv.getSessManage_eq hm]
  exact iterateGroups_course h hmng _ u

/-- It visits each session at most once, and all of them if it is not broken off. -/
theorem iterateAllSession_visits (h : Represents kv R) (itr : SessKey → BfdSess → σ → Int × σ) (u : σ) :
    Visits (· ≠ 0) (fun p => itr p.1 p.2) R.entries u (kv.iterateAllSession itr u) := by
  obtain ⟨vs, ended, hrun, hc⟩ := iterateAllSession_course h itr u
  rw [hrun]
  exact hc.visits (by rw [map_fst_marked])

end Iterate

end NetworkBfd.Bfdd
