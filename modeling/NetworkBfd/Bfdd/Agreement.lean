import NetworkBfd.Bfdd.Table

/-!
# The session table after any run of insertions

`session_table_agrees`: the summary, the key lists and the sessions in the store agree with each other, with
`find_session` and with `iterate_all_session` after every sequence of `insert_session` calls on a fresh table.
-/

namespace NetworkBfd.Bfdd

open Lib Smmr

/-- A call of `insert_session`. -/
structure InsertCall where
  psess : BfdSess
  cAddr : SockaddrIn
  cAddrlen : BitVec 32

/-- The calls in turn, and what each of them returned. -/
def Kv.insertAll : List InsertCall → Kv → List Ret × Kv
  | [], kv => ([], kv)
  | c :: cs, kv =>
    let (ret, kv) := kv.insertSession c.psess c.cAddr c.cAddrlen
    let (rets, kv) := Kv.insertAll cs kv
    (ret :: rets, kv)

/-- The session of the last call on `k` that returned `RET_OK`. -/
def lastInserted (k : SessKey) : List (InsertCall × Ret) → Option BfdSess
  | [] => none
  | (c, ret) :: rest =>
    (lastInserted k rest).or (if keyt c.cAddr = k ∧ ret = .ok then some c.psess else none)

/-- The number of keys of group `g`. -/
def SessManage.incnt (mng : SessManage) (g : Fin sessionKeysMax) : Nat := (mng.keysIncnt g).toNat

/-- The summary `mng`, the key lists and the stored sessions agree. -/
structure Agrees (kv : Kv) (mng : SessManage) (lists : Fin sessionKeysMax → SessKeyList) : Prop where
  manage : kv.getSessManage = some mng
  keylist : ∀ g : Fin sessionKeysMax,
    kv.getSessManageKeylist (sessionKeysBase + BitVec.ofNat 32 g) = some (lists g)
  short : ∀ g, mng.incnt g ≤ sessionKeysListcnt
  distinct : ∀ g i j, i < mng.incnt g → j < mng.incnt g → keyAt (lists g) i = keyAt (lists g) j → i = j
  grouped : ∀ g i, i < mng.incnt g → hashed (keyAt (lists g) i) = g
  bits : ∀ g : Fin sessionKeysMax, mng.keysBits.getLsbD g = true ↔ 0 < mng.incnt g
  stored : ∀ k, (∃ s, kv.data (SessKey.codec.encode k) = some (BfdSess.codec.encode s)) ↔
    ∃ i < mng.incnt (hashed k), keyAt (lists (hashed k)) i = k

/-- A store that represents a registry agrees with itself. -/
theorem Represents.agrees {kv : Kv} {R : Registry} (h : Represents kv R) : ∃ mng lists, Agrees kv mng lists := by
  obtain ⟨mng, hm, hmng⟩ := h.manage
  choose lists hl hlists using h.lists
  have hcnt : ∀ g, mng.incnt g = (R.listed g).length := fun g => (hmng g).1
  have hkey : ∀ g i (hi : i < mng.incnt g), ∃ hi' : i < (R.listed g).length, keyAt (lists g) i = (R.listed g)[i] :=
    fun g i hi => ⟨hcnt g ▸ hi, hlists g i (hcnt g ▸ hi)⟩
  refine ⟨mng, lists, Kv.getSessManage_eq hm, fun g => Kv.getSessManageKeylist_eq (hl g),
    fun g => hcnt g ▸ R.short g, fun g i j hi hj he => ?_, fun g i hi => ?_, fun g => ?_, fun k => ?_⟩
  · obtain ⟨hi', h1⟩ := hkey g i hi
    obtain ⟨hj', h2⟩ := hkey g j hj
    exact (R.nodup g).getElem_inj_iff.mp (h1.symm.trans (he.trans h2))
  · obtain ⟨hi', h1⟩ := hkey g i hi
    rw [h1]
    exact R.group g _ (List.getElem_mem hi')
  · rw [(hmng g).2, hcnt g, List.length_pos_iff]
  · have hstored : (∃ s, kv.data (SessKey.codec.encode k) = some (BfdSess.codec.encode s)) ↔
        (R.sess k).isSome = true := by
      rw [h.sessions]
      cases R.sess k with
      | none => simp
      | some s => exact ⟨fun _ => rfl, fun _ => ⟨s, rfl⟩⟩
    rw [hstored, R.stored, List.mem_iff_getElem]
    constructor
    · rintro ⟨i, hi, he⟩
      exact ⟨i, hcnt _ ▸ hi, (hlists _ i hi).trans he⟩
    · rintro ⟨i, hi, he⟩
      obtain ⟨hi', h1⟩ := hkey _ i hi
      exact ⟨i, hi', h1.symm.trans he⟩

/-- One call: the table stays a registry, and only a call that returns `RET_OK` changes a session, its own. -/
theorem insertSession_represents {kv : Kv} {R : Registry} (h : Represents kv R) (c : InsertCall) :
    ∃ ret kv' R', kv.insertSession c.psess c.cAddr c.cAddrlen = (ret, kv') ∧ Represents kv' R' ∧
      ∀ k, R'.sess k = if keyt c.cAddr = k ∧ ret = .ok then some c.psess else R.sess k := by
  by_cases hlen : c.cAddrlen = 0
  · exact ⟨.ng, kv, R, by rw [Kv.insertSession, if_pos hlen], h, fun k => (if_neg fun hn => by cases hn.2).symm⟩
  · rcases Nat.lt_or_ge (R.listed (hashed (keyt c.cAddr))).length sessionKeysListcnt with room | hfull
    · obtain ⟨kv', hrun, h'⟩ := @insertSession_refines kv R c.psess c.cAddr c.cAddrlen h hlen room
      refine ⟨.ok, kv', _, hrun, h', fun k => ?_⟩
      by_cases hk : keyt c.cAddr = k
      · subst hk
        simp [Registry.put]
      · rw [if_neg fun hn => hk hn.1]
        exact Function.update_of_ne (fun he => hk he.symm) _ _
    · exact ⟨.ng, kv, R, insertSession_full h hfull, h, fun k => (if_neg fun hn => by cases hn.2).symm⟩

/-- A run of calls: each session is that of the last call on its key that returned `RET_OK`. -/
theorem insertAll_represents : ∀ (calls : List InsertCall) {kv : Kv} {R : Registry}, Represents kv R →
    ∃ rets kv' R', kv.insertAll calls = (rets, kv') ∧ rets.length = calls.length ∧ Represents kv' R' ∧
      ∀ k, R'.sess k = (lastInserted k (calls.zip rets)).or (R.sess k)
  | [], kv, R, h => ⟨[], kv, R, rfl, rfl, h, fun _ => rfl⟩
  | c :: cs, kv, R, h => by
    obtain ⟨ret, kv1, R1, hrun1, h1, hsess1⟩ := insertSession_represents h c
    obtain ⟨rets, kv2, R2, hrun2, hlen, h2, hsess2⟩ := insertAll_represents cs h1
    refine ⟨ret :: rets, kv2, R2, ?_, congrArg (· + 1) hlen, h2, fun k => ?_⟩
    · simp only [Kv.insertAll, hrun1, hrun2]
    · rw [hsess2, hsess1, List.zip_cons_cons, lastInserted, Option.or_assoc]
      congr 1
      split <;> rfl

/-- The three records of the table, the lookup and the iteration agree after every run of insertions. -/
theorem session_table_agrees (calls : List InsertCall) :
    ∃ kv₀ rets kv mng lists, Kv.empty.initializeBfdSessionTable = (.ok, kv₀) ∧ kv₀.insertAll calls = (rets, kv) ∧
      rets.length = calls.length ∧ Agrees kv mng lists ∧
      (∀ cAddr cAddrlen, kv.findSession cAddr cAddrlen =
        if cAddrlen = 0 then none else lastInserted (keyt cAddr) (calls.zip rets)) ∧
      ∀ {σ : Type} (itr : SessKey → BfdSess → σ → Int × σ), (∀ k s u, (itr k s u).1 = 0) → ∀ u,
        ∃ L : List (SessKey × BfdSess), kv.iterateAllSession itr u = callAll (fun p => itr p.1 p.2) L u ∧
          (L.map Prod.fst).Nodup ∧
          ∀ k s, (k, s) ∈ L ↔ kv.data (SessKey.codec.encode k) = some (BfdSess.codec.encode s) := by
  obtain ⟨kv₀, hinit, h₀⟩ := initialize_represents
  obtain ⟨rets, kv, R, hrun, hlen, h, hsess⟩ := insertAll_represents calls h₀
  obtain ⟨mng, lists, hagrees⟩ := h.agrees
  refine ⟨kv₀, rets, kv, mng, lists, hinit, hrun, hlen, hagrees, fun cAddr cAddrlen => ?_, fun itr hret u => ?_⟩
  · by_cases hne : cAddrlen = 0
    · rw [if_pos hne, Kv.findSession, if_pos hne]
    · rw [if_neg hne, Kv.findSession_eq h cAddr hne, hsess]
      exact Option.or_none
  · obtain ⟨L, hcalls, -, hperm⟩ := iterateAllSession_visits h itr u
    have hL := hperm (quiet_of_forall (fun p u hn => hn (hret p.1 p.2 u)) L u)
    refine ⟨L, hcalls, (hL.map Prod.fst).nodup_iff.mpr R.nodup_entries, fun k s => ?_⟩
    rw [hL.mem_iff, Registry.mem_entries, h.sessions]
    constructor
    · intro hs
      rw [hs]
      rfl
    · intro hs
      obtain ⟨s', hs', he⟩ := Option.map_eq_some_iff.mp hs
      rw [hs', BfdSess.codec.encode_injective he]

end NetworkBfd.Bfdd
