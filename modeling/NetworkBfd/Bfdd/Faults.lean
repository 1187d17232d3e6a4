import NetworkBfd.Bfdd.Agreement

/-!
# Full groups, failing sends and failing stores

Three ways in which a call on the session table can fail, and when the failure stays with it:

* `listed_updates_iff`: a key that a group lists can be stored again unless the group is full;
* `reachesOthers_iff`: a callback that fails ends the iteration over its own group and over all that follow;
* `failsCleanly_iff`: an insertion that fails after its first store leaves a table that disagrees with itself.
-/

namespace NetworkBfd.Bfdd

open Lib Smmr

/-- Every table that insertions make of a fresh one represents a registry. -/
theorem insertAll_reachable {kv₀ : Kv} (hinit : Kv.empty.initializeBfdSessionTable = (.ok, kv₀))
    (calls : List InsertCall) : ∃ R, Represents (kv₀.insertAll calls).2 R := by
  obtain ⟨kv₁, hinit₁, h₀⟩ := initialize_represents
  rw [hinit₁] at hinit
  rw [← (Prod.mk.inj hinit).2]
  obtain ⟨rets, kv, R, hrun, -, h, -⟩ := insertAll_represents calls h₀
  rw [hrun]
  exact ⟨R, h⟩

/-! ## A full group -/

/-- The call succeeds, the session is found again, and summary and key lists stay. -/
def Kv.Updates (kv : Kv) (psess : BfdSess) (cAddr : SockaddrIn) (cAddrlen : BitVec 32) : Prop :=
  ∃ kv', kv.insertSession psess cAddr cAddrlen = (.ok, kv') ∧ kv'.findSession cAddr cAddrlen = some psess ∧
    kv'.getSessManage = kv.getSessManage ∧ ∀ g : Fin sessionKeysMax,
      kv'.getSessManageKeylist (sessionKeysBase + BitVec.ofNat 32 g) =
        kv.getSessManageKeylist (sessionKeysBase + BitVec.ofNat 32 g)

section FullGroup

variable {kv kv' : Kv} {R : Registry} {psess : BfdSess} {cAddr : SockaddrIn} {cAddrlen : BitVec 32}

theorem getSessManage_congr (h : kv'.data (u32.encode sessionKeysMange) = kv.data (u32.encode sessionKeysMange)) :
    kv'.getSessManage = kv.getSessManage := by
  simp only [Kv.getSessManage, Kv.search, h]

theorem getSessManageKeylist_congr {key : BitVec 32} (h : kv'.data (u32.encode key) = kv.data (u32.encode key)) :
    kv'.getSessManageKeylist key = kv.getSessManageKeylist key := by
  simp only [Kv.getSessManageKeylist, Kv.search, h]

/-- Storing the session of a listed key touches no other record. -/
theorem insertSession_listed (h : Represents kv R) (hlen : cAddrlen ≠ 0)
    (hk : keyt cAddr ∈ R.listed (hashed (keyt cAddr)))
    (room : (R.listed (hashed (keyt cAddr))).length < sessionKeysListcnt) :
    kv.insertSession psess cAddr cAddrlen = (.ok, ⟨Function.update kv.data (SessKey.codec.encode (keyt cAddr))
      (some (BfdSess.codec.encode psess)), []⟩) := by
  obtain ⟨mng, hm, hmng⟩ := h.manage
  obtain ⟨list, hl, hlist⟩ := h.lists (hashed (keyt cAddr))
  obtain ⟨hcnt, -⟩ := hmng (hashed (keyt cAddr))
  unfold Kv.insertSession
  rw [if_neg hlen]
  simp only [Kv.getSessManage_eq hm, Kv.getSessManageKeylist_eq hl]
  rw [if_neg (by rw [hcnt]; exact Nat.not_le.mpr room)]
  simp only [Kv.store_exact h.exact]
  rw [if_pos ((isupdate_iff hcnt (R.short _) hlist (keyt cAddr)).mpr hk)]

theorem updates_iff_room (h : Represents kv R) (hlen : cAddrlen ≠ 0)
    (hk : keyt cAddr ∈ R.listed (hashed (keyt cAddr))) :
    kv.Updates psess cAddr cAddrlen ↔ (R.listed (hashed (keyt cAddr))).length < sessionKeysListcnt := by
  constructor
  · rintro ⟨kv', hrun, -⟩
    by_contra hfull
    rw [insertSession_full h (Nat.not_lt.mp hfull)] at hrun
    cases hrun
  · intro room
    have hother : ∀ v, Function.update kv.data (SessKey.codec.encode (keyt cAddr)) (some (BfdSess.codec.encode psess))
        (u32.encode v) = kv.data (u32.encode v) := fun v => Function.update_of_ne (encode_key_ne _ v).symm _ _
    refine ⟨_, insertSession_listed h hlen hk room, ?_, getSessManage_congr (hother _),
      fun g => getSessManageKeylist_congr (hother _)⟩
    rw [Kv.findSession_eq (represents_overwrite h hk psess room) cAddr hlen]
    simp [Registry.put]

/-- After any run of insertions, a key that its group lists can be stored again exactly if the group is not full. -/
theorem listed_updates_iff (calls : List InsertCall) {kv₀ kv : Kv} {mng : SessManage} {list : SessKeyList} {i : Nat}
    (hinit : Kv.empty.initializeBfdSessionTable = (.ok, kv₀)) (hrun : (kv₀.insertAll calls).2 = kv)
    (hm : kv.getSessManage = some mng)
    (hl : kv.getSessManageKeylist (sessionKeysBase + BitVec.ofNat 32 (hashed (keyt cAddr))) = some list)
    (hi : i < mng.incnt (hashed (keyt cAddr))) (hk : keyAt list i = keyt cAddr) (psess : BfdSess)
    (hlen : cAddrlen ≠ 0) :
    kv.Updates psess cAddr cAddrlen ↔ mng.incnt (hashed (keyt cAddr)) < sessionKeysListcnt := by
  obtain ⟨R, h⟩ := insertAll_reachable hinit calls
  rw [hrun] at h
  obtain ⟨mng₁, hm₁, hmng⟩ := h.manage
  rw [Kv.getSessManage_eq hm₁] at hm
  obtain ⟨list₁, hl₁, hlist⟩ := h.lists (hashed (keyt cAddr))
  rw [Kv.getSessManageKeylist_eq hl₁] at hl
  have hcnt : mng.incnt (hashed (keyt cAddr)) = (R.listed (hashed (keyt cAddr))).length := by
    rw [← Option.some.inj hm]
    exact (hmng _).1
  rw [hcnt] at hi ⊢
  have hmem : keyAt list₁ i ∈ R.listed (hashed (keyt cAddr)) := by
    rw [hlist i hi]
    exact List.getElem_mem hi
  rw [Option.some.inj hl, hk] at hmem
  exact updates_iff_room h hlen hmem

/-- What a table says of a key that it lists. -/
theorem Represents.listed (h : Represents kv R) {key : SessKey} (hk : key ∈ R.listed (hashed key)) : ∃ mng list i,
    kv.getSessManage = some mng ∧
      kv.getSessManageKeylist (sessionKeysBase + BitVec.ofNat 32 (hashed key)) = some list ∧
      i < mng.incnt (hashed key) ∧ keyAt list i = key := by
  obtain ⟨mng, hm, hmng⟩ := h.manage
  obtain ⟨list, hl, hlist⟩ := h.lists (hashed key)
  obtain ⟨i, hi, he⟩ := List.mem_iff_getElem.mp hk
  refine ⟨mng, list, i, Kv.getSessManage_eq hm, Kv.getSessManageKeylist_eq hl, ?_, (hlist i hi).trans he⟩
  rw [SessManage.incnt, (hmng _).1]
  exact hi

/-- The first session of a fresh table can be stored again. -/
theorem listed_updates_iff_one : ∃ kv₀ kv mng, Kv.empty.initializeBfdSessionTable = (.ok, kv₀) ∧
    (kv₀.insertAll [⟨default, ⟨2, 0, 1, 0⟩, 16⟩]).2 = kv ∧ kv.getSessManage = some mng ∧
    (kv.Updates default ⟨2, 0, 1, 0⟩ 16 ↔ mng.incnt (hashed (keyt ⟨2, 0, 1, 0⟩)) < sessionKeysListcnt) := by
  obtain ⟨kv₀, hinit, h₀⟩ := initialize_represents
  obtain ⟨kv₁, hrun, h⟩ := @insertSession_refines kv₀ Registry.empty default ⟨2, 0, 1, 0⟩ 16 h₀
    (by decide) (Registry.room_empty _)
  have hmem := (@Registry.mem_put Registry.empty (keyt ⟨2, 0, 1, 0⟩) (keyt ⟨2, 0, 1, 0⟩) default
    (Registry.room_empty _)).mpr (Or.inl rfl)
  obtain ⟨mng, list, i, hm, hl, hi, hk⟩ := h.listed hmem
  have hkv : (kv₀.insertAll [⟨default, ⟨2, 0, 1, 0⟩, 16⟩]).2 = kv₁ := by
    simp only [Kv.insertAll, hrun]
  exact ⟨kv₀, kv₁, mng, hinit, hkv, hm, listed_updates_iff [⟨default, ⟨2, 0, 1, 0⟩, 16⟩] hinit hkv hm hl hi hk default
    (by decide)⟩

/-- Insertions of new keys of one group, as long as it has room. -/
theorem insertAll_fill {g : Fin sessionKeysMax} : ∀ (calls : List InsertCall) {kv : Kv} {R : Registry},
    Represents kv R →
    (∀ c ∈ calls, c.cAddrlen ≠ 0 ∧ hashed (keyt c.cAddr) = g ∧ keyt c.cAddr ∉ R.listed g) →
    (calls.map fun c => keyt c.cAddr).Nodup → (R.listed g).length + calls.length ≤ sessionKeysListcnt →
    ∃ R', Represents (kv.insertAll calls).2 R' ∧ R'.listed g = R.listed g ++ calls.map fun c => keyt c.cAddr
  | [], kv, R, h, _, _, _ => ⟨R, h, by simp⟩
  | c :: cs, kv, R, h, hcalls, hnodup, hroom => by
    obtain ⟨hlen, rfl, hnew⟩ := hcalls c (by simp)
    simp only [List.map_cons, List.nodup_cons, List.length_cons] at hnodup hroom
    have room : (R.listed (hashed (keyt c.cAddr))).length < sessionKeysListcnt := by omega
    obtain ⟨kv₁, hrun, h₁⟩ := @insertSession_refines kv R c.psess c.cAddr c.cAddrlen h hlen room
    have hlisted : (R.put (keyt c.cAddr) c.psess room).listed (hashed (keyt c.cAddr)) =
        R.listed (hashed (keyt c.cAddr)) ++ [keyt c.cAddr] := if_pos ⟨rfl, hnew⟩
    obtain ⟨R', h', hR'⟩ := insertAll_fill cs h₁ (fun d hd => by
      obtain ⟨h1, h2, h3⟩ := hcalls d (by simp [hd])
      refine ⟨h1, h2, ?_⟩
      rw [hlisted, List.mem_append, List.mem_singleton]
      rintro (h4 | h4)
      · exact h3 h4
      · exact hnodup.1 (List.mem_map.mpr ⟨d, hd, h4⟩)) hnodup.2 (by
      rw [hlisted, List.length_append, List.length_singleton]
      omega)
    refine ⟨R', by simpa only [Kv.insertAll, hrun] using h', ?_⟩
    rw [hR', hlisted]
    simp

/-- The group of the peers that fill it. -/
def fullGroup : Fin sessionKeysMax := ⟨5, by decide⟩

/-- A peer of `fullGroup`: the first two bytes of its address are the same. -/
def groupCall (i : Nat) : InsertCall := ⟨default, ⟨2, 0, BitVec.ofNat 32 (257 * i), 0⟩, 16⟩

/-- As many peers as a group takes. -/
def fullCalls : List InsertCall := (List.range sessionKeysListcnt).map groupCall

theorem hashed_groupCall : ∀ i : Fin sessionKeysListcnt, hashed (keyt (groupCall i).cAddr) = fullGroup := by
  decide +kernel

theorem nodup_fullCalls : (fullCalls.map fun c => keyt c.cAddr).Nodup := by
  rw [fullCalls, List.map_map]
  refine List.Nodup.map_on (fun i hi j hj he => ?_) List.nodup_range
  rw [List.mem_range] at hi hj
  simp only [sessionKeysListcnt] at hi hj
  have haddr := congrArg (fun k : SessKey => k.addr.toNat) he
  simp only [Function.comp_apply, groupCall, keyt, BitVec.toNat_ofNat] at haddr
  omega

/-- The first of 128 peers of one group cannot be updated any more. -/
theorem full_refuses_update : ∃ kv₀ kv mng list i, Kv.empty.initializeBfdSessionTable = (.ok, kv₀) ∧
    (kv₀.insertAll fullCalls).2 = kv ∧ kv.getSessManage = some mng ∧
    kv.getSessManageKeylist (sessionKeysBase + BitVec.ofNat 32 (hashed (keyt (groupCall 0).cAddr))) = some list ∧
    i < mng.incnt (hashed (keyt (groupCall 0).cAddr)) ∧ keyAt list i = keyt (groupCall 0).cAddr ∧
    ¬ kv.Updates default (groupCall 0).cAddr 16 := by
  obtain ⟨kv₀, hinit, h₀⟩ := initialize_represents
  have hgroup : ∀ c ∈ fullCalls, c.cAddrlen ≠ 0 ∧ hashed (keyt c.cAddr) = fullGroup ∧
      keyt c.cAddr ∉ Registry.empty.listed fullGroup := by
    intro c hc
    obtain ⟨i, hi, rfl⟩ := List.mem_map.mp hc
    exact ⟨by simp [groupCall], hashed_groupCall ⟨i, List.mem_range.mp hi⟩, by simp [Registry.empty]⟩
  obtain ⟨R, h, hR⟩ := insertAll_fill fullCalls h₀ hgroup nodup_fullCalls (by simp [Registry.empty, fullCalls])
  have h5 : hashed (keyt (groupCall 0).cAddr) = fullGroup := hashed_groupCall ⟨0, by decide⟩
  have hlist : R.listed (hashed (keyt (groupCall 0).cAddr)) = fullCalls.map fun c => keyt c.cAddr := by
    rw [h5, hR]
    rfl
  have hmem : keyt (groupCall 0).cAddr ∈ R.listed (hashed (keyt (groupCall 0).cAddr)) := by
    rw [hlist, fullCalls, List.map_map]
    exact List.mem_map.mpr ⟨0, by simp, rfl⟩
  obtain ⟨mng, list, i, hm, hl, hi, hk⟩ := h.listed hmem
  refine ⟨kv₀, _, mng, list, i, hinit, rfl, hm, hl, hi, hk, ?_⟩
  rw [updates_iff_room h (by decide) hmem, hlist]
  simp [fullCalls]

end FullGroup

/-! ## A failing callback -/

section Silence

variable {σ : Type} {kv : Kv} {R : Registry}

/-- The callback, with each call and its result written down. -/
def loggedItr (itr : SessKey → BfdSess → σ → Int × σ) (k : SessKey) (s : BfdSess) :
    σ × List ((SessKey × BfdSess) × Int) → Int × (σ × List ((SessKey × BfdSess) × Int)) :=
  recorded (fun p => itr p.1 p.2) (k, s)

/-- The callback is called on every session of every group in which no call returned non-zero. -/
def ReachesOthers (kv : Kv) (R : Registry) (itr : SessKey → BfdSess → σ → Int × σ) (u : σ) : Prop :=
  ∀ g, (∀ q ∈ (kv.iterateAllSession (loggedItr itr) (u, [])).2, hashed q.1.1 = g → q.2 = 0) →
    ∀ k ∈ R.listed g, ∃ q ∈ (kv.iterateAllSession (loggedItr itr) (u, [])).2, q.1.1 = k

theorem mem_entries_listed {p : SessKey × BfdSess} (hp : p ∈ R.entries) : p.1 ∈ R.listed (hashed p.1) := by
  obtain ⟨k, s⟩ := p
  refine (R.stored k).mp ?_
  rw [Registry.mem_entries.mp hp]
  rfl

theorem exists_entry {g : Fin sessionKeysMax} {k : SessKey} (hk : k ∈ R.listed g) : ∃ s, (k, s) ∈ R.entries := by
  have hsess := (R.stored k).mpr (by rw [R.group g k hk]; exact hk)
  obtain ⟨s, hs⟩ := Option.isSome_iff_exists.mp hsess
  exact ⟨s, Registry.mem_entries.mpr hs⟩

/-- The log of the iteration: the sessions in their order, up to the first on which the callback fails. -/
theorem iterateAllSession_logged (h : Represents kv R) (itr : SessKey → BfdSess → σ → Int × σ) (u : σ) : ∃ vs,
    (kv.iterateAllSession (loggedItr itr) (u, [])).2 = answers (fun p => itr p.1 p.2) vs u ∧
      (vs = R.entries ∧ Quiet (· ≠ 0) (fun p => itr p.1 p.2) R.entries u ∨
        ∃ pre p post, R.entries = pre ++ p :: post ∧ vs = pre ++ [p] ∧
          Quiet (· ≠ 0) (fun p => itr p.1 p.2) pre u ∧ (itr p.1 p.2 (callAll (fun p => itr p.1 p.2) pre u)).1 ≠ 0) := by
  obtain ⟨vs, ended, hrun, hc⟩ := iterateAllSession_course h (loggedItr itr) (u, [])
  have hrec : (fun p : SessKey × BfdSess => loggedItr itr p.1 p.2) = recorded fun p => itr p.1 p.2 := rfl
  rw [hrec] at hrun hc
  refine ⟨vs, by rw [hrun, callAll_recorded]; rfl, ?_⟩
  rcases hc.cut with ⟨hvs, hq⟩ | ⟨pre, p, post, he, hvs, hq, hstop⟩
  · exact .inl ⟨hvs, (quiet_recorded ..).mp hq⟩
  · refine .inr ⟨pre, p, post, he, hvs, (quiet_recorded ..).mp hq, ?_⟩
    rw [callAll_recorded] at hstop
    exact hstop

/-- A failing callback leaves the other groups alone exactly if the first session on which it fails is in the last
group that has any. -/
theorem reachesOthers_iff (h : Represents kv R) (itr : SessKey → BfdSess → σ → Int × σ) (u : σ) :
    ReachesOthers kv R itr u ↔ ∀ pre p post, R.entries = pre ++ p :: post →
      Quiet (· ≠ 0) (fun p => itr p.1 p.2) pre u → (itr p.1 p.2 (callAll (fun p => itr p.1 p.2) pre u)).1 ≠ 0 →
        ∀ q ∈ post, hashed q.1 = hashed p.1 := by
  obtain ⟨vs, hlog, hcase⟩ := iterateAllSession_logged h itr u
  unfold ReachesOthers
  rw [hlog]
  have hcalled : ∀ p ∈ vs, ∃ q ∈ answers (fun p => itr p.1 p.2) vs u, q.1.1 = p.1 := by
    intro p hp
    rw [← @map_fst_answers _ _ _ (fun p => itr p.1 p.2) vs u, List.mem_map] at hp
    obtain ⟨q, hq, rfl⟩ := hp
    exact ⟨q, hq, rfl⟩
  rcases hcase with ⟨rfl, hq⟩ | ⟨pre, p, post, he, rfl, hq, hfail⟩
  · refine iff_of_true (fun g _ k hk => ?_) fun pre p post he _ hfail => ?_
    · obtain ⟨s, hs⟩ := exists_entry hk
      exact hcalled _ hs
    · rw [he, quiet_append] at hq
      exact absurd hfail hq.2.1
  · have hzero := (quiet_iff_answers pre u).mp hq
    rw [answers_append] at hcalled ⊢
    constructor
    · intro hreach pre' p' post' he' hq' hfail' q hmem
      obtain ⟨rfl, rfl, rfl⟩ := first_unique (he.symm.trans he') hq hfail hq' hfail'
      by_contra hne
      have hentry : q ∈ R.entries := he ▸ List.mem_append_right _ (List.mem_cons_of_mem _ hmem)
      have hquiet : ∀ c ∈ answers (fun p => itr p.1 p.2) pre u ++ answers (fun p => itr p.1 p.2) [p]
          (callAll (fun p => itr p.1 p.2) pre u), hashed c.1.1 = hashed q.1 → c.2 = 0 := by
        intro c hc hg
        rcases List.mem_append.mp hc with hc | hc
        · exact not_not.mp (hzero c hc)
        · rw [List.mem_singleton.mp hc] at hg
          exact absurd hg.symm hne
      -- `q` is listed, so it is called; but it comes after the break
      obtain ⟨c, hc, hkey⟩ := hreach (hashed q.1) hquiet q.1 (mem_entries_listed hentry)
      have hcs : c.1 ∈ pre ++ [p] := by
        rw [← @map_fst_answers _ _ _ (fun p => itr p.1 p.2) (pre ++ [p]) u, answers_append]
        exact List.mem_map_of_mem hc
      have hnodup := R.nodup_entries
      rw [he, List.append_cons, List.map_append, List.nodup_append] at hnodup
      exact hnodup.2.2 c.1.1 (List.mem_map_of_mem hcs) q.1 (List.mem_map_of_mem hmem) hkey
    · intro hlast g hquiet k hk
      have hp : hashed p.1 ≠ g := fun hg =>
        hfail (hquiet _ (List.mem_append_right _ (List.mem_singleton.mpr rfl)) hg)
      obtain ⟨s, hs⟩ := exists_entry hk
      rw [he, List.append_cons] at hs
      rcases List.mem_append.mp hs with hs | hs
      · exact hcalled _ hs
      · exact absurd ((hlast pre p post he hq hfail (k, s) hs).symm.trans (R.group g k hk)) hp

/-- Two peers of different groups. -/
def twoCalls : List InsertCall := [⟨default, ⟨2, 0, 1, 0⟩, 16⟩, ⟨default, ⟨2, 0, 2, 0⟩, 16⟩]

theorem twoCalls_represents : ∃ kv R, Represents kv R ∧
    ∀ c ∈ twoCalls, keyt c.cAddr ∈ R.listed (hashed (keyt c.cAddr)) := by
  obtain ⟨kv₀, -, h₀⟩ := initialize_represents
  obtain ⟨kv₁, -, h₁⟩ := @insertSession_refines kv₀ _ default ⟨2, 0, 1, 0⟩ 16 h₀ (by decide) (Registry.room_empty _)
  have room : ((Registry.empty.put (keyt ⟨2, 0, 1, 0⟩) default (Registry.room_empty _)).listed
      (hashed (keyt ⟨2, 0, 2, 0⟩))).length < sessionKeysListcnt := by
    have hne : hashed (keyt ⟨2, 0, 2, 0⟩) ≠ hashed (keyt ⟨2, 0, 1, 0⟩) := by decide
    rw [Registry.listed_put_of_ne hne]
    exact Registry.room_empty _
  obtain ⟨kv₂, -, h₂⟩ := @insertSession_refines kv₁ _ default ⟨2, 0, 2, 0⟩ 16 h₁ (by decide) room
  refine ⟨kv₂, _, h₂, fun c hc => ?_⟩
  simp only [twoCalls, List.mem_cons, List.not_mem_nil, or_false] at hc
  rcases hc with rfl | rfl
  · exact Registry.mem_put.mpr (.inr (Registry.mem_put.mpr (.inl rfl)))
  · exact Registry.mem_put.mpr (.inl rfl)

/-- With a callback that fails on the second peer only. -/
theorem reachesOthers_iff_two : ∃ kv R, Represents kv R ∧ (ReachesOthers kv R
    (fun k _ u => (if k.addr = 2 then -1 else 0, u)) () ↔ ∀ pre p post, R.entries = pre ++ p :: post →
      Quiet (· ≠ 0) (fun (p : SessKey × BfdSess) (u : Unit) => (if p.1.addr = 2 then (-1 : Int) else 0, u)) pre () →
        (if p.1.addr = 2 then (-1 : Int) else 0) ≠ 0 → ∀ q ∈ post, hashed q.1 = hashed p.1) := by
  obtain ⟨kv, R, h, -⟩ := twoCalls_represents
  exact ⟨kv, R, h, reachesOthers_iff h (fun k _ u => (if k.addr = 2 then -1 else 0, u)) ()⟩

/-- A callback that always fails is called on one of the two. -/
theorem break_silences : ∃ kv R, Represents kv R ∧ ¬ ReachesOthers kv R (fun _ _ (u : Unit) => (-1, u)) () := by
  obtain ⟨kv, R, h, htwo⟩ := twoCalls_represents
  refine ⟨kv, R, h, fun hreach => ?_⟩
  have h1 := htwo ⟨default, ⟨2, 0, 1, 0⟩, 16⟩ (by simp [twoCalls])
  have h2 := htwo ⟨default, ⟨2, 0, 2, 0⟩, 16⟩ (by simp [twoCalls])
  obtain ⟨vs, hlog, hcase⟩ := iterateAllSession_logged h (fun _ _ (u : Unit) => (-1, u)) ()
  unfold ReachesOthers at hreach
  rw [hlog] at hreach
  have hfails : (-1 : Int) ≠ 0 := by decide
  have hlast : ∃ p, vs = [p] := by
    rcases hcase with ⟨rfl, hq⟩ | ⟨pre, p, post, -, rfl, hq, -⟩
    · obtain ⟨s, hs⟩ := exists_entry h1
      cases he : R.entries with
      | nil => rw [he] at hs; cases hs
      | cons p ps => rw [he] at hq; exact absurd hfails hq.1
    · cases pre with
      | nil => exact ⟨p, rfl⟩
      | cons q qs => exact absurd hfails hq.1
  obtain ⟨p, rfl⟩ := hlast
  have hother : ∀ k, k ∈ R.listed (hashed k) → hashed k = hashed p.1 := by
    intro k hk
    by_contra hne
    obtain ⟨q, hq, he⟩ := hreach (hashed k) (fun q hq hg => by
      rw [List.mem_singleton.mp hq] at hg
      exact absurd hg.symm hne) k hk
    rw [List.mem_singleton.mp hq] at he
    exact hne (congrArg hashed he).symm
  exact absurd ((hother _ h1).trans (hother _ h2).symm) (by decide)

end Silence

/-! ## Failing stores -/

/-- The call stores a new session, and then the summary or the key list cannot be stored. -/
def Kv.HalfWritten (kv : Kv) (c : InsertCall) : Prop :=
  c.cAddrlen ≠ 0 ∧ ∃ mng list, kv.getSessManage = some mng ∧
    kv.getSessManageKeylist (sessionKeysBase + BitVec.ofNat 32 (hashed (keyt c.cAddr))) = some list ∧
    mng.incnt (hashed (keyt c.cAddr)) < sessionKeysListcnt ∧
    isupdate list (mng.keysIncnt (hashed (keyt c.cAddr))) (keyt c.cAddr) = false ∧
    kv.fails[0]? ≠ some true ∧ (kv.fails[1]? = some true ∨ kv.fails[2]? = some true)

/-- None of the calls in turn leaves its session half written. -/
def Kv.NeverHalfWritten : List InsertCall → Kv → Prop
  | [], _ => True
  | c :: cs, kv => ¬ kv.HalfWritten c ∧ Kv.NeverHalfWritten cs (kv.insertSession c.psess c.cAddr c.cAddrlen).2

/-- If the call does not return `RET_OK`, the sessions are found and iterated as before, and the table agrees. -/
def Kv.FailsCleanly (kv : Kv) (c : InsertCall) : Prop :=
  ∀ ret kv', kv.insertSession c.psess c.cAddr c.cAddrlen = (ret, kv') → ret ≠ .ok →
    (∀ cAddr cAddrlen, kv'.findSession cAddr cAddrlen = kv.findSession cAddr cAddrlen) ∧
    (∀ {σ : Type} (itr : SessKey → BfdSess → σ → Int × σ) (u : σ),
      kv'.iterateAllSession itr u = kv.iterateAllSession itr u) ∧
    ∃ mng lists, Agrees kv' mng lists

section FailingStores

variable {kv kv' : Kv} {R : Registry}

theorem Represents.eta (h : Represents kv R) : Represents ⟨kv.data, []⟩ R := by
  rw [← h.exact]
  exact h

theorem Kv.search_congr (hd : kv'.data = kv.data) (key : List Byte) (held : Bool) :
    kv'.search key held = kv.search key held := by
  rw [Kv.search, Kv.search, hd]

theorem iterateGroup_congr {σ : Type} {itr : SessKey → BfdSess → σ → Int × σ} {list : SessKeyList}
    (hd : kv'.data = kv.data) : ∀ (ms : List Nat) (held : Bool) (u : σ),
    kv'.iterateGroup itr list ms held u = kv.iterateGroup itr list ms held u
  | [], _, _ => rfl
  | m :: ms, held, u => by simp only [Kv.iterateGroup, Kv.search_congr hd, iterateGroup_congr hd ms]

theorem iterateGroups_congr {σ : Type} {itr : SessKey → BfdSess → σ → Int × σ} {mng : SessManage}
    (hd : kv'.data = kv.data) : ∀ (ns : List (Fin sessionKeysMax)) (held : Bool) (u : σ),
    kv'.iterateGroups itr mng ns held u = kv.iterateGroups itr mng ns held u
  | [], _, _ => rfl
  | n :: ns, held, u => by
    simp only [Kv.iterateGroups, getSessManageKeylist_congr (congrFun hd _), iterateGroup_congr hd,
      iterateGroups_congr hd ns]

theorem iterateAllSession_congr {σ : Type} {itr : SessKey → BfdSess → σ → Int × σ} (hd : kv'.data = kv.data) (u : σ) :
    kv'.iterateAllSession itr u = kv.iterateAllSession itr u := by
  simp only [Kv.iterateAllSession, getSessManage_congr (congrFun hd _), iterateGroups_congr hd]

theorem findSession_congr (hd : kv'.data = kv.data) (cAddr : SockaddrIn) (cAddrlen : BitVec 32) :
    kv'.findSession cAddr cAddrlen = kv.findSession cAddr cAddrlen := by
  simp only [Kv.findSession, Kv.search_congr hd]

/-- Whether stores to come will fail does not matter to what the records say. -/
theorem agrees_of_exact {mng : SessManage} {lists : Fin sessionKeysMax → SessKeyList}
    (h : Agrees ⟨kv.data, []⟩ mng lists) : Agrees kv mng lists :=
  ⟨h.manage, h.keylist, h.short, h.distinct, h.grouped, h.bits, h.stored⟩

theorem Kv.store_fails (h : kv.fails[0]? = some true) (key val : List Byte) :
    kv.store key val = (.ng, ⟨kv.data, kv.fails.tail⟩) := by
  obtain ⟨data, fails⟩ := kv
  cases fails with
  | nil => cases h
  | cons b bs => cases b <;> simp_all [Kv.store]

theorem Kv.store_ok (h : kv.fails[0]? ≠ some true) (key val : List Byte) :
    kv.store key val = (.ok, ⟨Function.update kv.data key (some val), kv.fails.tail⟩) := by
  obtain ⟨data, fails⟩ := kv
  cases fails with
  | nil => rfl
  | cons b bs => cases b <;> simp_all [Kv.store]

/-- The scan for the key finds it exactly if its session is stored. -/
theorem Represents.stored_iff (h : Represents ⟨kv.data, []⟩ R) {mng : SessManage} {list : SessKeyList} {key : SessKey}
    (hm : kv.getSessManage = some mng)
    (hl : kv.getSessManageKeylist (sessionKeysBase + BitVec.ofNat 32 (hashed key)) = some list) :
    (R.sess key).isSome = true ↔ isupdate list (mng.keysIncnt (hashed key)) key = true := by
  obtain ⟨mng₁, hm₁, hmng⟩ := h.manage
  obtain ⟨list₁, hl₁, hlist⟩ := h.lists (hashed key)
  obtain rfl : mng₁ = mng := Option.some.inj ((Kv.getSessManage_eq hm₁).symm.trans hm)
  obtain rfl : list₁ = list := Option.some.inj ((Kv.getSessManageKeylist_eq hl₁).symm.trans hl)
  rw [R.stored, isupdate_iff (hmng _).1 (R.short _) hlist]

theorem findSession_stored {cAddr : SockaddrIn} {cAddrlen : BitVec 32} {s : BfdSess} (hlen : cAddrlen ≠ 0)
    (h : kv.data (SessKey.codec.encode (keyt cAddr)) = some (BfdSess.codec.encode s)) :
    kv.findSession cAddr cAddrlen = some s := by
  rw [Kv.findSession, if_neg hlen]
  simp only [Kv.search, Bool.false_eq_true, if_false, h]
  rw [if_neg (by rw [BfdSess.codec.length_encode]; simp), BfdSess.codec.decode_encode]

/-- Unless it leaves its session half written, a call stores the session or nothing. -/
theorem insertSession_whole (h : Represents ⟨kv.data, []⟩ R) {c : InsertCall} (hc : ¬ kv.HalfWritten c) :
    ∃ ret kv', kv.insertSession c.psess c.cAddr c.cAddrlen = (ret, kv') ∧
      (ret ≠ .ok ∧ kv'.data = kv.data ∨ ret = .ok ∧ ∃ R', Represents ⟨kv'.data, []⟩ R') := by
  by_cases hlen : c.cAddrlen = 0
  · exact ⟨.ng, kv, if_pos hlen, .inl ⟨by decide, rfl⟩⟩
  · obtain ⟨mng, hm, hmng⟩ := h.manage
    obtain ⟨list, hl, hlist⟩ := h.lists (hashed (keyt c.cAddr))
    have hcnt := (hmng (hashed (keyt c.cAddr))).1
    have hm' : kv.getSessManage = some mng := Kv.getSessManage_eq hm
    have hl' : kv.getSessManageKeylist (sessionKeysBase + BitVec.ofNat 32 (hashed (keyt c.cAddr))) = some list :=
      Kv.getSessManageKeylist_eq hl
    rcases Nat.lt_or_ge (R.listed (hashed (keyt c.cAddr))).length sessionKeysListcnt with room | hfull
    · obtain ⟨kv₁, hrun, h₁⟩ := @insertSession_refines ⟨kv.data, []⟩ R c.psess c.cAddr c.cAddrlen h hlen room
      have hroom : ¬ sessionKeysListcnt ≤ (mng.keysIncnt (hashed (keyt c.cAddr))).toNat := by
        rw [hcnt]
        exact Nat.not_le.mpr room
      unfold Kv.insertSession at hrun ⊢
      simp only [if_neg hlen, Kv.getSessManage_eq hm, Kv.getSessManageKeylist_eq hl, if_neg hroom, Kv.storeU32key,
        Kv.store_mk] at hrun
      simp only [if_neg hlen, hm', hl', if_neg hroom, Kv.storeU32key]
      by_cases h0 : kv.fails[0]? = some true
      · rw [Kv.store_fails h0]
        exact ⟨.ng, _, rfl, .inl ⟨by decide, rfl⟩⟩
      · rw [Kv.store_ok h0]
        simp only
        cases hup : isupdate list (mng.keysIncnt (hashed (keyt c.cAddr))) (keyt c.cAddr) with
        | true =>
          rw [if_pos hup] at hrun
          rw [← (Prod.mk.inj hrun).2] at h₁
          exact ⟨.ok, _, if_pos rfl, .inr ⟨rfl, _, h₁⟩⟩
        | false =>
          have hfails : ¬ (kv.fails[1]? = some true ∨ kv.fails[2]? = some true) := fun hn =>
            hc ⟨hlen, mng, list, hm', hl', Nat.not_le.mp hroom, hup, h0, hn⟩
          obtain ⟨h1, h2⟩ := not_or.mp hfails
          rw [hup, if_neg Bool.false_ne_true] at hrun
          rw [← (Prod.mk.inj hrun).2] at h₁
          rw [if_neg Bool.false_ne_true, Kv.store_ok (by simpa using h1)]
          simp only
          rw [Kv.store_ok (by simpa using h2)]
          exact ⟨.ok, _, rfl, .inr ⟨rfl, _, h₁⟩⟩
    · refine ⟨.ng, kv, ?_, .inl ⟨by decide, rfl⟩⟩
      unfold Kv.insertSession
      simp only [if_neg hlen, hm', hl']
      rw [if_pos (by rw [hcnt]; exact hfull)]

/-- A session that is left half written is found. -/
theorem insertSession_half (h : Represents ⟨kv.data, []⟩ R) {c : InsertCall} (hc : kv.HalfWritten c) :
    ∃ ret kv', kv.insertSession c.psess c.cAddr c.cAddrlen = (ret, kv') ∧ ret ≠ .ok ∧
      kv'.findSession c.cAddr c.cAddrlen = some c.psess ∧ kv.findSession c.cAddr c.cAddrlen = none := by
  obtain ⟨hlen, mng, list, hm, hl, hroom, hup, h0, hfails⟩ := hc
  have hnone : kv.findSession c.cAddr c.cAddrlen = none := by
    rw [← @findSession_congr kv ⟨kv.data, []⟩ rfl, Kv.findSession_eq h c.cAddr hlen, ← Option.not_isSome_iff_eq_none,
      h.stored_iff hm hl, hup]
    exact Bool.false_ne_true
  have hroom' : ¬ sessionKeysListcnt ≤ (mng.keysIncnt (hashed (keyt c.cAddr))).toNat := Nat.not_le.mpr hroom
  unfold Kv.insertSession
  simp only [if_neg hlen, hm, hl, if_neg hroom', Kv.storeU32key]
  rw [Kv.store_ok h0]
  simp only [hup, Bool.false_eq_true, if_false]
  by_cases h1 : kv.fails[1]? = some true
  · rw [Kv.store_fails (by simpa using h1)]
    refine ⟨.warn, _, rfl, by decide, findSession_stored hlen ?_, hnone⟩
    exact Function.update_self ..
  · rw [Kv.store_ok (by simpa using h1)]
    simp only
    rw [Kv.store_fails (by simpa using hfails.resolve_left h1)]
    refine ⟨.warn, _, rfl, by decide, findSession_stored hlen ?_, hnone⟩
    simp only
    rw [Function.update_of_ne (encode_key_ne _ _), Function.update_self]

theorem insertAll_whole : ∀ (calls : List InsertCall) {kv : Kv} {R : Registry}, Represents ⟨kv.data, []⟩ R →
    kv.NeverHalfWritten calls → ∃ R', Represents ⟨(kv.insertAll calls).2.data, []⟩ R'
  | [], _, R, h, _ => ⟨R, h⟩
  | c :: cs, kv, R, h, hc => by
    obtain ⟨ret, kv', hrun, hcase⟩ := insertSession_whole h hc.1
    obtain ⟨R', h'⟩ : ∃ R', Represents ⟨kv'.data, []⟩ R' := by
      rcases hcase with ⟨-, hd⟩ | ⟨-, hR⟩
      · exact ⟨R, hd ▸ h⟩
      · exact hR
    have hcs := hc.2
    rw [hrun] at hcs
    simp only [Kv.insertAll, hrun]
    exact insertAll_whole cs h' hcs

theorem cleanly_iff (h : Represents ⟨kv.data, []⟩ R) (c : InsertCall) : kv.FailsCleanly c ↔ ¬ kv.HalfWritten c := by
  constructor
  · intro hclean hc
    obtain ⟨ret, kv', hrun, hret, hfound, hnone⟩ := insertSession_half h hc
    rw [(hclean ret kv' hrun hret).1, hnone] at hfound
    cases hfound
  · intro hc ret kv' hrun hret
    obtain ⟨ret₁, kv₁, hrun₁, hcase⟩ := insertSession_whole h hc
    obtain ⟨rfl, rfl⟩ := Prod.mk.inj (hrun.symm.trans hrun₁)
    rcases hcase with ⟨-, hd⟩ | ⟨hok, -⟩
    · obtain ⟨mng, lists, hagrees⟩ := h.agrees
      rw [← hd] at hagrees
      exact ⟨findSession_congr hd, fun itr u => iterateAllSession_congr hd u, mng, lists, agrees_of_exact hagrees⟩
    · exact absurd hok hret

/-- In a table that no call has left half written, a call that fails leaves the table as it was, exactly if it does not
leave its own session half written. -/
theorem failsCleanly_iff (calls : List InsertCall) (fails : List Bool) {kv₀ kv : Kv}
    (hinit : Kv.empty.initializeBfdSessionTable = (.ok, kv₀)) (hcalls : Kv.NeverHalfWritten calls ⟨kv₀.data, fails⟩)
    (hrun : (Kv.insertAll calls ⟨kv₀.data, fails⟩).2 = kv) (c : InsertCall) :
    kv.FailsCleanly c ↔ ¬ kv.HalfWritten c := by
  obtain ⟨kv₁, hinit₁, h₀⟩ := initialize_represents
  obtain rfl : kv₁ = kv₀ := (Prod.mk.inj (hinit₁.symm.trans hinit)).2
  obtain ⟨R, h⟩ := @insertAll_whole calls ⟨kv₁.data, fails⟩ _ h₀.eta hcalls
  rw [hrun] at h
  exact cleanly_iff h c

/-- On a fresh table, with a first store that fails. -/
theorem failsCleanly_iff_first : ∃ kv₀, Kv.empty.initializeBfdSessionTable = (.ok, kv₀) ∧
    (Kv.FailsCleanly ⟨kv₀.data, [true]⟩ ⟨default, ⟨2, 0, 1, 0⟩, 16⟩ ↔
      ¬ Kv.HalfWritten ⟨kv₀.data, [true]⟩ ⟨default, ⟨2, 0, 1, 0⟩, 16⟩) := by
  obtain ⟨kv₀, hinit, -⟩ := initialize_represents
  exact ⟨kv₀, hinit, failsCleanly_iff [] [true] hinit trivial rfl ⟨default, ⟨2, 0, 1, 0⟩, 16⟩⟩

/-- The first session of a fresh table is stored, its summary is not: the call fails, and the session is found. -/
theorem half_written_found : ∃ kv₀, Kv.empty.initializeBfdSessionTable = (.ok, kv₀) ∧
    ¬ Kv.FailsCleanly ⟨kv₀.data, [false, true]⟩ ⟨default, ⟨2, 0, 1, 0⟩, 16⟩ := by
  obtain ⟨kv₀, hinit, h₀⟩ := initialize_represents
  have h := h₀.eta
  refine ⟨kv₀, hinit, fun hclean => (@cleanly_iff ⟨kv₀.data, [false, true]⟩ _ h _).mp hclean ?_⟩
  obtain ⟨mng, hm, hmng⟩ := h.manage
  obtain ⟨list, hl, -⟩ := h.lists (hashed (keyt ⟨2, 0, 1, 0⟩))
  refine ⟨by decide, mng, list, Kv.getSessManage_eq hm, Kv.getSessManageKeylist_eq hl, ?_, ?_, by simp, by simp⟩
  · rw [SessManage.incnt, (hmng _).1]
    exact Registry.room_empty _
  · rw [← Bool.not_eq_true, ← h.stored_iff (Kv.getSessManage_eq hm) (Kv.getSessManageKeylist_eq hl)]
    simp [Registry.empty]

end FailingStores

end NetworkBfd.Bfdd
