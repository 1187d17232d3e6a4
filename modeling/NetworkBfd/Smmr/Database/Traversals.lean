import NetworkBfd.Smmr.Database.Entries
import NetworkBfd.Smmr.Tree.Reached

/-!
# The two traversals

What `search` and `store` do to the files and to their containers while they traverse an index whose entries refer to
items. `visited_spec` says which entries they reach, `visited_eq` reads them off the order of visits.
`searchTraversal_spec` says what the search leaves (the value of the last entry of the key, the expired entries reserved
and their pages given back) and `updateTraversal_spec` what the update leaves (the values that fit overwritten in
place).
-/

namespace NetworkBfd.Smmr

open Lib Lib.Bytes

/-! ## Reached entries -/

section Visited

variable {b : Build} {curtime : BitVec 32} {key : List Byte} {files : Datafiles}

theorem callAll_note : ∀ vs nodes : List NodeKey, callAll (note b curtime key files) vs nodes = nodes ++ vs
  | [], nodes => (List.append_nil nodes).symm
  | v :: vs, nodes => by
    rw [callAll, callAll_note vs, note, List.append_assoc]
    rfl

theorem note_ne_ng {e : NodeKey} {nodes : List NodeKey} (h : ¬ (found b curtime key files e).stops) :
    ¬ (note b curtime key files e nodes).1 = .ng := by
  rw [note, if_neg h]
  exact fun hc => by cases hc

theorem quiet_note : ∀ {vs : List NodeKey} (nodes : List NodeKey),
    (∀ e ∈ vs, ¬ (found b curtime key files e).stops) → Quiet (· = Ret.ng) (note b curtime key files) vs nodes
  | [], _, _ => trivial
  | v :: _, _, h => ⟨note_ne_ng (h v (List.mem_cons_self ..)), quiet_note _ fun e he => h e (List.mem_cons_of_mem _ he)⟩

/-- A traversal reaches entries with the hash of the key, each once, and all of them if it is nowhere stopped. -/
theorem visited_spec {db : Database} {S : Finset NodeKey} (h : db.inst.Indexes S) (hh : safeHash key ≠ 0) :
    (∃ r, db.inst.findTreeOnlyKeyhashSafe (safeHash key) (note b curtime key db.files) [] =
      .ok (r, visited b curtime key db)) ∧
    (visited b curtime key db).Nodup ∧ (∀ e ∈ visited b curtime key db, e ∈ S ∧ e.keyhash = safeHash key) ∧
    ((∀ e ∈ visited b curtime key db, ¬ (found b curtime key db.files e).stops) →
      ∀ e ∈ S, e.keyhash = safeHash key → e ∈ visited b curtime key db) := by
  obtain ⟨r, nodes, L, hrun, ⟨vs, hvs, hsub, hall⟩, hnd, hmem⟩ :=
    TreeInstance.findTreeOnlyKeyhashSafe_spec h hh (note b curtime key db.files) []
  rw [callAll_note, List.nil_append] at hvs
  subst hvs
  have hvisited : visited b curtime key db = nodes := by rw [visited, hrun]
  rw [hvisited]
  obtain ⟨l, hperm, hl⟩ := hsub
  refine ⟨⟨r, hrun⟩, hperm.nodup_iff.mp (hl.nodup hnd), fun e he => ?_, fun hquiet e he hk => ?_⟩
  · exact (hmem e).mp (hl.subset (hperm.mem_iff.mpr he))
  · exact (hall (quiet_note [] hquiet)).mem_iff.mpr ((hmem e).mpr ⟨he, hk⟩)

/-- What a traversal reaches, by the order of visits in the tree of the hash. -/
theorem visited_eq {db : Database} {c : Fin categoryCnt} {n : Nat} {t : KeyTree n}
    (hc : TreeInstance.getCategoryId (safeHash key) = some c) (ht : (db.inst c).Holds n t) :
    visited b curtime key db =
      reached (fun e => (found b curtime key db.files e).stops) 0 (CategoryTree.visitSkips (safeHash key) n t) := by
  have hfunc : ∀ e nodes, (note b curtime key db.files e nodes).1 = .ng ↔ (found b curtime key db.files e).stops := by
    intro e nodes
    rw [note]
    split
    · exact iff_of_true rfl ‹_›
    · exact iff_of_false (fun hng => by cases hng) ‹_›
  obtain ⟨r, hrun⟩ := CategoryTree.findTreeOnlyKeyhashSafe_reached hc ht hfunc []
  simp only [visited, hrun, callAll_note, List.nil_append]

/-- A key without hash is never looked for. -/
theorem findTreeOnlyKeyhashSafe_zero {σ : Type} (inst : TreeInstance) (func : NodeKey → σ → Ret × σ) (u : σ) :
    inst.findTreeOnlyKeyhashSafe 0 func u = .ok (.ng, u) := rfl

theorem visited_zero {db : Database} (hh : safeHash key = 0) : visited b curtime key db = [] := by
  rw [visited, hh, findTreeOnlyKeyhashSafe_zero]

end Visited

/-! ## The search -/

/-- The entry is expired. -/
def expiredAt (items : NodeKey → Item) (curtime : BitVec 32) (e : NodeKey) : Bool := (items e).expired curtime

/-- The entry is of the key, and not expired. -/
def sameAt (items : NodeKey → Item) (curtime : BitVec 32) (key : List Byte) (e : NodeKey) : Bool :=
  !(items e).expired curtime && decide ((items e).key = key)

/-- The value of the last entry of the key among `L`. -/
def lastValue (items : NodeKey → Item) (curtime : BitVec 32) (key : List Byte) (L : List NodeKey) : List Byte × Ret :=
  match (L.filter (sameAt items curtime key)).getLast? with
  | some e => ((items e).val, .ok)
  | none => ([], .ng)

/-- What a container of `search` holds when its traversal has reached the entries `L`. -/
structure Collected (key : List Byte) (curtime : BitVec 32) (items : NodeKey → Item) (c : FindContainer)
    (L : List NodeKey) : Prop where
  key_eq : c.key = key
  reserved : c.removeReserved = L.filter (expiredAt items curtime)
  found : (c.val, c.flag) = lastValue items curtime key L

/-- The expired entries among `L`. -/
def expiredOf (items : NodeKey → Item) (curtime : BitVec 32) (L : List NodeKey) : Finset NodeKey :=
  (L.filter (expiredAt items curtime)).toFinset

theorem filter_snoc_of_pos {p : NodeKey → Bool} {L : List NodeKey} {e : NodeKey} (h : p e = true) :
    (L ++ [e]).filter p = L.filter p ++ [e] := by
  rw [List.filter_append, List.filter_cons_of_pos h, List.filter_nil]

theorem filter_snoc_of_neg {p : NodeKey → Bool} {L : List NodeKey} {e : NodeKey} (h : ¬ p e = true) :
    (L ++ [e]).filter p = L.filter p := by
  rw [List.filter_append, List.filter_cons_of_neg h, List.filter_nil, List.append_nil]

section Search

variable {b : Build} {curtime : BitVec 32} {key : List Byte} {files : Datafiles} {S : Finset NodeKey}
  {items : NodeKey → Item} {e : NodeKey} {it : Item}

theorem isEmpty_of_keyhash_ne (h : e.keyhash ≠ 0) : e.isEmpty = false := by
  rw [NodeKey.isEmpty, beq_eq_false_iff_ne.mpr h]
  rfl

/-- The callback of `search` on an entry. -/
theorem searchCallback_entry (h : EntryOf b files e it) (c : FindContainer) :
    findindexCallbackForSearch b curtime e (c, files) =
      if it.expired curtime then (.warn, c.reserve e, (changeFreeToDatafile b e files).2)
      else if it.key = c.key then (.ng, { c with val := it.val, flag := .ok }, files)
      else (.ok, c, files) := by
  obtain ⟨f, -, hit, hnode⟩ := h.reads
  have hval : read f (e.dataOffset.toNat + sizeofDataitm + itemKeylen f e.dataOffset.toNat)
      (itemVallen f e.dataOffset.toNat) = it.val := by
    rw [hit.keylen, hit.vallen, hit.val]
  simp only [findindexCallbackForSearch, hnode, hit.expired_eq, hit.sameKey_iff, hval]

/-- The pages of an expired entry. -/
theorem EntryOf.free (h : EntryOf b files e it) :
    Released files (changeFreeToDatafile b e files).2 it e.dataField.toNat e.page := by
  obtain ⟨files', hrun, hr⟩ := changeFreeToDatafile_spec h.holds h.short h.field h.page_pos h.page_le rfl h.offset
  rw [hrun]
  exact hr

/-- Container and files along the reached entries. -/
def SearchState (b : Build) (curtime : BitVec 32) (key : List Byte) (files : Datafiles) (S : Finset NodeKey)
    (items : NodeKey → Item) (u : FindContainer × Datafiles) (L : List NodeKey) : Prop :=
  Collected key curtime items u.1 L ∧ Holding b u.2 S (S \ expiredOf items curtime L) items ∧
    (expiredOf items curtime L = ∅ → u.2 = files)

/-- The reached entries are of `S`, no two the same, and no more of them are expired than can be reserved. -/
def Reserves (curtime : BitVec 32) (S : Finset NodeKey) (items : NodeKey → Item) (L : List NodeKey) : Prop :=
  L.Nodup ∧ (∀ e ∈ L, e ∈ S) ∧ (L.filter (expiredAt items curtime)).length ≤ removeReservedCount

theorem Reserves.init {L : List NodeKey} (h : Reserves curtime S items (L ++ [e])) :
    Reserves curtime S items L ∧ e ∈ S ∧ e ∉ L ∧ ((items e).expired curtime = true →
      (L.filter (expiredAt items curtime)).length < removeReservedCount) := by
  obtain ⟨hnd, hmem, hlen⟩ := h
  have hle : (L.filter (expiredAt items curtime)).length ≤ ((L ++ [e]).filter (expiredAt items curtime)).length :=
    ((List.sublist_append_left L [e]).filter _).length_le
  refine ⟨⟨(List.nodup_append.mp hnd).1, fun x hx => hmem x (List.mem_append_left _ hx), Nat.le_trans hle hlen⟩,
    hmem e (List.mem_append_right _ (List.mem_singleton_self e)), fun he => ?_, fun hexp => ?_⟩
  · exact (List.nodup_append.mp hnd).2.2 e he e (List.mem_singleton_self e) rfl
  · rw [filter_snoc_of_pos (show expiredAt items curtime e = true from hexp), List.length_append] at hlen
    exact hlen

/-- One call of the callback of `search`. -/
theorem searchCallback_follows (hent : ∀ e ∈ S, EntryOf b files e (items e)) (hhash : ∀ e ∈ S, e.keyhash ≠ 0) :
    CallFollows (SearchState b curtime key files S items) (Reserves curtime S items)
      (findindexCallbackForSearch b curtime) (note b curtime key files) := by
  intro e L hL
  obtain ⟨hL', heS, heL, hroom⟩ := Reserves.init hL
  refine ⟨hL', ?_⟩
  rintro ⟨c, fs⟩ ⟨⟨hkey, hres, hfound⟩, hhold, hsame⟩
  dsimp only at hkey hres hfound hhold hsame
  subst hkey
  have hentry := hhold.entries e heS
  rw [searchCallback_entry hentry, note, (hent e heS).found]
  by_cases hexp : (items e).expired curtime = true
  · have hp : expiredAt items curtime e = true := hexp
    have hq : ¬ sameAt items curtime c.key e = true := by simp [sameAt, hexp]
    have hexpired : expiredOf items curtime (L ++ [e]) = insert e (expiredOf items curtime L) := by
      rw [expiredOf, filter_snoc_of_pos hp, List.toFinset_append, expiredOf]
      ext x
      simp
    simp only [hexp, if_true]
    refine ⟨by simp [Found.stops], ⟨?_, ?_, ?_⟩, ?_, fun hnone => ?_⟩
    · rw [FindContainer.reserve]
      split <;> rfl
    · rw [filter_snoc_of_pos hp, ← hres, FindContainer.reserve, if_pos]
      rw [hres]
      exact ⟨hroom hexp, isEmpty_of_keyhash_ne (hhash e heS)⟩
    · rw [lastValue, filter_snoc_of_neg hq, ← lastValue, ← hfound, FindContainer.reserve]
      split <;> rfl
    · have heT : e ∈ S \ expiredOf items curtime L := by
        refine Finset.mem_sdiff.mpr ⟨heS, fun h => heL ?_⟩
        exact List.mem_of_mem_filter (List.mem_toFinset.mp h)
      have hfreed := hhold.free heT hentry.free
      rwa [← Finset.sdiff_insert, ← hexpired] at hfreed
    · rw [hexpired] at hnone
      exact absurd (Finset.mem_insert_self e _) (hnone ▸ Finset.notMem_empty e)
  · have hp : ¬ expiredAt items curtime e = true := hexp
    have hexpired : expiredOf items curtime (L ++ [e]) = expiredOf items curtime L := by
      rw [expiredOf, filter_snoc_of_neg hp, expiredOf]
    simp only [hexp, Bool.false_eq_true, if_false]
    by_cases hk : (items e).key = c.key
    · have hq : sameAt items curtime c.key e = true := by simp [sameAt, hexp, hk]
      simp only [hk, if_true]
      refine ⟨by simp [Found.stops], ⟨rfl, by rw [filter_snoc_of_neg hp, hres], ?_⟩, ?_, ?_⟩
      · rw [lastValue, filter_snoc_of_pos hq, List.getLast?_append]
        rfl
      · rw [hexpired]
        exact hhold
      · rw [hexpired]
        exact hsame
    · have hq : ¬ sameAt items curtime c.key e = true := by simp [sameAt, hk]
      simp only [hk, if_false]
      refine ⟨by simp [Found.stops], ⟨rfl, by rw [filter_snoc_of_neg hp, hres], ?_⟩, ?_, ?_⟩
      · rw [lastValue, filter_snoc_of_neg hq, ← lastValue, hfound]
      · rw [hexpired]
        exact hhold
      · rw [hexpired]
        exact hsame

/-- What the traversal of `search` leaves. -/
theorem searchTraversal_spec {db : Database} (h : db.inst.Indexes S) (hhold : Holding b db.files S S items)
    (hhash : ∀ e ∈ S, e.keyhash ≠ 0)
    (hroom : ((visited b curtime key db).filter (expiredAt items curtime)).length ≤ removeReservedCount) :
    ∃ r u, db.inst.findTreeOnlyKeyhashSafe (safeHash key) (findindexCallbackForSearch b curtime)
        (⟨safeHash key, key, [], .ng, default, []⟩, db.files) = .ok (r, u) ∧
      SearchState b curtime key db.files S items u (visited b curtime key db) := by
  have hstart :
      SearchState b curtime key db.files S items (⟨safeHash key, key, [], .ng, default, []⟩, db.files) [] := by
    refine ⟨⟨rfl, rfl, rfl⟩, hhold.mono (Finset.Subset.refl S) Finset.sdiff_subset, fun _ => rfl⟩
  by_cases hh : safeHash key = 0
  · rw [visited_zero hh]
    refine ⟨.ng, _, ?_, hstart⟩
    rw [hh]
    rfl
  obtain ⟨⟨r, hrun⟩, hnd, hmem, -⟩ := @visited_spec b curtime key db S h hh
  have hreserves : Reserves curtime S items (visited b curtime key db) := ⟨hnd, fun e he => (hmem e he).1, hroom⟩
  obtain ⟨-, hfollow⟩ := findTreeOnlyKeyhashSafe_follows (searchCallback_follows hhold.entries hhash) db.inst
    (safeHash key) [] r _ hrun hreserves
  obtain ⟨u, hu, hR⟩ := hfollow _ hstart
  exact ⟨r, u, hu, hR⟩

end Search

/-! ## The update -/

/-- `new` is of the same key as the item of `e` and fits its pages, so it overwrites the value. -/
def Overwrites (curtime : BitVec 32) (items : NodeKey → Item) (new : Item) (e : NodeKey) : Prop :=
  (items e).expired curtime = false ∧ (items e).key = new.key ∧ new.aligned ≤ (items e).aligned

instance (curtime : BitVec 32) (items : NodeKey → Item) (new : Item) (e : NodeKey) :
    Decidable (Overwrites curtime items new e) := inferInstanceAs (Decidable (_ ∧ _ ∧ _))

/-- The items after a traversal for an update reached `L`. -/
def overwritten (curtime : BitVec 32) (items : NodeKey → Item) (new : Item) (L : List NodeKey) (e : NodeKey) : Item :=
  if e ∈ L ∧ Overwrites curtime items new e then (items e).rewrite new else items e

section Update

variable {b : Build} {curtime : BitVec 32} {files : Datafiles} {S : Finset NodeKey} {items : NodeKey → Item}
  {e : NodeKey} {it new : Item}

/-- A value that is there already. -/
theorem overwriteVal_self {f : Bytes} {off : Nat} (h : HoldsItem f off it) : overwriteVal f off it.val = f := by
  have hsame : write f (off + sizeofDataitm + itemKeylen f off) it.val = f := by
    funext i
    rw [h.keylen]
    by_cases hi : off + sizeofDataitm + it.key.length ≤ i ∧ i < off + sizeofDataitm + it.key.length + it.val.length
    · have hval := h.val
      obtain ⟨j, rfl⟩ := Nat.exists_eq_add_of_le hi.1
      have hj : j < it.val.length := by omega
      have hread := getElem?_read f it.val.length (off + sizeofDataitm + it.key.length) j
      rw [hval, if_pos hj, List.getElem?_eq_getElem hj] at hread
      rw [write_of_inside hj]
      exact Option.some.inj hread
    · exact write_of_outside (by omega)
  simp only [overwriteVal, hsame, h.vallen]
  rw [if_neg (not_not.mpr rfl)]

/-- The callback of `store` on an entry. -/
theorem updateCallback_entry (h : EntryOf b files e it) {f : Bytes} (hf : files e.dataField.toNat = some f)
    (c : FindContainer) :
    findindexCallbackForUpdateInsert b curtime e (c, files) =
      if it.expired curtime then (.ok, { c with flag := .moredata }, files)
      else if it.key = c.key then
        if alignedSize (itemLength c.key.length c.val.length) ≤ it.aligned then
          (.ng, { c with flag := .moredata },
            Function.update files e.dataField.toNat (some (overwriteVal f e.dataOffset.toNat c.val)))
        else (.ng, { c with flag := .moredata, resultnode := e }, files)
      else (.ok, { c with flag := .moredata }, files) := by
  obtain ⟨g, hg, hit, hnode⟩ := h.reads
  obtain rfl := Option.some.inj (hf.symm.trans hg)
  have hself : Function.update files e.dataField.toNat (some f) = files := by
    rw [← hf, Function.update_eq_self]
  have hfield : ¬ ipcDatafileMax b < e.dataField.toNat := Nat.not_lt.mpr (Nat.le_of_lt h.field)
  have halign : alignedSize (itemLengthField f e.dataOffset.toNat) = it.aligned := by
    rw [hit.length]
    rfl
  have hsome : ¬ (some f = (none : Option Bytes)) := fun hn => by cases hn
  simp only [findindexCallbackForUpdateInsert, hfield, if_false, hf, hnode, hsome, hit.expired_eq, hit.sameKey_iff,
    halign]
  by_cases hexp : it.expired curtime = true
  · simp only [hexp, if_true, hself]
  by_cases hk : it.key = c.key
  · by_cases hle : alignedSize (itemLength c.key.length c.val.length) ≤ it.aligned
    · simp only [hexp, Bool.false_eq_true, if_false, hk, hle, if_true]
    · simp only [hexp, Bool.false_eq_true, if_false, hk, hle, if_true, hself]
  · simp only [hexp, Bool.false_eq_true, if_false, hk, hself]

/-- The headers of the files are as before. -/
def SameHeaders (files files' : Datafiles) : Prop :=
  (∀ j f, files j = some f → ∃ f', files' j = some f' ∧ taken f' = taken f ∧ remainLength f' = remainLength f ∧
    usedLength f' = usedLength f) ∧ ∀ j, (files' j).isSome = (files j).isSome

theorem SameHeaders.refl (files : Datafiles) : SameHeaders files files :=
  ⟨fun _ f hf => ⟨f, hf, rfl, rfl, rfl⟩, fun _ => rfl⟩

theorem SameHeaders.trans {files₁ files₂ files₃ : Datafiles} (h : SameHeaders files₁ files₂)
    (h' : SameHeaders files₂ files₃) : SameHeaders files₁ files₃ := by
  refine ⟨fun j f hf => ?_, fun j => (h'.2 j).trans (h.2 j)⟩
  obtain ⟨g, hg, h1, h2, h3⟩ := h.1 j f hf
  obtain ⟨g', hg', h1', h2', h3'⟩ := h'.1 j g hg
  exact ⟨g', hg', h1'.trans h1, h2'.trans h2, h3'.trans h3⟩

/-- Container and files along the reached entries. -/
def UpdateState (b : Build) (curtime : BitVec 32) (new : Item) (files : Datafiles) (S : Finset NodeKey)
    (items : NodeKey → Item) (u : FindContainer × Datafiles) (L : List NodeKey) : Prop :=
  (u.1.key = new.key ∧ u.1.val = new.val ∧ u.1.flag = .moredata) ∧
    Holding b u.2 S S (overwritten curtime items new L) ∧ SameHeaders files u.2 ∧
    ((∀ e ∈ L, Overwrites curtime items new e → (items e).val = new.val) → u.2 = files)

/-- The reached entries are of `S`, no two the same. -/
def Reaches (S : Finset NodeKey) (L : List NodeKey) : Prop := L.Nodup ∧ ∀ e ∈ L, e ∈ S

/-- An entry that is not overwritten changes no item. -/
theorem overwritten_skip {L : List NodeKey} (h : ¬ Overwrites curtime items new e) :
    overwritten curtime items new (L ++ [e]) = overwritten curtime items new L := by
  funext x
  by_cases hx : x = e
  · subst hx
    rw [overwritten, overwritten, if_neg fun hn => h hn.2, if_neg fun hn => h hn.2]
  · simp only [overwritten, List.mem_append, List.mem_singleton, hx, or_false]

theorem overwritten_step {L : List NodeKey} (h : Overwrites curtime items new e) (he : e ∉ L) :
    overwritten curtime items new (L ++ [e]) =
      Function.update (overwritten curtime items new L) e ((overwritten curtime items new L e).rewrite new) := by
  funext x
  by_cases hx : x = e
  · subst hx
    rw [Function.update_self, overwritten, if_pos ⟨List.mem_append_right _ (List.mem_singleton_self x), h⟩, overwritten,
      if_neg fun hn => he hn.1]
  · rw [Function.update_of_ne hx]
    simp only [overwritten, List.mem_append, List.mem_singleton, hx, or_false]

/-- One call of the callback of `store`. -/
theorem updateCallback_follows (hent : ∀ e ∈ S, EntryOf b files e (items e)) (hs : new.Short) (hval : new.val ≠ []) :
    CallFollows (UpdateState b curtime new files S items) (Reaches S)
      (findindexCallbackForUpdateInsert b curtime) (note b curtime new.key files) := by
  rintro e L ⟨hnd, hmem⟩
  have heS := hmem e (List.mem_append_right _ (List.mem_singleton_self e))
  have heL : e ∉ L := fun he => (List.nodup_append.mp hnd).2.2 e he e (List.mem_singleton_self e) rfl
  refine ⟨⟨(List.nodup_append.mp hnd).1, fun x hx => hmem x (List.mem_append_left _ hx)⟩, ?_⟩
  rintro ⟨c, fs⟩ ⟨⟨hkey, hcval, hflag⟩, hhold, hheaders, hsame⟩
  dsimp only at hkey hcval hflag hhold hheaders hsame
  -- the entry has not been reached before
  have hitem : overwritten curtime items new L e = items e := by rw [overwritten, if_neg fun hn => heL hn.1]
  have hentry := hhold.entries e heS
  rw [hitem] at hentry
  obtain ⟨f, hf, hit, -⟩ := hentry.reads
  have hskip : ¬ Overwrites curtime items new e → ∀ c' : FindContainer, c'.key = new.key → c'.val = new.val →
      UpdateState b curtime new files S items ({ c' with flag := .moredata }, fs) (L ++ [e]) := by
    intro hno c' hk hv
    refine ⟨⟨hk, hv, rfl⟩, by rw [overwritten_skip hno]; exact hhold, hheaders, fun hall => ?_⟩
    exact hsame fun x hx => hall x (List.mem_append_left _ hx)
  rw [updateCallback_entry hentry hf, note, (hent e heS).found, hkey, hcval]
  by_cases hexp : (items e).expired curtime = true
  · simp only [hexp, if_true]
    refine ⟨by simp [Found.stops], hskip (fun hn => ?_) { c with key := new.key, val := new.val } rfl rfl⟩
    exact Bool.noConfusion (hexp.symm.trans hn.1)
  simp only [hexp, Bool.false_eq_true, if_false]
  by_cases hk : (items e).key = new.key
  · simp only [hk, if_true]
    by_cases hle : new.aligned ≤ (items e).aligned
    · have hov : Overwrites curtime items new e := ⟨by simpa using hexp, hk, hle⟩
      rw [if_pos (show alignedSize (itemLength new.key.length new.val.length) ≤ (items e).aligned from hle)]
      have hr := hentry.rewritten hs hk.symm hle hf
      have hkeyL : new.key = (overwritten curtime items new L e).key := by rw [hitem, hk]
      have hleL : new.aligned ≤ (overwritten curtime items new L e).aligned := by rwa [hitem]
      refine ⟨by simp [Found.stops], ⟨rfl, rfl, rfl⟩, ?_, hheaders.trans ⟨hr.header, hr.mapped⟩, fun hall => ?_⟩
      · rw [overwritten_step hov heL]
        exact hhold.overwrite heS hs hval hkeyL hleL (by rw [hitem]; exact hr)
      · have hv := hall e (List.mem_append_right _ (List.mem_singleton_self e)) hov
        rw [← hv, overwriteVal_self hit, ← hf, Function.update_eq_self]
        exact hsame fun x hx => hall x (List.mem_append_left _ hx)
    · rw [if_neg (show ¬ alignedSize (itemLength new.key.length new.val.length) ≤ (items e).aligned from hle)]
      exact ⟨by simp [Found.stops], hskip (fun hn => hle hn.2.2)
        { c with key := new.key, val := new.val, resultnode := e } rfl rfl⟩
  · simp only [hk, if_false]
    exact ⟨by simp [Found.stops], hskip (fun hn => hk hn.2.1) { c with key := new.key, val := new.val } rfl rfl⟩

/-- What the traversal of `store` leaves. -/
theorem updateTraversal_spec {db : Database} (h : db.inst.Indexes S) (hhold : Holding b db.files S S items)
    (hs : new.Short) (hval : new.val ≠ []) :
    ∃ r u, db.inst.findTreeOnlyKeyhashSafe (safeHash new.key) (findindexCallbackForUpdateInsert b curtime)
        (⟨safeHash new.key, new.key, new.val, .moredata, default, []⟩, db.files) = .ok (r, u) ∧
      UpdateState b curtime new db.files S items u (visited b curtime new.key db) := by
  have hnothing : overwritten curtime items new [] = items := by
    funext x
    rw [overwritten, if_neg fun hn => List.not_mem_nil hn.1]
  have hstart : UpdateState b curtime new db.files S items
      (⟨safeHash new.key, new.key, new.val, .moredata, default, []⟩, db.files) [] := by
    refine ⟨⟨rfl, rfl, rfl⟩, ?_, SameHeaders.refl _, fun _ => rfl⟩
    rw [hnothing]
    exact hhold
  by_cases hh : safeHash new.key = 0
  · rw [visited_zero hh]
    refine ⟨.ng, _, ?_, hstart⟩
    rw [hh]
    rfl
  obtain ⟨⟨r, hrun⟩, hnd, hmem, -⟩ := @visited_spec b curtime new.key db S h hh
  obtain ⟨-, hfollow⟩ := findTreeOnlyKeyhashSafe_follows (updateCallback_follows hhold.entries hs hval) db.inst
    (safeHash new.key) [] r _ hrun ⟨hnd, fun e he => (hmem e he).1⟩
  obtain ⟨u, hu, hR⟩ := hfollow _ hstart
  exact ⟨r, u, hu, hR⟩

end Update

end NetworkBfd.Smmr
