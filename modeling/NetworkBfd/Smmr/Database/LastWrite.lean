import NetworkBfd.Smmr.Database.Stores

/-!
# The last value of a key

`run_lastWrite`: a search returns the value of the last store of its key, as long as no store leaves a node of its key
with an older value in the index (`Replaces`). `store` never removes the node that it found, so a longer value does
(`search_stale`).
-/

namespace NetworkBfd.Smmr

open Lib Lib.Bytes CategoryTree

/-- The value of the item that a node refers to. -/
def valueOf (files : Datafiles) (e : NodeKey) : List Byte :=
  match files e.dataField.toNat with
  | some f =>
    let off := e.dataOffset.toNat
    read f (off + sizeofDataitm + itemKeylen f off) (itemVallen f off)
  | none => []

theorem EntryOf.valueOf_eq {b : Build} {files : Datafiles} {e : NodeKey} {it : Item} (h : EntryOf b files e it) :
    valueOf files e = it.val := by
  obtain ⟨f, hf, hit, -⟩ := h.reads
  simp only [valueOf, hf, hit.keylen, hit.vallen, hit.val]

namespace Database

/-- Every node of the key has the value, or the store comes to it and finds pages enough. In the order of visits it
leaves out what a node of the key at which it stops leaves out. -/
def Replaces (it : Item) (db : Database) : Prop :=
  ∀ c n (t : KeyTree n), TreeInstance.getCategoryId (safeHash it.key) = some c → (db.inst c).Holds n t →
    ∀ e ∈ MTree.toList n t, keyOf db.files e = it.key → valueOf db.files e = it.val ∨
      e ∈ reached (fun k => keyOf db.files k = it.key) 0 (visitSkips (safeHash it.key) n t) ∧
        it.pages ≤ (pagesOf db.files e).count

variable {b : Build} {db db₀ db' : Database} {S : Finset NodeKey} {items : NodeKey → Item} {curtime : BitVec 32}
  {it : Item} {ret : Ret} {stores : List StoreCall}

theorem expired_of_lasting {e : NodeKey} (h : (items e).expire = 0) : (items e).expired curtime = false := by
  rw [Item.expired, h]
  rfl

/-- The nodes of the key are where the traversal stops. -/
theorem Stored.visited_eq (h : Stored b db S items) {c : Fin categoryCnt} {n : Nat} {t : KeyTree n}
    (hc : TreeInstance.getCategoryId (safeHash it.key) = some c) (ht : (db.inst c).Holds n t) :
    visited b curtime it.key db =
      reached (fun k => keyOf db.files k = it.key) 0 (visitSkips (safeHash it.key) n t) := by
  rw [Smmr.visited_eq hc ht]
  refine reached_congr fun k hk => ?_
  have hkS := ((h.inv.indexes.mem_holds ht k).mp ((mem_visitSkips ht.increasing).mp hk).1).1
  have hent := h.inv.holding.entries k hkS
  rw [hent.found, expired_of_lasting (h.lasting k hkS), if_neg Bool.false_ne_true, hent.keyOf_eq]
  by_cases hkey : (items k).key = it.key
  · rw [if_pos hkey]
    exact iff_of_true (.inr rfl) hkey
  · rw [if_neg hkey]
    exact iff_of_false (by decide) hkey

/-- A store that replaces leaves no other value of its key. -/
theorem Replaces.overwritten (hr : Replaces it db) (h : Stored b db S items) (hs : it.Short) :
    ∀ e ∈ S, (items e).key = it.key →
      (overwritten curtime items it (visited b curtime it.key db) e).val = it.val := by
  intro e he hk
  have hent := h.inv.holding.entries e he
  have hhash : e.keyhash = safeHash it.key := by rw [← hent.hash, hk]
  obtain ⟨c, hc, hmod⟩ := TreeInstance.getCategoryId_of_ne (hhash ▸ h.inv.hashed e he)
  obtain ⟨n, t, ht, hmem⟩ := h.inv.indexes c
  have het : e ∈ MTree.toList n t := (hmem e).mpr ⟨he, by rw [hhash, hmod]⟩
  rw [h.visited_eq hc ht]
  rcases hr c n t hc ht e het (hent.keyOf_eq.trans hk) with hval | ⟨hv, hpages⟩
  · rw [hent.valueOf_eq] at hval
    rw [Smmr.overwritten]
    split
    · rfl
    · exact hval
  · rw [hent.pagesOf_eq] at hpages
    have hle : it.aligned ≤ (items e).aligned := by
      rw [hs.aligned_eq.1, hent.short.aligned_eq.1]
      exact Nat.mul_le_mul_left _ hpages
    rw [Smmr.overwritten, if_pos ⟨hv, expired_of_lasting (h.lasting e he), hk, hle⟩]
    rfl

/-- The entries of a key, of which there are some, have one value. -/
def Holds (S : Finset NodeKey) (items : NodeKey → Item) (key val : List Byte) : Prop :=
  (∃ e ∈ S, (items e).key = key) ∧ ∀ e ∈ S, (items e).key = key → (items e).val = val

/-- A store of another key. -/
theorem Holds.other {key val : List Byte} {L : List NodeKey} (h : Holds S items key val) (hne : it.key ≠ key) :
    Holds S (overwritten curtime items it L) key val := by
  obtain ⟨⟨e, he, hk⟩, hall⟩ := h
  refine ⟨⟨e, he, by rw [overwritten_key, hk]⟩, fun x hx hxk => ?_⟩
  rw [overwritten_key] at hxk
  rw [overwritten, if_neg fun hn => hne (hn.2.2.1.symm.trans hxk)]
  exact hall x hx hxk

theorem Holds.insert {key val : List Byte} {e : NodeKey} (h : Holds S items key val) (hne : it.key ≠ key) (he : e ∉ S) :
    Holds (insert e S) (Function.update items e it) key val := by
  have hold : ∀ x ∈ S, Function.update items e it x = items x := by
    intro x hx
    rw [Function.update_of_ne]
    rintro rfl
    exact he hx
  obtain ⟨⟨e', he', hk⟩, hall⟩ := h
  refine ⟨⟨e', Finset.mem_insert_of_mem he', by rw [hold e' he', hk]⟩, fun x hx hxk => ?_⟩
  rcases Finset.mem_insert.mp hx with rfl | hx
  · rw [Function.update_self] at hxk
    exact absurd hxk hne
  · rw [hold x hx] at hxk ⊢
    exact hall x hx hxk

/-- The keys whose last store succeeded have their value. -/
def Current (S : Finset NodeKey) (items : NodeKey → Item) (stores : List StoreCall) : Prop :=
  ∀ before s after, stores = before ++ s :: after → s.ret = .ok → (∀ s' ∈ after, s'.it.key ≠ s.it.key) →
    Holds S items s.it.key s.it.val

/-- The last of the stores is the one in question, or one of another key. -/
theorem Current.snoc {s : StoreCall} {S' : Finset NodeKey} {items' : NodeKey → Item} (h : Current S items stores)
    (hself : s.ret = .ok → Holds S' items' s.it.key s.it.val)
    (hother : ∀ key val, s.it.key ≠ key → Holds S items key val → Holds S' items' key val) :
    Current S' items' (stores ++ [s]) := by
  intro before s' after heq hok hafter
  rcases List.eq_nil_or_concat' after with rfl | ⟨rest, x, rfl⟩
  · obtain ⟨-, hs⟩ := List.append_inj' heq rfl
    obtain rfl := List.singleton_injective hs
    exact hself hok
  · rw [← List.cons_append, ← List.append_assoc] at heq
    obtain ⟨hinit, hs⟩ := List.append_inj' heq rfl
    obtain rfl := List.singleton_injective hs
    refine hother _ _ (hafter s (List.mem_append_right _ (List.mem_singleton_self s))) ?_
    exact h before s' rest hinit hok fun x hx => hafter x (List.mem_append_left _ hx)

theorem Stores.current (h : Stores b db₀ stores db) (hfresh : db₀.Fresh) (hblocks : db₀.inst.BlocksOnly) :
    (∀ s ∈ stores, s.it.expire = 0) →
    BeforeEach b db₀ stores (fun s db₁ => Placeable b s.it db₁.files ∧ Replaces s.it db₁) →
    ∃ S items, Stored b db S items ∧ Current S items stores := by
  induction h with
  | nil =>
    refine fun _ _ => ⟨∅, fun _ => ⟨[], [], 0, by decide, by decide⟩, hfresh.stored hblocks _, ?_⟩
    intro before s after heq
    exact absurd heq (by simp)
  | @snoc db₁ db₂ stores s hstores hrun ih =>
    intro hlast hreg
    obtain ⟨S, items, hstored, hcurrent⟩ := ih (fun s hs => hlast s (List.mem_append_left _ hs)) hreg.init
    obtain ⟨hplace, hreplaces⟩ := hreg.last hstores
    by_cases hargs : s.it.key = [] ∨ s.it.val = []
    · rw [store, if_pos hargs] at hrun
      obtain ⟨hng, rfl⟩ := Prod.mk.inj (Except.ok.inj hrun)
      refine ⟨S, items, hstored, hcurrent.snoc (fun hok => ?_) fun _ _ _ h => h⟩
      rw [hok] at hng
      cases hng
    obtain ⟨hkey, hval⟩ := not_or.mp hargs
    have hspec := @Stored.store _ _ _ _ s.curtime _ hstored hkey hval hplace
      (hlast s (List.mem_append_right _ (List.mem_singleton_self s)))
    rw [hrun] at hspec
    have hnew := @Replaces.overwritten _ _ _ _ s.curtime _ hreplaces hstored hplace.1
    rcases hspec with ⟨-, -, e, he, hstored'⟩ | ⟨hng, hstored'⟩
    · refine ⟨_, _, hstored', hcurrent.snoc (fun _ => ⟨⟨e, Finset.mem_insert_self e S, ?_⟩, fun x hx hxk => ?_⟩)
        fun key val hne h => (h.other hne).insert hne he⟩
      · rw [Function.update_self]
      · by_cases hxe : x = e
        · subst hxe
          rw [Function.update_self]
        · rw [Function.update_of_ne hxe] at hxk ⊢
          rw [overwritten_key] at hxk
          exact hnew x ((Finset.mem_insert.mp hx).resolve_left hxe) hxk
    · refine ⟨_, _, hstored', hcurrent.snoc (fun hok => ?_) fun key val hne h => h.other hne⟩
      dsimp only at hng
      rw [hok] at hng
      cases hng

/-- A search for a key whose entries have one value. -/
theorem search_holds {key val : List Byte} (h : Stored b db S items) (hholds : Holds S items key val) :
    ∃ db', db.search b curtime key false = .ok (.ok, val, db') := by
  obtain ⟨⟨e, he, hk⟩, hall⟩ := hholds
  have hh : safeHash key ≠ 0 := by
    rw [← hk, (h.inv.holding.entries e he).hash]
    exact h.inv.hashed e he
  obtain ⟨-, -, hmem, hreach⟩ := @visited_spec b curtime key db S h.inv.indexes hh
  have hfound : ∀ x ∈ S, found b curtime key db.files x = if (items x).key = key then .same else .other := by
    intro x hx
    rw [(h.inv.holding.entries x hx).found, expired_of_lasting (h.lasting x hx), if_neg Bool.false_ne_true]
  have hroom : db.Reservable b curtime key := by
    rw [Reservable, List.filter_eq_nil_iff.mpr fun x hx => ?_]
    · exact Nat.zero_le _
    · rw [hfound x (hmem x hx).1]
      split <;> simp
  obtain ⟨db', hrun, -⟩ := @search_spec _ _ _ _ curtime _ h.inv hroom
  refine ⟨db', ?_⟩
  rw [hrun]
  have hsame : ∀ x ∈ S, (sameAt items curtime key x = true ↔ (items x).key = key) := by
    intro x hx
    rw [sameAt, expired_of_lasting (h.lasting x hx), Bool.not_false, Bool.true_and, decide_eq_true_eq]
  rw [lastValue]
  cases hlast : ((visited b curtime key db).filter (sameAt items curtime key)).getLast? with
  | some x =>
    have hx := List.mem_filter.mp (List.mem_of_getLast? hlast)
    have hxS := (hmem x hx.1).1
    simp only [hall x hxS ((hsame x hxS).mp hx.2)]
  | none =>
    -- nothing stopped the traversal, so it reached the entry
    have hnone := List.getLast?_eq_none_iff.mp hlast
    have hnokey : ∀ x ∈ visited b curtime key db, (items x).key ≠ key := by
      intro x hx hxk
      have hin : x ∈ (visited b curtime key db).filter (sameAt items curtime key) :=
        List.mem_filter.mpr ⟨hx, (hsame x (hmem x hx).1).mpr hxk⟩
      rw [hnone] at hin
      cases hin
    refine absurd hk (hnokey e (hreach (fun x hx => ?_) e he ?_))
    · rw [hfound x (hmem x hx).1, if_neg (hnokey x hx)]
      decide
    · rw [← hk, (h.inv.holding.entries e he).hash]

/-- After stores of items that do not expire, none of which leaves an older value of its key behind, a search for a key
whose last store succeeded returns the value of that store. -/
theorem run_lastWrite (b : Build) {db₀ db : Database} {stores : List StoreCall} (hfresh : db₀.Fresh)
    (hblocks : db₀.inst.BlocksOnly) (hrun : Stores b db₀ stores db) (hlast : ∀ s ∈ stores, s.it.expire = 0)
    (hreg : BeforeEach b db₀ stores fun s db₁ => Placeable b s.it db₁.files ∧ Replaces s.it db₁)
    {before after : List StoreCall} {s : StoreCall} (hs : stores = before ++ s :: after) (hok : s.ret = .ok)
    (hafter : ∀ s' ∈ after, s'.it.key ≠ s.it.key) (curtime : BitVec 32) :
    ∃ db', db.search b curtime s.it.key false = .ok (.ok, s.it.val, db') := by
  obtain ⟨S, items, hstored, hcurrent⟩ := hrun.current hfresh hblocks hlast hreg
  exact search_holds hstored (hcurrent before s after hs hok hafter)

/-! ## A value that stays behind -/

/-- In the tree of the two nodes a traversal that the first stops goes no further. -/
theorem reached_first : (do
    let (_, inst) ← oneBlock.addTreeSafe (nodeAt [1] 0)
    let (_, inst) ← inst.addTreeSafe (nodeAt [1] 1)
    inst.findTreeOnlyKeyhashSafe (safeHash [1]) (fun e (L : List NodeKey) => (.ng, L ++ [e])) []) =
      .ok (.ok, [nodeAt [1] 0]) := by decide +kernel

/-- A short value is stored under a key, and then a longer one: a search returns the short one. -/
theorem search_stale : ∃ db₀ stores db db', Fresh db₀ ∧ db₀.inst.BlocksOnly ∧
    stores = [] ++ [⟨0, tiny 1 2, .ok⟩] ++ [⟨0, long, .ok⟩] ∧ Stores .test db₀ stores db ∧
    db.search .test 0 long.key false = .ok (.ok, [2], db') ∧ long.val ≠ [2] := by
  obtain ⟨inst, inst', f, f', e, e', db₁, db₂, hadd, hadd', -, hdb₂, hrun, hrun', -, hpage, hpage', hfield, hfield',
    hinv⟩ := stores_twice
  have hentry := hinv.holding.entries
  have hitem : Function.update (fun _ => tiny 1 2) e' long e = tiny 1 2 := by
    rw [Function.update_of_ne]
    rintro rfl
    rw [hpage] at hpage'
    cases hpage'
  have hkeyhash : ∀ x ∈ ({e', e} : Finset NodeKey), x.keyhash = safeHash [1] := by
    intro x hx
    rw [← (hentry x hx).hash]
    by_cases hxe : x = e'
    · subst hxe
      rw [Function.update_self]
      rfl
    · rw [Function.update_of_ne hxe]
      rfl
  have he : e ∈ ({e', e} : Finset NodeKey) := Finset.mem_insert_of_mem (Finset.mem_singleton_self e)
  have heq : nodeAt [1] 0 = e := by
    refine NodeKey.ext (hkeyhash e he).symm hfield.symm (BitVec.eq_of_toNat_eq ?_)
    rw [(hentry e he).offset, hpage]
    decide
  -- every node of the key stops the traversal
  have hfind : inst'.findTreeOnlyKeyhashSafe (safeHash [1]) (fun e (L : List NodeKey) => (.ng, L ++ [e])) [] =
      .ok (.ok, [e]) := by
    have hreached := reached_first
    simp only [hadd, hadd', bind, Except.bind] at hreached
    rw [hreached, heq]
  have hfollow : CallFollows Eq (fun L => ∀ x ∈ L, x ∈ ({e', e} : Finset NodeKey)) (note .test 0 [1] db₂.files)
      (fun e (L : List NodeKey) => (.ng, L ++ [e])) := by
    intro x L hL
    refine ⟨fun y hy => hL y (List.mem_append_left _ hy), ?_⟩
    rintro L' rfl
    have hx := hL x (List.mem_append_right _ (List.mem_singleton_self x))
    have hfound : found .test 0 [1] db₂.files x = .same := by
      rw [(hentry x hx).found]
      by_cases hxe : x = e'
      · subst hxe
        rw [Function.update_self]
        rfl
      · rw [Function.update_of_ne hxe]
        rfl
    rw [note, if_pos (by rw [hfound]; exact .inr rfl)]
    exact ⟨Iff.rfl, rfl⟩
  obtain ⟨-, hnote⟩ := findTreeOnlyKeyhashSafe_follows hfollow inst' (safeHash [1]) [] .ok [e] hfind
    fun x hx => by rwa [List.mem_singleton.mp hx]
  obtain ⟨L, hL, rfl⟩ := hnote [] rfl
  have hvisited : visited .test 0 [1] db₂ = [e] := by
    rw [visited, hdb₂]
    rw [hdb₂] at hL
    rw [hL]
  have hexpired : ∀ x : NodeKey, (Function.update (fun _ => tiny 1 2) e' long x).expired 0 = false := by
    intro x
    by_cases hxe : x = e'
    · subst hxe
      rw [Function.update_self]
      rfl
    · rw [Function.update_of_ne hxe]
      rfl
  obtain ⟨db', hsearch, -⟩ := @search_spec .test db₂ _ _ 0 [1] hinv (by
    rw [Reservable, hinv.expiredAt_eq (fun x hx => visited_mem hinv.indexes x hx), hvisited]
    exact Nat.le_trans (List.length_filter_le _ _) (by show 1 ≤ removeReservedCount; decide))
  refine ⟨single, _, db₂, db', single_fresh, single_blocks, rfl, (Stores.nil.snoc hrun).snoc hrun', ?_, fun h => ?_⟩
  · have hlast : lastValue (Function.update (fun _ => tiny 1 2) e' long) 0 [1] [e] = ([2], .ok) := by
      have hsame : sameAt (Function.update (fun _ => tiny 1 2) e' long) 0 [1] e = true := by
        rw [sameAt, hexpired, hitem]
        rfl
      rw [lastValue, List.filter_cons_of_pos hsame]
      simp only [List.filter_nil, List.getLast?_singleton, hitem]
      rfl
    rw [hvisited, hlast] at hsearch
    exact hsearch
  · have hlen := length_long.2
    rw [h] at hlen
    cases hlen

/-- An entry that is the only one is reached. -/
theorem reached_only {stop : NodeKey → Prop} [DecidablePred stop] {h : BitVec 32} {n : Nat} {t : KeyTree n}
    {e : NodeKey} (hs : Increasing (MTree.toList n t)) (he : e ∈ MTree.toList n t) (hh : e.keyhash = h)
    (honly : ∀ k ∈ MTree.toList n t, k = e) : e ∈ reached stop 0 (visitSkips h n t) := by
  have hmem : e ∈ (visitSkips h n t).map Prod.fst := (mem_visitSkips hs).mpr ⟨he, hh⟩
  cases hL : visitSkips h n t with
  | nil =>
    rw [hL] at hmem
    cases hmem
  | cons p C =>
    have hp : p.1 ∈ (visitSkips h n t).map Prod.fst := hL ▸ List.mem_cons_self ..
    rw [reached, honly p.1 ((mem_visitSkips hs).mp hp).1]
    exact List.mem_cons_self ..

/-- A value is overwritten by one that fits, and the search returns the new one. -/
theorem run_lastWrite_overwritten : ∃ db db',
    Stores .test single ([] ++ [⟨0, tiny 1 2, .ok⟩] ++ [⟨0, tiny 1 3, .ok⟩]) db ∧
      db.search .test 0 [1] false = .ok (.ok, [3], db') := by
  obtain ⟨db₁, db₂, e, hrun, hrun', hhash, hinv, hins⟩ := @single_then (tiny 1 3) (by decide +kernel)
  have hstores : Stores .test single ([] ++ [⟨0, tiny 1 2, .ok⟩]) db₁ := Stores.nil.snoc hrun
  have hreg : BeforeEach .test single ([] ++ [⟨0, tiny 1 2, .ok⟩] ++ [⟨0, tiny 1 3, .ok⟩]) fun s db =>
      Placeable .test s.it db.files ∧ Replaces s.it db := by
    refine (BeforeEach.nil.snoc fun db h => ?_).snoc fun db h => ?_
    · obtain rfl := h.nil_eq
      refine ⟨(single_insertable (tiny_short 1 2)).placeable, fun c n t _ ht x hx => ?_⟩
      have hmem := ((TreeInstance.indexes_empty single_fresh.rooti).mem_holds ht x).mp hx
      exact absurd hmem.1 (Finset.notMem_empty x)
    · obtain rfl := hstores.unique h
      refine ⟨(hins _ (tiny_short 1 3)).placeable, fun c n t _ ht x hx _ => .inr ?_⟩
      have honly : ∀ k ∈ MTree.toList n t, k = e := fun k hk =>
        Finset.mem_singleton.mp ((hinv.indexes.mem_holds ht k).mp hk).1
      obtain rfl := honly x hx
      refine ⟨reached_only ht.increasing hx hhash honly, ?_⟩
      rw [(hinv.holding.entries x (Finset.mem_singleton_self x)).pagesOf_eq]
      exact Nat.le_of_eq ((tiny_pages 1 3).trans (tiny_pages 1 2).symm)
  obtain ⟨db', hsearch⟩ := run_lastWrite .test single_fresh single_blocks (hstores.snoc hrun') (fun s hs => by
    rcases mem_two hs with rfl | rfl <;> rfl) hreg rfl rfl (fun s hs => by cases hs) 0
  exact ⟨db₂, db', hstores.snoc hrun', hsearch⟩

end Database

end NetworkBfd.Smmr
