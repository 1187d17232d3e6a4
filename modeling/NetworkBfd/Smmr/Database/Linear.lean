import NetworkBfd.Lib.Linearization
import NetworkBfd.Smmr.Database.Processes

/-!
# Stores and searches are linearizable

Whatever the schedule, the answers of processes that store distinct keys and search are those of a map from keys to
values that serves one call after the other (`linearizable`). A store takes effect when it adds its node to the index,
or when it gives up; a search takes effect when it traverses the index. What the map holds is what the entries of the
index refer to (`Shows`), and a section that leaves the index alone touches no item of an entry (`store_keeps`).
-/

namespace NetworkBfd.Smmr

open Lib Lib.Bytes CategoryTree Database

/-! ## A map -/

/-- A map of keys to values. -/
abbrev Contents := List Byte → Option (List Byte)

/-- The calls of a map, with their answers. A store may be refused. -/
inductive Call.Serves (m : Contents) : Call → Ret × List Byte → Contents → Prop
  | stored (curtime : BitVec 32) (it : Item) :
    Serves m (.store curtime it) (.ok, []) (Function.update m it.key (some it.val))
  | refused (curtime : BitVec 32) (it : Item) : Serves m (.store curtime it) (.ng, []) m
  | found (curtime : BitVec 32) {key val : List Byte} (h : m key = some val) :
    Serves m (.search curtime key false) (.ok, val) m
  | absent (curtime : BitVec 32) {key : List Byte} (h : m key = none) : Serves m (.search curtime key false) (.ng, []) m
  | held (curtime : BitVec 32) (key : List Byte) : Serves m (.search curtime key true) (.ng, []) m

/-- The answer that a call will return, once that is settled. -/
def Pc.answer : Pc → Option (Ret × List Byte)
  | .removeReserved ret val _ | .returned ret val => some (ret, val)
  | _ => none

/-- The answer that a process has returned. -/
def Processes.result {ι : Type} (s : Processes ι) (i : ι) : Option (Ret × List Byte) :=
  match s.pc i with
  | .returned ret val => some (ret, val)
  | _ => none

/-- The map holds what the entries refer to. -/
def Shows (S : Finset NodeKey) (items : NodeKey → Item) (m : Contents) : Prop :=
  ∀ key val, m key = some val ↔ ∃ e ∈ S, (items e).key = key ∧ (items e).val = val

namespace Processes

variable {ι : Type} [DecidableEq ι] {b : Build} {calls : ι → Call} {s s' : Processes ι} {S T S' T' : Finset NodeKey}
  {items items' : NodeKey → Item} {m : Contents}

/-! ## Sections that leave the index alone -/

omit [DecidableEq ι] in
/-- A file that takes an item keeps those of all entries. -/
theorem Inv.keeps (h : Inv b calls s S T items) {k : ℕ} {f f' : Bytes} {it : Item} {p : Placement}
    (hk : k < ipcDatafileMax b) (hf : s.db.files k = some f) (hround : freepageRound k f it = (some p, f'))
    (hw : ∀ w ∈ p.writes, w.1 + w.2 ≤ 2 ^ 24) :
    ∀ e ∈ T, EntryOf b (Function.update s.db.files k (some f')) e (items e) := by
  have hs := short_of_within (@freepageRound_writes k f it p (by rw [hround])) hw
  obtain ⟨u, hu⟩ := h.filling k f hf
  rcases freepageRound_filling k hu hs with ⟨g, writes, hrun, hplaced, -⟩ | ⟨-, hrun⟩
  · obtain ⟨-, rfl⟩ := Prod.mk.inj (hround.symm.trans hrun)
    exact (h.holding.inserted hs (hplaced.inserted hk hf)).entries
  · rw [hrun] at hround
    cases hround

omit [DecidableEq ι] in
/-- A section of a store that leaves the index alone. -/
theorem store_keeps (h : Inv b calls s S T items) (hd : Distinct calls) {i : ι} {t : BitVec 32} {it : Item}
    (hi : calls i = .store t it) {pc : Pc} {db : Database} (hrun : storeSection b t it s.db (s.pc i) = .ok (pc, db))
    (hw : ∀ p, pc = .addTree p → ∀ w ∈ p.writes, w.1 + w.2 ≤ 2 ^ 24) (hpc : ∀ p, s.pc i ≠ .addTree p) :
    db.inst = s.db.inst ∧ (∀ e ∈ T, EntryOf b db.files e (items e)) ∧
      (pc.answer = (s.pc i).answer ∨ (s.pc i).answer = none ∧ pc.answer = some (.ng, [])) := by
  have hat := h.calls i
  rw [hi] at hat
  have hsame := h.holding.entries
  cases hpc' : s.pc i with
  | traverse =>
    rw [hpc', storeSection] at hrun
    by_cases hargs : it.key = [] ∨ it.val = []
    · rw [if_pos hargs] at hrun
      obtain ⟨rfl, rfl⟩ := Prod.mk.inj (Except.ok.inj hrun)
      exact ⟨rfl, hsame, .inr ⟨rfl, rfl⟩⟩
    · rw [if_neg hargs] at hrun
      obtain ⟨r, c, hfind, hflag⟩ := @updateTraversal_absent b t it s.db S items h.indexes
        (fun e he => hsame e (h.sub he)) (hd.hashed i t it hi)
        fun e he => h.absent hd hi (by rw [hpc']; exact id) e (h.sub he)
      simp only [hfind, hflag, bind, Except.bind] at hrun
      obtain ⟨rfl, rfl⟩ := Prod.mk.inj (Except.ok.inj hrun)
      exact ⟨rfl, hsame, .inl rfl⟩
  | removeOld node =>
    rw [hpc'] at hat
    exact hat.elim
  | freeOld node =>
    rw [hpc'] at hat
    exact hat.elim
  | freepage ns =>
    rw [hpc'] at hat hrun
    cases ns with
    | nil =>
      obtain ⟨rfl, rfl⟩ := Prod.mk.inj (Except.ok.inj hrun)
      exact ⟨rfl, hsame, .inl rfl⟩
    | cons n ns =>
      simp only [storeSection, tryFiles_one] at hrun
      cases hf : s.db.files n with
      | none =>
        simp only [hf] at hrun
        obtain ⟨rfl, rfl⟩ := Prod.mk.inj (Except.ok.inj hrun)
        exact ⟨rfl, hsame, .inl rfl⟩
      | some f =>
        rcases hround : freepageRound n f it with ⟨_ | p, f'⟩
        · simp only [hf, hround] at hrun
          obtain ⟨rfl, rfl⟩ := Prod.mk.inj (Except.ok.inj hrun)
          obtain ⟨u, hu⟩ := h.filling n f hf
          have hsame' := @freepageRound_unplaced f u it n hu (by rw [hround])
          obtain ⟨-, rfl⟩ := Prod.mk.inj (hround.symm.trans hsame')
          refine ⟨rfl, fun e he => ?_, .inl rfl⟩
          simp only [← hf, Function.update_eq_self]
          exact hsame e he
        · simp only [hf, hround] at hrun
          obtain ⟨rfl, rfl⟩ := Prod.mk.inj (Except.ok.inj hrun)
          exact ⟨rfl, h.keeps (Tried.fields hat n (List.mem_cons_self ..)) hf hround (hw p rfl), .inl rfl⟩
  | append ns =>
    rw [hpc'] at hat hrun
    cases ns with
    | nil =>
      obtain ⟨rfl, rfl⟩ := Prod.mk.inj (Except.ok.inj hrun)
      exact ⟨rfl, hsame, .inr ⟨rfl, rfl⟩⟩
    | cons n ns =>
      simp only [storeSection, tryFiles_one] at hrun
      cases hf : s.db.files n with
      | none =>
        simp only [hf] at hrun
        obtain ⟨rfl, rfl⟩ := Prod.mk.inj (Except.ok.inj hrun)
        exact ⟨rfl, hsame, .inl rfl⟩
      | some f =>
        rcases hround : appendRound n f it with ⟨_ | p, f'⟩
        · simp only [hf, hround] at hrun
          obtain ⟨rfl, rfl⟩ := Prod.mk.inj (Except.ok.inj hrun)
          have hsame' := @appendRound_unplaced n f it (by rw [hround])
          obtain ⟨-, rfl⟩ := Prod.mk.inj (hround.symm.trans hsame')
          refine ⟨rfl, fun e he => ?_, .inl rfl⟩
          simp only [← hf, Function.update_eq_self]
          exact hsame e he
        · -- the round over the free pages has shown that there is no room
          simp only [hf, hround] at hrun
          obtain ⟨rfl, -⟩ := Prod.mk.inj (Except.ok.inj hrun)
          have hs := short_of_within (appendRound_writes (by rw [hround])) (hw p rfl)
          have hle := hat.1.refused hs n f (hat.2 n (List.mem_cons_self ..)) List.not_mem_nil hf
          rw [appendRound_of_le n hle] at hround
          cases hround
  | addTree p => exact absurd hpc' (hpc p)
  | _ =>
    rw [hpc'] at hrun
    obtain ⟨rfl, rfl⟩ := Prod.mk.inj (Except.ok.inj hrun)
    exact ⟨rfl, hsame, .inl rfl⟩

/-! ## Searches -/

omit [DecidableEq ι] in
/-- The traversal of a search settles the answer of `search`. -/
theorem searchSection_traverse {t : BitVec 32} {key : List Byte} {db db' db'' : Database} {pc : Pc} {ret : Ret}
    {val : List Byte} (hrun : searchSection b t key false db .traverse = .ok (pc, db'))
    (hsearch : db.search b t key false = .ok (ret, val, db'')) : pc.answer = some (ret, val) := by
  rw [searchSection, if_neg Bool.false_ne_true] at hrun
  rw [search, if_neg Bool.false_ne_true] at hsearch
  rcases hfind : db.inst.findTreeOnlyKeyhashSafe (safeHash key) (findindexCallbackForSearch b t)
    (⟨safeHash key, key, [], .ng, default, []⟩, db.files) with e | ⟨r, c, files⟩
  · simp only [hfind, bind, Except.bind] at hrun
    cases hrun
  simp only [hfind, bind, Except.bind] at hrun hsearch
  rcases hremove : removeAll db.inst c.removeReserved with e | inst
  · rw [hremove] at hsearch
    cases hsearch
  rw [hremove] at hsearch
  obtain ⟨hret, hrest⟩ := Prod.mk.inj (Except.ok.inj hsearch)
  obtain ⟨hval, -⟩ := Prod.mk.inj hrest
  obtain ⟨rfl, -⟩ := Prod.mk.inj (Except.ok.inj hrun)
  rw [Pc.answer, hret, hval]

omit [DecidableEq ι] in
/-- A search changes nothing. It takes effect with its traversal. -/
theorem search_keeps (h : Inv b calls s S T items) (hd : Distinct calls) (hm : Shows S items m) {i : ι} {t : BitVec 32}
    {key : List Byte} {held : Bool} (hi : calls i = .search t key held) {pc : Pc} {db : Database}
    (hrun : searchSection b t key held s.db (s.pc i) = .ok (pc, db)) :
    db = s.db ∧ (pc.answer = (s.pc i).answer ∨
      (s.pc i).answer = none ∧ ∃ r, pc.answer = some r ∧ (Call.search t key held).Serves m r m) := by
  have hat := h.calls i
  rw [hi] at hat
  cases hpc : s.pc i with
  | traverse =>
    rw [hpc] at hrun
    cases held with
    | true =>
      rw [searchSection, if_pos rfl] at hrun
      obtain ⟨rfl, rfl⟩ := Prod.mk.inj (Except.ok.inj hrun)
      exact ⟨rfl, .inr ⟨rfl, _, rfl, .held t key⟩⟩
    | false =>
      have hdb : db = s.db := by
        have hexp := h.unexpired hd (visited b t key s.db) t
          fun e he => h.sub (@visited_mem b s.db S t key h.indexes e he)
        obtain ⟨r, ⟨c, fs⟩, hfind, -, -, hsame⟩ := @searchTraversal_spec b t key S items s.db h.indexes
          (h.holding.mono h.sub h.sub) (h.hashed hd) (by rw [hexp]; exact Nat.zero_le _)
        obtain rfl := hsame (by rw [expiredOf, hexp]; rfl)
        rw [searchSection, if_neg Bool.false_ne_true] at hrun
        simp only [hfind, bind, Except.bind] at hrun
        exact (Prod.mk.inj (Except.ok.inj hrun)).2.symm
      refine ⟨hdb, .inr ⟨rfl, ?_⟩⟩
      cases hkey : m key with
      | some val =>
        obtain ⟨e, he, hk, hv⟩ := (hm key val).mp hkey
        have hholds : Holds S items key val := ⟨⟨e, he, hk⟩, fun x hx hxk =>
          Option.some.inj (((hm key _).mpr ⟨x, hx, hxk, rfl⟩).symm.trans hkey)⟩
        obtain ⟨db', hsearch⟩ := @search_holds b s.db S items t key val (h.stored hd) hholds
        exact ⟨_, searchSection_traverse hrun hsearch, .found t hkey⟩
      | none =>
        have hnone : ∀ e ∈ S, (items e).key ≠ key := by
          intro e he hk
          rw [(hm key _).mpr ⟨e, he, hk, rfl⟩] at hkey
          cases hkey
        obtain ⟨db', hsearch⟩ := search_none t (h.stored hd) hnone
        exact ⟨_, searchSection_traverse hrun hsearch, .absent t hkey⟩
  | removeReserved ret val nodes =>
    rw [hpc] at hat hrun
    obtain rfl := hat
    obtain ⟨rfl, rfl⟩ := Prod.mk.inj (Except.ok.inj hrun)
    exact ⟨rfl, .inl rfl⟩
  | _ =>
    rw [hpc] at hrun
    obtain ⟨rfl, rfl⟩ := Prod.mk.inj (Except.ok.inj hrun)
    exact ⟨rfl, .inl rfl⟩

/-! ## Turns -/

omit [DecidableEq ι] in
/-- The map stays with the index. -/
theorem Inv.shows (h : Inv b calls s S T items) (h' : Inv b calls s' S' T' items') (hm : Shows S items m)
    (hinst : s'.db.inst = s.db.inst) (hent : ∀ e ∈ T, EntryOf b s'.db.files e (items e)) :
    Shows S' items' m := by
  obtain rfl := h.indexes.unique (hinst ▸ h'.indexes)
  intro key val
  have hsame : ∀ e ∈ S, (items' e).key = (items e).key ∧ (items' e).val = (items e).val := by
    intro e he
    have hold := hent e (h.sub he)
    have hnew := h'.holding.entries e (h'.sub he)
    exact ⟨hnew.keyOf_eq.symm.trans hold.keyOf_eq, hnew.val_eq hold⟩
  rw [hm key val]
  constructor
  · rintro ⟨e, he, hk, hv⟩
    exact ⟨e, he, (hsame e he).1.trans hk, (hsame e he).2.trans hv⟩
  · rintro ⟨e, he, hk, hv⟩
    exact ⟨e, he, (hsame e he).1.symm.trans hk, (hsame e he).2.symm.trans hv⟩

omit [DecidableEq ι] in
/-- The map gets the item whose node was added. -/
theorem Inv.shows_insert (h : Inv b calls s S T items) (h' : Inv b calls s' S' T' items') (hd : Distinct calls)
    (hm : Shows S items m) {i : ι} {t : BitVec 32} {it : Item} (hi : calls i = .store t it) {node : NodeKey}
    (hnode : node ∈ T) (hit : items node = it) (hindexes : s'.db.inst.Indexes (insert node S))
    (hfiles : s'.db.files = s.db.files) : Shows S' items' (Function.update m it.key (some it.val)) := by
  have hS : S' = insert node S := h'.indexes.unique hindexes
  have hsame : ∀ e ∈ S', (items' e).key = (items e).key ∧ (items' e).val = (items e).val := by
    intro e he
    have hT : e ∈ T := by
      rcases Finset.mem_insert.mp (hS ▸ he) with rfl | he
      · exact hnode
      · exact h.sub he
    have hold := h.holding.entries e hT
    rw [← hfiles] at hold
    have hnew := h'.holding.entries e (h'.sub he)
    exact ⟨hnew.keyOf_eq.symm.trans hold.keyOf_eq, hnew.val_eq hold⟩
  have hself : node ∈ S' := hS ▸ Finset.mem_insert_self node S
  intro key val
  by_cases hkey : key = it.key
  · subst hkey
    rw [Function.update_self]
    constructor
    · intro hv
      obtain rfl := Option.some.inj hv
      exact ⟨node, hself, (hsame node hself).1.trans (by rw [hit]), (hsame node hself).2.trans (by rw [hit])⟩
    · rintro ⟨e, he, hk, rfl⟩
      obtain ⟨j, t', hj, -⟩ := h'.origin e (h'.sub he)
      obtain rfl := hd.once j i t' t _ _ hj hi hk
      rw [hi] at hj
      rw [(Call.store.inj hj).2]
  · rw [Function.update_of_ne hkey, hm key val]
    constructor
    · rintro ⟨e, he, hk, hv⟩
      have he' : e ∈ S' := hS ▸ Finset.mem_insert_of_mem he
      exact ⟨e, he', (hsame e he').1.trans hk, (hsame e he').2.trans hv⟩
    · rintro ⟨e, he, hk, hv⟩
      have hold := (hsame e he).1.symm.trans hk
      rcases Finset.mem_insert.mp (hS ▸ he) with rfl | he'
      · exact absurd (hold.symm.trans (by rw [hit])) hkey
      · exact ⟨e, he', hold, (hsame e he).2.symm.trans hv⟩

/-- In one turn a call goes on, or takes effect. -/
theorem step_effect (h : Inv b calls s S T items) (hd : Distinct calls) (hm : Shows S items m) {i : ι}
    (hstep : s.step b calls i = .ok s') (hw : s'.Within) : ∃ S' T' items', Inv b calls s' S' T' items' ∧
      ((s'.pc i).answer = (s.pc i).answer ∧ Shows S' items' m ∨
        (s.pc i).answer = none ∧ ∃ r m', (s'.pc i).answer = some r ∧ (calls i).Serves m r m' ∧ Shows S' items' m') := by
  have hinv := step_inv h hd i fun s'' hs'' => by
    obtain rfl := Except.ok.inj (hstep.symm.trans hs'')
    exact hw
  rw [hstep] at hinv
  obtain ⟨S', T', items', h'⟩ := hinv
  refine ⟨S', T', items', h', ?_⟩
  rw [step] at hstep
  obtain ⟨⟨pc, db⟩, hrun, hs'⟩ := bind_eq_ok.mp hstep
  obtain rfl := Except.ok.inj hs'
  simp only [Function.update_self]
  cases hi : calls i with
  | search t key held =>
    rw [hi] at hrun
    obtain ⟨rfl, hans⟩ := search_keeps h hd hm hi hrun
    have hshows := h.shows h' hm rfl h.holding.entries
    rcases hans with hans | ⟨hnone, r, hans, hserves⟩
    · exact .inl ⟨hans, hshows⟩
    · exact .inr ⟨hnone, r, m, hans, hserves, hshows⟩
  | store t it =>
    rw [hi] at hrun
    by_cases hadd : ∃ p, s.pc i = .addTree p
    · obtain ⟨p, hpc⟩ := hadd
      have hat := h.calls i
      rw [hi, hpc] at hat
      rw [Call.advance, hpc, storeSection] at hrun
      obtain ⟨⟨ret, inst⟩, hins, hdb⟩ := bind_eq_ok.mp hrun
      obtain ⟨rfl, rfl⟩ := Prod.mk.inj (Except.ok.inj hdb)
      have hspec := TreeInstance.addTreeSafe_spec h.indexes h.blocks
        (show (p.resultnode (safeHash it.key)).keyhash ≠ 0 from hd.hashed i t it hi)
      rw [hins] at hspec
      obtain ⟨hret, hindexes, -⟩ := hspec
      dsimp only at hret
      subst hret
      refine .inr ⟨by rw [hpc]; rfl, _, _, rfl, .stored t it, ?_⟩
      exact h.shows_insert h' hd hm hi hat.1 hat.2 hindexes rfl
    · obtain ⟨hinst, hent, hans⟩ := store_keeps h hd hi hrun
        (fun p hp => hw i p (by simp only [Function.update_self, hp])) (not_exists.mp hadd)
      have hshows := h.shows h' hm hinst hent
      rcases hans with hans | ⟨hnone, hans⟩
      · exact .inl ⟨hans, hshows⟩
      · exact .inr ⟨hnone, _, m, hans, .refused t it, hshows⟩

/-! ## Runs -/

theorem run_snoc {calls : ι → Call} (i : ι) : ∀ (l : List ι) (s : Processes ι),
    s.run b calls (l ++ [i]) = s.run b calls l >>= fun s' => s'.step b calls i
  | [], s => bind_pure (s.step b calls i)
  | j :: l, s => by
    rw [List.cons_append, run, run]
    cases s.step b calls j with
    | ok s' => exact run_snoc i l s'
    | error e => rfl

/-- The calls that took effect are those whose answer is settled, and the map holds what they stored. -/
def Settled (b : Build) (calls : ι → Call) (s : Processes ι) (m : Contents) (order : List (ι × Ret × List Byte)) :
    Prop :=
  (∃ S T items, Inv b calls s S T items ∧ Shows S items m) ∧ ∀ i r, (i, r) ∈ order ↔ (s.pc i).answer = some r

theorem Settled.turn {order : List (ι × Ret × List Byte)} (h : Settled b calls s m order) (hd : Distinct calls) {i : ι}
    (hstep : s.step b calls i = .ok s') (hw : s'.Within) : Settled b calls s' m order ∨
      ∃ r m', i ∉ order.map Prod.fst ∧ (calls i).Serves m r m' ∧ Settled b calls s' m' (order ++ [(i, r)]) := by
  obtain ⟨⟨S, T, items, hinv, hm⟩, horder⟩ := h
  obtain ⟨S', T', items', hinv', heffect⟩ := step_effect hinv hd hm hstep hw
  have hothers : ∀ j, j ≠ i → s'.pc j = s.pc j := by
    intro j hj
    rw [step] at hstep
    obtain ⟨⟨pc, db⟩, -, hs'⟩ := bind_eq_ok.mp hstep
    obtain rfl := Except.ok.inj hs'
    exact Function.update_of_ne hj pc s.pc
  rcases heffect with ⟨hans, hm'⟩ | ⟨hnone, r, m', hans, hserves, hm'⟩
  · refine .inl ⟨⟨S', T', items', hinv', hm'⟩, fun j r => ?_⟩
    by_cases hj : j = i
    · rw [horder, hj, hans]
    · rw [horder, hothers j hj]
  · have hnot : ∀ r', (i, r') ∉ order := fun r' hmem => by
      rw [horder, hnone] at hmem
      cases hmem
    refine .inr ⟨r, m', fun hmem => ?_, hserves, ⟨S', T', items', hinv', hm'⟩, fun j r' => ?_⟩
    · obtain ⟨⟨j, r'⟩, hmem', rfl⟩ := List.mem_map.mp hmem
      exact hnot r' hmem'
    · rw [List.mem_append, List.mem_singleton, Prod.mk.injEq]
      by_cases hj : j = i
      · subst hj
        rw [hans, Option.some.injEq]
        constructor
        · rintro (hmem | ⟨-, rfl⟩)
          · exact absurd hmem (hnot r')
          · rfl
        · rintro rfl
          exact .inr ⟨rfl, rfl⟩
      · rw [horder, hothers j hj]
        exact ⟨fun hmem => hmem.resolve_right fun he => hj he.1, .inl⟩

/-- Processes that store distinct keys and search. Whoever's turn it is when, as long as no data file grows past its
first `2 ^ 24` bytes, their answers are those of a map that starts empty and serves the calls one after the other, in an
order in which no call comes before one that had returned when it began. -/
theorem linearizable (b : Build) (calls : ι → Call) (db₀ : Database) (sched : List ι) (hfresh : db₀.Fresh)
    (hblocks : db₀.inst.BlocksOnly) (hd : Distinct calls)
    (hwithin : ∀ before after s, sched = before ++ after → (start db₀).run b calls before = .ok s → s.Within)
    (hrun : (start db₀).run b calls sched = .ok s) :
    ∃ order, Linearization ((start db₀).run b calls) result (fun m i r m' => (calls i).Serves m r m') (fun _ => none)
      sched order := by
  have heffects : Effects ((start db₀).run b calls) result (fun m i r m' => (calls i).Serves m r m') (Settled b calls)
      (fun _ => none) sched := by
    refine ⟨fun d hd => ?_, fun l i d' hl hd' => ?_, fun d m order h i r hr => ?_⟩
    · obtain rfl := Except.ok.inj hd
      refine ⟨⟨∅, ∅, _, start_inv hfresh hblocks fun _ => ⟨[], [], 0, by decide, by decide⟩, fun key val => ?_⟩,
        fun i r => ?_⟩
      · exact ⟨fun h => (by cases h), fun ⟨e, he, _⟩ => absurd he (Finset.notMem_empty e)⟩
      · exact ⟨fun h => (by cases h), fun h => (by cases h)⟩
    · obtain ⟨after, rfl⟩ := hl
      have hw := hwithin _ after d' rfl hd'
      rw [run_snoc] at hd'
      obtain ⟨d, hd₁, hstep⟩ := bind_eq_ok.mp hd'
      exact ⟨d, hd₁, fun m order h => h.turn hd hstep hw⟩
    · refine (h.2 i r).mpr ?_
      rw [result] at hr
      split at hr
      · rename_i ret val hpc
        rw [hpc]
        exact hr
      · cases hr
  exact heffects.linearization hrun

/-! ## A search during a store -/

/-- A process that stores, and one that searches for the key. -/
def storeAndSearch : Bool → Call
  | false => .store 0 (tiny 5 2)
  | true => .search 0 [5] false

theorem storeAndSearch_distinct : Distinct storeAndSearch := by
  have hstore : ∀ i t it, storeAndSearch i = .store t it → i = false ∧ it = tiny 5 2 := by
    intro i t it hi
    cases i with
    | false => exact ⟨rfl, (Call.store.inj hi).2.symm⟩
    | true => cases hi
  refine ⟨fun i j t t' it it' hi hj _ => ?_, fun i t it hi => ?_, fun i t it hi => ?_⟩
  · rw [(hstore i t it hi).1, (hstore j t' it' hj).1]
  · rw [(hstore i t it hi).2]
    decide
  · rw [(hstore i t it hi).2]
    rfl

section Pair

variable {db db' : Database} {p q r : Pc}

theorem pair_stores (h : storeSection b 0 (tiny 5 2) db p = .ok (r, db')) :
    (pair db p q).step b storeAndSearch false = .ok (pair db' r q) := by
  have hpc : Function.update (pair db p q).pc false r = (pair db' r q).pc := by
    funext i
    cases i <;> rfl
  rw [step]
  simp only [show (pair db p q).db = db from rfl, show (pair db p q).pc false = p from rfl, storeAndSearch,
    Call.advance, h, bind, Except.bind, hpc]
  rfl

theorem pair_searches (h : searchSection b 0 [5] false db q = .ok (r, db')) :
    (pair db p q).step b storeAndSearch true = .ok (pair db' p r) := by
  have hpc : Function.update (pair db p q).pc true r = (pair db' p r).pc := by
    funext i
    cases i <;> rfl
  rw [step]
  simp only [show (pair db p q).db = db from rfl, show (pair db p q).pc true = q from rfl, storeAndSearch, Call.advance,
    h, bind, Except.bind, hpc]
  rfl

end Pair

omit [DecidableEq ι] in
/-- A search of an empty index finds nothing. -/
theorem searchSection_empty {db : Database} (t : BitVec 32) (key : List Byte) (h : db.inst.Indexes ∅) :
    searchSection b t key false db .traverse = .ok (.removeReserved .ng [] [], db) := by
  have hnone : visited b t key db = [] :=
    List.eq_nil_iff_forall_not_mem.mpr fun e he => Finset.notMem_empty e (@visited_mem b db ∅ t key h e he)
  obtain ⟨r, ⟨c, fs⟩, hfind, ⟨-, hres, hfound⟩, -, hsame⟩ := @searchTraversal_spec b t key ∅ (fun _ => tiny 5 2) db h
    (holding_empty b db.files _) (fun e he => absurd he (Finset.notMem_empty e)) (by rw [hnone]; exact Nat.zero_le _)
  rw [hnone] at hres hfound hsame
  dsimp only at hres hfound hsame
  obtain rfl := hsame rfl
  have hval := (Prod.mk.inj hfound).1
  rw [searchSection, if_neg Bool.false_ne_true]
  simp only [hfind, hres, hval, bind, Except.bind]
  rfl

/-- The search traverses the index before the node is added, and returns after the store. -/
theorem linearizable_during : ∃ order, Linearization ((start single).run .test storeAndSearch) result
    (fun m i r m' => (storeAndSearch i).Serves m r m') (fun _ => none) [false, true, false, false, true] order ∧
    (false, Ret.ok, []) ∈ order ∧ (true, Ret.ng, []) ∈ order := by
  have hindexes := TreeInstance.indexes_empty single_fresh.rooti
  have hdist : distid .test (tiny 5 2) = 0 :: [1, 2, 3, 4, 5, 6, 7] := by decide
  have haligned : (tiny 5 2).aligned = 128 := by rw [(tiny_short 5 2).aligned_eq.1, tiny_pages, Nat.mul_one]
  obtain ⟨inst, -, hadd, -⟩ := adds_apart
  have h₁ := @storeSection_traverse .test single (tiny 5 2) 0 hindexes (by decide) (by decide) (by decide)
  rw [hdist] at h₁
  have h₂ := @searchSection_empty .test single 0 [5] hindexes
  obtain ⟨f, writes, h₃, -, hin⟩ := @storeSection_freepage .test single (tiny 5 2) 0 0 [1, 2, 3, 4, 5, 6, 7] _ 0
    single_zero fillsTo_initDatafile (tiny_short 5 2) (by rw [tiny_pages]; decide)
  rw [haligned] at hin
  have h₄ := @storeSection_addTree .test ⟨single.inst, Function.update single.files 0 (some f)⟩ (tiny 5 2) 0
    ⟨0, pageOffset (0 + 1), writes⟩ inst hadd
  have hw : ∀ a, Pc.addTree ⟨0, pageOffset (0 + 1), writes⟩ = .addTree a → ∀ w ∈ a.writes, w.1 + w.2 ≤ 2 ^ 24 := by
    rintro a ha w hmem
    obtain rfl := Pc.addTree.inj ha
    exact Nat.le_trans (hin w hmem) (by decide)
  have hstart : (start single : Processes Bool) = pair single .traverse .traverse := by
    have hpc : (fun _ => Pc.traverse) = fun i => cond i Pc.traverse Pc.traverse := by
      funext i
      cases i <;> rfl
    exact congrArg (Processes.mk single) hpc
  have s₁ := @pair_stores .test _ _ _ .traverse _ h₁
  have s₂ := @pair_searches .test _ _ (.freepage [0, 1, 2, 3, 4, 5, 6, 7]) _ _ h₂
  have s₃ := @pair_stores .test _ _ _ (.removeReserved .ng [] []) _ h₃
  have s₄ := @pair_stores .test _ _ _ (.removeReserved .ng [] []) _ h₄
  have s₅ := @pair_searches .test ⟨inst, Function.update single.files 0 (some f)⟩ _ (.returned .ok [])
    (.removeReserved .ng [] []) (.returned .ng []) rfl
  have hrun : (start single).run .test storeAndSearch [false, true, false, false, true] = .ok
      (pair ⟨inst, Function.update single.files 0 (some f)⟩ (.returned .ok []) (.returned .ng [])) := by
    rw [hstart, run_cons s₁, run_cons s₂, run_cons s₃, run_cons s₄, run_cons s₅]
    rfl
  obtain ⟨order, horder⟩ := linearizable .test storeAndSearch single [false, true, false, false, true] single_fresh
    single_blocks storeAndSearch_distinct (by
      rw [hstart]
      refine within_cons (pair_within nofun nofun) s₁ ?_
      refine within_cons (pair_within nofun nofun) s₂ ?_
      refine within_cons (pair_within nofun nofun) s₃ ?_
      refine within_cons (pair_within hw nofun) s₄ ?_
      refine within_cons (pair_within nofun nofun) s₅ ?_
      exact within_nil (pair_within nofun nofun)) hrun
  obtain ⟨done, todo, heq, hdone, -⟩ := horder.between _ [] _ (List.append_nil _).symm hrun
  exact ⟨order, horder, heq ▸ List.mem_append_left todo (hdone false _ rfl),
    heq ▸ List.mem_append_left todo (hdone true _ rfl)⟩

end Processes

end NetworkBfd.Smmr
