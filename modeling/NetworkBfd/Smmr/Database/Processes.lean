import NetworkBfd.Smmr.Database.LastWrite
import NetworkBfd.Smmr.Database.Sections

/-!
# Processes that store and search at the same time

No store is lost (`no_lost_store`). Every entry belongs to the call that stored its item (`Inv.origin`), and its pages
are its own from the moment they are taken (`Inv.place`), although the index gets it later.
-/

namespace NetworkBfd.Smmr

open Lib Lib.Bytes CategoryTree Database

/-- The keys that are stored are distinct and have a hash, and their items last. -/
structure Distinct {ι : Type} (calls : ι → Call) : Prop where
  once : ∀ i j t t' it it', calls i = .store t it → calls j = .store t' it' → it.key = it'.key → i = j
  hashed : ∀ i t it, calls i = .store t it → safeHash it.key ≠ 0
  lasting : ∀ i t it, calls i = .store t it → it.expire = 0

/-! ## The traversal of a new key -/

section Traversal

variable {b : Build} {curtime : BitVec 32} {it : Item} {db : Database} {S : Finset NodeKey} {items : NodeKey → Item}

/-- A store of a key that is not there traverses the index and changes nothing. -/
theorem updateTraversal_absent (h : db.inst.Indexes S) (hent : ∀ e ∈ S, EntryOf b db.files e (items e))
    (hh : safeHash it.key ≠ 0) (habsent : ∀ e ∈ S, (items e).key ≠ it.key) :
    ∃ r c, db.inst.findTreeOnlyKeyhashSafe (safeHash it.key) (findindexCallbackForUpdateInsert b curtime)
        (⟨safeHash it.key, it.key, it.val, .moredata, default, []⟩, db.files) = .ok (r, c, db.files) ∧
      c.flag = .moredata := by
  have hcall : CallFollows (fun (u : FindContainer × Datafiles) (_ : List NodeKey) =>
      u.1.key = it.key ∧ u.1.flag = .moredata ∧ u.2 = db.files) (fun L => ∀ e ∈ L, e ∈ S)
      (findindexCallbackForUpdateInsert b curtime) (note b curtime it.key db.files) := by
    intro e L hL
    have he := hL e (List.mem_append_right _ (List.mem_singleton_self e))
    refine ⟨fun x hx => hL x (List.mem_append_left _ hx), ?_⟩
    rintro ⟨c, fs⟩ ⟨hkey, hflag, rfl⟩
    dsimp only at hkey hflag
    have hk : (items e).key ≠ c.key := by
      rw [hkey]
      exact habsent e he
    obtain ⟨f, hf, -, -⟩ := (hent e he).reads
    rw [updateCallback_entry (hent e he) hf, note, (hent e he).found, if_neg (habsent e he), if_neg hk]
    by_cases hexp : (items e).expired curtime = true
    · simp only [hexp, if_true]
      exact ⟨by simp [Found.stops], hkey, trivial, trivial⟩
    · simp only [hexp, Bool.false_eq_true, if_false]
      exact ⟨by simp [Found.stops], hkey, trivial, trivial⟩
  obtain ⟨⟨r, hrun⟩, -, hmem, -⟩ := @visited_spec b curtime it.key db S h hh
  obtain ⟨-, hfollow⟩ := findTreeOnlyKeyhashSafe_follows hcall db.inst (safeHash it.key) [] r _ hrun
    fun e he => (hmem e he).1
  obtain ⟨⟨c, fs⟩, hu, -, hflag, hfs⟩ := hfollow (⟨safeHash it.key, it.key, it.val, .moredata, default, []⟩, db.files)
    ⟨rfl, rfl, rfl⟩
  dsimp only at hfs
  exact ⟨r, c, by rw [hu, hfs], hflag⟩

end Traversal

/-! ## The invariant -/

/-- The files that were tried have not enough left for the item. -/
structure Tried (b : Build) (it : Item) (ns : List Nat) (files : Datafiles) : Prop where
  key_ne : it.key ≠ []
  val_ne : it.val ≠ []
  fields : ∀ n ∈ ns, n < ipcDatafileMax b
  refused : it.Short → ∀ k f, k < ipcDatafileMax b → k ∉ ns → files k = some f → remainLength f ≤ it.aligned

/-- The item of the call has its pages. -/
def Pc.Placed : Pc → Prop
  | .addTree _ | .returned .. => True
  | _ => False

/-- What is known of a call that has come so far, where the index holds `S` and all entries are `T`. -/
def Call.At (b : Build) (files : Datafiles) (S T : Finset NodeKey) (items : NodeKey → Item) : Call → Pc → Prop
  | .store _ it, .freepage ns => Tried b it ns files
  | .store _ it, .append ns => Tried b it [] files ∧ ∀ n ∈ ns, n < ipcDatafileMax b
  | .store _ it, .addTree p => p.resultnode (safeHash it.key) ∈ T ∧ items (p.resultnode (safeHash it.key)) = it
  | .store _ it, .returned .ok _ => ∃ e ∈ S, items e = it
  | .store .., .removeOld _ | .store .., .freeOld _ => False
  | .search .., .removeReserved _ _ nodes => nodes = []
  | _, _ => True

/-- No file has more left than before. -/
def NoMoreLeft (files files' : Datafiles) : Prop :=
  ∀ k f', files' k = some f' → ∃ f, files k = some f ∧ remainLength f' ≤ remainLength f

theorem NoMoreLeft.refl (files : Datafiles) : NoMoreLeft files files := fun _ f hf => ⟨f, hf, Nat.le_refl _⟩

section At

variable {b : Build} {files files' : Datafiles} {it : Item} {ns : List Nat} {S T S' T' : Finset NodeKey}
  {items items' : NodeKey → Item} {call : Call} {pc : Pc}

theorem Tried.mono (h : Tried b it ns files) (hless : NoMoreLeft files files') : Tried b it ns files' := by
  refine ⟨h.key_ne, h.val_ne, h.fields, fun hs k f' hk hn hf' => ?_⟩
  obtain ⟨f, hf, hle⟩ := hless k f' hf'
  exact Nat.le_trans hle (h.refused hs k f hk hn hf)

/-- Another process has come further. -/
theorem Call.At.mono (h : call.At b files S T items pc) (hless : NoMoreLeft files files') (hsub : S ⊆ T) (hS : S ⊆ S')
    (hT : T ⊆ T') (hitems : ∀ e ∈ T, items' e = items e) : call.At b files' S' T' items' pc := by
  cases call with
  | search curtime key held => cases pc <;> exact h
  | store curtime it =>
    cases pc with
    | traverse => trivial
    | removeOld node => exact h
    | freeOld node => exact h
    | freepage ns => exact Tried.mono h hless
    | append ns => exact ⟨Tried.mono h.1 hless, h.2⟩
    | addTree p => exact ⟨hT h.1, (hitems _ h.1).trans h.2⟩
    | removeReserved ret val nodes => trivial
    | returned ret val =>
      cases ret with
      | ok =>
        obtain ⟨e, he, hit⟩ := h
        exact ⟨e, hS he, (hitems e (hsub he)).trans hit⟩
      | ng => trivial
      | warn => trivial
      | moredata => trivial

end At

namespace Processes

variable {ι : Type} [DecidableEq ι] {b : Build} {calls : ι → Call} {s : Processes ι} {S T : Finset NodeKey}
  {items : NodeKey → Item}

/-- The entries `T` refer to items of the calls, each on pages of its own; those of `S` are in the index. -/
structure Inv (b : Build) (calls : ι → Call) (s : Processes ι) (S T : Finset NodeKey) (items : NodeKey → Item) :
    Prop where
  indexes : s.db.inst.Indexes S
  blocks : s.db.inst.BlocksOnly
  sub : S ⊆ T
  holding : Holding b s.db.files T T items
  filling : Filling s.db.files
  origin : ∀ e ∈ T, ∃ i t, calls i = .store t (items e) ∧ (s.pc i).Placed
  calls : ∀ i, (calls i).At b s.db.files S T items (s.pc i)

/-- Process `i` comes to `pc`, and the database with it to `db`. -/
theorem Inv.goes (h : Inv b calls s S T items) {i : ι} {pc : Pc} {db : Database} {S' T' : Finset NodeKey}
    {items' : NodeKey → Item} (hindexes : db.inst.Indexes S') (hblocks : db.inst.BlocksOnly) (hsub : S' ⊆ T')
    (hhold : Holding b db.files T' T' items') (hfill : Filling db.files) (hless : NoMoreLeft s.db.files db.files)
    (hS : S ⊆ S') (hT : T ⊆ T') (hitems : ∀ e ∈ T, items' e = items e)
    (hnew : ∀ e ∈ T', e ∉ T → ∃ t, calls i = .store t (items' e) ∧ pc.Placed) (hplaced : (s.pc i).Placed → pc.Placed)
    (hat : (calls i).At b db.files S' T' items' pc) :
    Inv b calls ⟨db, Function.update s.pc i pc⟩ S' T' items' := by
  refine ⟨hindexes, hblocks, hsub, hhold, hfill, fun e he => ?_, fun j => ?_⟩
  · by_cases heT : e ∈ T
    · obtain ⟨j, t, hj, hpl⟩ := h.origin e heT
      refine ⟨j, t, by rw [hitems e heT, hj], ?_⟩
      by_cases hji : j = i
      · subst hji
        simp only [Function.update_self]
        exact hplaced hpl
      · simp only [Function.update_of_ne hji]
        exact hpl
    · obtain ⟨t, hi, hpl⟩ := hnew e he heT
      exact ⟨i, t, hi, by simp only [Function.update_self]; exact hpl⟩
  · by_cases hji : j = i
    · subst hji
      simp only [Function.update_self]
      exact hat
    · simp only [Function.update_of_ne hji]
      exact (h.calls j).mono hless h.sub hS hT hitems

/-- Process `i` comes to `pc`, and the database stays as it is. -/
theorem Inv.stays (h : Inv b calls s S T items) {i : ι} {pc : Pc} (hplaced : (s.pc i).Placed → pc.Placed)
    (hat : (calls i).At b s.db.files S T items pc) : Inv b calls ⟨s.db, Function.update s.pc i pc⟩ S T items :=
  h.goes h.indexes h.blocks h.sub h.holding h.filling (NoMoreLeft.refl _) (Finset.Subset.refl S) (Finset.Subset.refl T)
    (fun _ _ => rfl) (fun _ he hn => absurd he hn) hplaced hat

omit [DecidableEq ι] in
/-- Nobody else stores the key of a process, so there is no entry of it before it has its pages. -/
theorem Inv.absent (h : Inv b calls s S T items) (hd : Distinct calls) {i : ι} {t : BitVec 32} {it : Item}
    (hi : calls i = .store t it) (hpc : ¬ (s.pc i).Placed) : ∀ e ∈ T, (items e).key ≠ it.key := by
  intro e he hk
  obtain ⟨j, t', hj, hplaced⟩ := h.origin e he
  obtain rfl := hd.once j i t' t _ _ hj hi hk
  exact hpc hplaced

omit [DecidableEq ι] in
/-- What the entries refer to is not expired. -/
theorem Inv.unexpired (h : Inv b calls s S T items) (hd : Distinct calls) (L : List NodeKey) (t : BitVec 32)
    (hL : ∀ e ∈ L, e ∈ T) : L.filter (expiredAt items t) = [] := by
  refine List.filter_eq_nil_iff.mpr fun e he => ?_
  obtain ⟨i, t', hi, -⟩ := h.origin e (hL e he)
  rw [expiredAt, expired_of_lasting (hd.lasting i t' _ hi)]
  exact Bool.false_ne_true

omit [DecidableEq ι] in
theorem Inv.hashed (h : Inv b calls s S T items) (hd : Distinct calls) : ∀ e ∈ S, e.keyhash ≠ 0 := by
  intro e he
  obtain ⟨i, t, hi, -⟩ := h.origin e (h.sub he)
  rw [← (h.holding.entries e (h.sub he)).hash]
  exact hd.hashed i t _ hi

/-- Within the first `2 ^ 24` bytes there is no room for an item whose length wraps. -/
theorem short_of_within {it : Item} {p : Placement}
    (hwrites : p.writes.map Prod.snd = [sizeofDataitm, it.key.length, it.val.length])
    (hw : ∀ w ∈ p.writes, w.1 + w.2 ≤ 2 ^ 24) : it.Short := by
  have hle : ∀ n ∈ p.writes.map Prod.snd, n ≤ 2 ^ 24 := by
    intro n hn
    obtain ⟨w, hmem, rfl⟩ := List.mem_map.mp hn
    exact Nat.le_trans (Nat.le_add_left _ _) (hw w hmem)
  rw [hwrites] at hle
  have hkey := hle it.key.length (by simp)
  have hval := hle it.val.length (by simp)
  simp only [Item.Short, sizeofDataitm, ipcDatafileAligned]
  omega

/-- A file takes the item of process `i`. -/
theorem Inv.place (h : Inv b calls s S T items) {i : ι} {t : BitVec 32} {it : Item} (hi : calls i = .store t it)
    (hkey : it.key ≠ []) (hval : it.val ≠ []) {k : Nat}
    (hk : k < ipcDatafileMax b) {f f' : Bytes} {p : Placement} (hf : s.db.files k = some f)
    (hround : freepageRound k f it = (some p, f')) (hw : ∀ w ∈ p.writes, w.1 + w.2 ≤ 2 ^ 24) :
    ∃ T' items', Inv b calls ⟨{ s.db with files := Function.update s.db.files k (some f') },
      Function.update s.pc i (.addTree p)⟩ S T' items' := by
  have hwrites := @freepageRound_writes k f it p (by rw [hround])
  have hs := short_of_within hwrites hw
  obtain ⟨u, hu⟩ := h.filling k f hf
  rcases freepageRound_filling k hu hs with ⟨g, writes, hrun, hplaced, hfills⟩ | ⟨-, hrun⟩
  · obtain ⟨hp, rfl⟩ := Prod.mk.inj (hround.symm.trans hrun)
    obtain rfl := Option.some.inj hp
    have hnear : pageOffset (u + 1) < 2 ^ 24 := by
      rcases freepageRound_spec k f hs with ⟨q, g, writes', hrun', -, hin⟩ | ⟨g, hrun', -⟩
      · obtain ⟨hp, -⟩ := Prod.mk.inj (hround.symm.trans hrun')
        obtain ⟨-, hoff, rfl⟩ := Placement.mk.inj (Option.some.inj hp)
        obtain ⟨w, hmem, hlen⟩ := List.mem_map.mp (show sizeofDataitm ∈ writes.map Prod.snd by
          dsimp only at hwrites
          rw [hwrites]
          exact List.mem_cons_self ..)
        have h1 := (hin w hmem).1
        have h2 := hw w hmem
        rw [hoff]
        simp only [sizeofDataitm] at hlen
        omega
      · rw [hrun'] at hround
        cases hround
    have hins := hplaced.inserted hk hf
    have hoff := @toNat_dataOffset (safeHash it.key) ⟨k, pageOffset (u + 1), writes⟩ hnear
    have hfield := @toNat_dataField b (safeHash it.key) ⟨k, pageOffset (u + 1), writes⟩ hk
    obtain ⟨hnot, hhold⟩ := h.holding.insert hins hs hkey hval rfl hfield hoff
    have hne : ∀ e ∈ T, e ≠ Placement.resultnode ⟨k, pageOffset (u + 1), writes⟩ (safeHash it.key) :=
      fun e he hee => hnot (hee ▸ he)
    refine ⟨_, _, h.goes h.indexes h.blocks (fun e he => Finset.mem_insert_of_mem (h.sub he)) hhold ?_ ?_
      (Finset.Subset.refl S) (Finset.subset_insert _ T) (fun e he => Function.update_of_ne (hne e he) _ _)
      (fun e he hn => ?_) (fun _ => trivial) ?_⟩
    · intro j g hg
      dsimp only at hg
      by_cases hj : j = k
      · subst hj
        rw [Function.update_self] at hg
        obtain rfl := Option.some.inj hg
        exact ⟨_, hfills⟩
      · rw [Function.update_of_ne hj] at hg
        exact h.filling j g hg
    · intro j g hg
      dsimp only at hg
      by_cases hj : j = k
      · subst hj
        rw [Function.update_self] at hg
        obtain rfl := Option.some.inj hg
        exact ⟨f, hf, by rw [hplaced.remain]; exact Nat.sub_le _ _⟩
      · rw [Function.update_of_ne hj] at hg
        exact ⟨g, hg, Nat.le_refl _⟩
    · obtain rfl := (Finset.mem_insert.mp he).resolve_right hn
      exact ⟨t, by rw [hi, Function.update_self], trivial⟩
    · rw [hi]
      exact ⟨Finset.mem_insert_self _ T, Function.update_self ..⟩
  · rw [hrun] at hround
    cases hround

/-! ## Steps -/

/-- One file is tried. -/
theorem tryFiles_one (round : Nat → Bytes → Item → Option Placement × Bytes) (it : Item) (n : Nat) (files : Datafiles) :
    tryFiles round it [n] files =
      match files n with
      | none => (none, files)
      | some f => ((round n f it).1, Function.update files n (some (round n f it).2)) := by
  cases hf : files n with
  | none => simp only [tryFiles, hf]
  | some f =>
    rcases hround : round n f it with ⟨_ | p, f'⟩
    · simp only [tryFiles, hf, hround]
    · simp only [tryFiles, hf, hround]

/-- One more file was tried. -/
theorem Tried.next {files : Datafiles} {it : Item} {n : Nat} {ns : List Nat} (h : Tried b it (n :: ns) files)
    (hn : it.Short → ∀ f, files n = some f → remainLength f ≤ it.aligned) : Tried b it ns files := by
  refine ⟨h.key_ne, h.val_ne, fun m hm => h.fields m (List.mem_cons_of_mem _ hm), fun hs k f hk hk' hf => ?_⟩
  by_cases hkn : k = n
  · subst hkn
    exact hn hs f hf
  · exact h.refused hs k f hk (fun hmem => (List.mem_cons.mp hmem).elim hkn hk') hf

/-- The section that tries a file for free pages. -/
theorem freepage_inv (h : Inv b calls s S T items) {i : ι} {t : BitVec 32} {it : Item} (hi : calls i = .store t it)
    (hpc : ¬ (s.pc i).Placed) {ns : List Nat} (htried : Tried b it ns s.db.files)
    (hw : ∀ p db, storeSection b t it s.db (.freepage ns) = .ok (.addTree p, db) → ∀ w ∈ p.writes, w.1 + w.2 ≤ 2 ^ 24) :
    Yields Contract (storeSection b t it s.db (.freepage ns)) fun r =>
      ∃ S' T' items', Inv b calls ⟨r.2, Function.update s.pc i r.1⟩ S' T' items' := by
  have hstays : ∀ pc, (Call.store t it).At b s.db.files S T items pc →
      Inv b calls ⟨s.db, Function.update s.pc i pc⟩ S T items :=
    fun pc hat => h.stays (fun hp => absurd hp hpc) (by rw [hi]; exact hat)
  cases ns with
  | nil => exact ⟨S, T, items, hstays _ ⟨htried, fun n hn => mem_distid.mp hn⟩⟩
  | cons n ns =>
    have hn := htried.fields n (List.mem_cons_self ..)
    simp only [storeSection, tryFiles_one] at hw ⊢
    cases hf : s.db.files n with
    | none =>
      refine ⟨S, T, items, hstays _ (Tried.next htried fun _ f hf' => ?_)⟩
      rw [hf] at hf'
      cases hf'
    | some f =>
      have hself : Function.update s.db.files n (some f) = s.db.files := by rw [← hf, Function.update_eq_self]
      rw [hf] at hw
      rcases hround : freepageRound n f it with ⟨_ | p, f'⟩
      · have hsame : f' = f := by
          obtain ⟨u, hu⟩ := h.filling n f hf
          have hrun := @freepageRound_unplaced f u it n hu (by rw [hround])
          exact congrArg Prod.snd (hround.symm.trans hrun)
        simp only [hround, hsame, hself]
        refine ⟨S, T, items, hstays _ (Tried.next htried fun hs g hg => ?_)⟩
        obtain rfl := Option.some.inj (hf.symm.trans hg)
        obtain ⟨u, hu⟩ := h.filling n f hf
        rcases freepageRound_filling n hu hs with ⟨g, writes, hrun, -⟩ | ⟨hle, -⟩
        · rw [hrun] at hround
          cases hround
        · exact hle
      · simp only [hround] at hw ⊢
        obtain ⟨T', items', h'⟩ := h.place hi htried.key_ne htried.val_ne hn hf hround (hw p _ rfl)
        exact ⟨S, T', items', h'⟩

/-- The section that tries a file for room at its end, which it has not. -/
theorem append_inv (h : Inv b calls s S T items) {i : ι} {t : BitVec 32} {it : Item} (hi : calls i = .store t it)
    (hpc : ¬ (s.pc i).Placed) {ns : List Nat} (htried : Tried b it [] s.db.files) (hns : ∀ n ∈ ns, n < ipcDatafileMax b)
    (hw : ∀ p db, storeSection b t it s.db (.append ns) = .ok (.addTree p, db) → ∀ w ∈ p.writes, w.1 + w.2 ≤ 2 ^ 24) :
    Yields Contract (storeSection b t it s.db (.append ns)) fun r =>
      ∃ S' T' items', Inv b calls ⟨r.2, Function.update s.pc i r.1⟩ S' T' items' := by
  have hstays : ∀ pc, (Call.store t it).At b s.db.files S T items pc →
      Inv b calls ⟨s.db, Function.update s.pc i pc⟩ S T items :=
    fun pc hat => h.stays (fun hp => absurd hp hpc) (by rw [hi]; exact hat)
  cases ns with
  | nil => exact ⟨S, T, items, hstays _ trivial⟩
  | cons n ns =>
    have hrest : ∀ m ∈ ns, m < ipcDatafileMax b := fun m hm => hns m (List.mem_cons_of_mem _ hm)
    simp only [storeSection, tryFiles_one] at hw ⊢
    cases hf : s.db.files n with
    | none => exact ⟨S, T, items, hstays _ ⟨htried, hrest⟩⟩
    | some f =>
      have hself : Function.update s.db.files n (some f) = s.db.files := by rw [← hf, Function.update_eq_self]
      rw [hf] at hw
      rcases hround : appendRound n f it with ⟨_ | p, f'⟩
      · have hsame : f' = f := by
          have hrun := @appendRound_unplaced n f it (by rw [hround])
          exact congrArg Prod.snd (hround.symm.trans hrun)
        simp only [hround, hsame, hself]
        exact ⟨S, T, items, hstays _ ⟨htried, hrest⟩⟩
      · simp only [hround] at hw
        have hs := short_of_within (appendRound_writes (by rw [hround])) (hw p _ rfl)
        have hle := htried.refused hs n f (hns n (List.mem_cons_self ..)) List.not_mem_nil hf
        rw [appendRound_of_le n hle] at hround
        cases hround

/-- A section of a store. -/
theorem store_inv (h : Inv b calls s S T items) (hd : Distinct calls) {i : ι} {t : BitVec 32} {it : Item}
    (hi : calls i = .store t it)
    (hw : ∀ p db, storeSection b t it s.db (s.pc i) = .ok (.addTree p, db) → ∀ w ∈ p.writes, w.1 + w.2 ≤ 2 ^ 24) :
    Yields Contract (storeSection b t it s.db (s.pc i)) fun r =>
      ∃ S' T' items', Inv b calls ⟨r.2, Function.update s.pc i r.1⟩ S' T' items' := by
  have hat := h.calls i
  rw [hi] at hat
  have hstays : ∀ pc, ((s.pc i).Placed → pc.Placed) → (Call.store t it).At b s.db.files S T items pc →
      Inv b calls ⟨s.db, Function.update s.pc i pc⟩ S T items :=
    fun pc hplaced hat => h.stays hplaced (by rw [hi]; exact hat)
  cases hpc : s.pc i with
  | traverse =>
    have hunplaced : ¬ (s.pc i).Placed := by rw [hpc]; exact id
    rw [storeSection]
    by_cases hargs : it.key = [] ∨ it.val = []
    · rw [if_pos hargs]
      exact ⟨S, T, items, hstays _ (fun _ => trivial) trivial⟩
    rw [if_neg hargs]
    obtain ⟨hkey, hval⟩ := not_or.mp hargs
    obtain ⟨r, c, hrun, hflag⟩ := @updateTraversal_absent b t it s.db S items h.indexes
      (fun e he => h.holding.entries e (h.sub he)) (hd.hashed i t it hi)
      fun e he => h.absent hd hi hunplaced e (h.sub he)
    simp only [hrun, hflag, bind, Except.bind]
    refine ⟨S, T, items, hstays _ (fun hp => absurd hp hunplaced) ⟨hkey, hval, fun n hn => mem_distid.mp hn, ?_⟩⟩
    exact fun _ k f hk hn => absurd (mem_distid.mpr hk) hn
  | removeOld node =>
    rw [hpc] at hat
    exact hat.elim
  | freeOld node =>
    rw [hpc] at hat
    exact hat.elim
  | freepage ns =>
    rw [hpc] at hat hw
    exact freepage_inv h hi (by rw [hpc]; exact id) hat hw
  | append ns =>
    rw [hpc] at hat hw
    exact append_inv h hi (by rw [hpc]; exact id) hat.1 hat.2 hw
  | addTree p =>
    rw [hpc] at hat
    obtain ⟨he, hit⟩ := hat
    rw [storeSection]
    refine (TreeInstance.addTreeSafe_spec h.indexes h.blocks
      (show (p.resultnode (safeHash it.key)).keyhash ≠ 0 from hd.hashed i t it hi)).bind ?_
    rintro ⟨ret, inst⟩ ⟨rfl, hindexes, hblocks⟩
    refine ⟨_, T, items, h.goes hindexes hblocks (Finset.insert_subset he h.sub) h.holding h.filling (NoMoreLeft.refl _)
      (Finset.subset_insert _ S) (Finset.Subset.refl T) (fun _ _ => rfl) (fun _ he hn => absurd he hn)
      (fun _ => trivial) ?_⟩
    rw [hi]
    exact ⟨_, Finset.mem_insert_self _ S, hit⟩
  | removeReserved ret val nodes => exact ⟨S, T, items, hstays _ (by rw [hpc]; exact id) trivial⟩
  | returned ret val => exact ⟨S, T, items, hstays _ (by rw [hpc]; exact id) (by rw [← hpc]; exact hat)⟩

/-- A section of a search. Nothing that it finds is expired. -/
theorem search_inv (h : Inv b calls s S T items) (hd : Distinct calls) {i : ι} {t : BitVec 32} {key : List Byte}
    {held : Bool} (hi : calls i = .search t key held) :
    Yields Contract (searchSection b t key held s.db (s.pc i)) fun r =>
      ∃ S' T' items', Inv b calls ⟨r.2, Function.update s.pc i r.1⟩ S' T' items' := by
  have hat := h.calls i
  rw [hi] at hat
  have hstays : ∀ pc, ((s.pc i).Placed → pc.Placed) → (Call.search t key held).At b s.db.files S T items pc →
      Inv b calls ⟨s.db, Function.update s.pc i pc⟩ S T items :=
    fun pc hplaced hat => h.stays hplaced (by rw [hi]; exact hat)
  cases hpc : s.pc i with
  | traverse =>
    have hunplaced : ¬ (s.pc i).Placed := by rw [hpc]; exact id
    rw [searchSection]
    cases held with
    | true => exact ⟨S, T, items, hstays _ (fun _ => trivial) trivial⟩
    | false =>
      rw [if_neg Bool.false_ne_true]
      have hhash : ∀ e ∈ S, e.keyhash ≠ 0 := h.hashed hd
      have hexp := h.unexpired hd (visited b t key s.db) t
        fun e he => h.sub (@visited_mem b s.db S t key h.indexes e he)
      obtain ⟨r, ⟨c, fs⟩, hrun, ⟨-, hres, -⟩, -, hsame⟩ := @searchTraversal_spec b t key S items s.db h.indexes
        (h.holding.mono h.sub h.sub) hhash (by rw [hexp]; exact Nat.zero_le _)
      dsimp only at hres hsame
      rw [hexp] at hres
      obtain rfl := hsame (by rw [expiredOf, hexp]; rfl)
      simp only [hrun, bind, Except.bind]
      exact ⟨S, T, items, hstays _ (fun hp => absurd hp hunplaced) hres⟩
  | removeReserved ret val nodes =>
    rw [hpc] at hat
    obtain rfl := hat
    exact ⟨S, T, items, hstays _ (by rw [hpc]; exact fun _ => trivial) trivial⟩
  | removeOld node => exact ⟨S, T, items, hstays _ (by rw [hpc]; exact id) trivial⟩
  | freeOld node => exact ⟨S, T, items, hstays _ (by rw [hpc]; exact id) trivial⟩
  | freepage ns => exact ⟨S, T, items, hstays _ (by rw [hpc]; exact id) trivial⟩
  | append ns => exact ⟨S, T, items, hstays _ (by rw [hpc]; exact id) trivial⟩
  | addTree p => exact ⟨S, T, items, hstays _ (by rw [hpc]; exact id) trivial⟩
  | returned ret val => exact ⟨S, T, items, hstays _ (by rw [hpc]; exact id) trivial⟩

theorem step_inv (h : Inv b calls s S T items) (hd : Distinct calls) (i : ι)
    (hw : ∀ s', s.step b calls i = .ok s' → s'.Within) :
    Yields Contract (s.step b calls i) fun s' => ∃ S' T' items', Inv b calls s' S' T' items' := by
  rw [step] at hw ⊢
  cases hi : calls i with
  | store t it =>
    rw [hi] at hw
    refine (store_inv h hd hi fun p db hrun => ?_).bind fun r hr => hr
    refine hw ⟨db, Function.update s.pc i (.addTree p)⟩ ?_ i p (Function.update_self ..)
    rw [Call.advance, hrun]
    rfl
  | search t key held => exact (search_inv h hd hi).bind fun r hr => hr

/-- A run in which no file grows too far. -/
theorem run_inv (hd : Distinct calls) : ∀ (sched : List ι) {s : Processes ι} {S T : Finset NodeKey}
    {items : NodeKey → Item}, Inv b calls s S T items →
    (∀ before after s', sched = before ++ after → s.run b calls before = .ok s' → s'.Within) →
    Yields Contract (s.run b calls sched) fun s' => ∃ S' T' items', Inv b calls s' S' T' items'
  | [], _, S, T, items, h, _ => ⟨S, T, items, h⟩
  | i :: sched, s, S, T, items, h, hw => by
    have hstep := step_inv h hd i fun s' hs' => hw [i] sched s' rfl (by rw [run, hs']; rfl)
    rw [run]
    cases hs' : s.step b calls i with
    | error e =>
      rw [hs'] at hstep
      exact hstep
    | ok s' =>
      rw [hs'] at hstep
      obtain ⟨S', T', items', h'⟩ := hstep
      refine run_inv hd sched h' fun before after s'' heq hrun => ?_
      exact hw (i :: before) after s'' (by rw [heq]; rfl) (by rw [run, hs']; exact hrun)

omit [DecidableEq ι] in
theorem start_inv {db₀ : Database} (hfresh : db₀.Fresh) (hblocks : db₀.inst.BlocksOnly) (items : NodeKey → Item) :
    Inv b calls (start db₀) ∅ ∅ items := by
  refine ⟨TreeInstance.indexes_empty hfresh.rooti, hblocks, Finset.Subset.refl _, holding_empty b _ items,
    Filling.fresh hfresh.files, fun e he => absurd he (Finset.notMem_empty e), fun i => ?_⟩
  cases calls i with
  | store t it => trivial
  | search t key held => trivial

/-! ## After the stores -/

omit [DecidableEq ι] in
/-- The database is one of entries that last. -/
theorem Inv.stored (h : Inv b calls s S T items) (hd : Distinct calls) : Stored b s.db S items :=
  ⟨⟨h.indexes, h.blocks, h.hashed hd, h.holding.mono h.sub h.sub⟩, h.filling, fun e he => by
    obtain ⟨i, t, hi, -⟩ := h.origin e (h.sub he)
    exact hd.lasting i t _ hi⟩

omit [DecidableEq ι] in
/-- The entries of the key of a store that succeeded. -/
theorem Inv.holds (h : Inv b calls s S T items) (hd : Distinct calls) {i : ι} {t : BitVec 32} {it : Item}
    (hi : calls i = .store t it) {val : List Byte} (hok : s.pc i = .returned .ok val) :
    Holds S items it.key it.val := by
  have hat := h.calls i
  rw [hi, hok] at hat
  obtain ⟨e, he, rfl⟩ := hat
  refine ⟨⟨e, he, rfl⟩, fun x hx hk => ?_⟩
  obtain ⟨j, t', hj, -⟩ := h.origin x (h.sub hx)
  obtain rfl := hd.once j i t' t _ _ hj hi hk
  rw [hi] at hj
  injection hj with _ hit
  rw [hit]

/-- A search for a key of which there is no entry. -/
theorem search_none {db : Database} {key : List Byte} (t : BitVec 32) (h : Stored b db S items)
    (hnone : ∀ e ∈ S, (items e).key ≠ key) : ∃ db', db.search b t key false = .ok (.ng, [], db') := by
  have hmem := @visited_mem b db S t key h.inv.indexes
  have hroom : db.Reservable b t key := by
    rw [Reservable, List.filter_eq_nil_iff.mpr fun x hx => ?_]
    · exact Nat.zero_le _
    · have hS := hmem x hx
      rw [(h.inv.holding.entries x hS).found, expired_of_lasting (h.lasting x hS), if_neg Bool.false_ne_true,
        if_neg (hnone x hS)]
      decide
  obtain ⟨db', hrun, -⟩ := @search_spec _ _ _ _ t _ h.inv hroom
  refine ⟨db', ?_⟩
  have hempty : (visited b t key db).filter (sameAt items t key) = [] := by
    refine List.filter_eq_nil_iff.mpr fun x hx => ?_
    rw [sameAt, decide_eq_false (hnone x (hmem x hx)), Bool.and_false]
    exact Bool.false_ne_true
  rw [hrun, lastValue, hempty]
  rfl

/-- Processes store distinct keys at the same time, and others search. Whoever's turn it is when, as long as no data
file grows past its first `2 ^ 24` bytes and nodes are allocated, once all stores have returned `RET_OK` each stored key
is found with its value, and no other key is. -/
theorem no_lost_store (b : Build) (calls : ι → Call) (db₀ : Database) (sched : List ι) (hfresh : db₀.Fresh)
    (hblocks : db₀.inst.BlocksOnly) (hd : Distinct calls)
    (hwithin : ∀ before after s, sched = before ++ after → (start db₀).run b calls before = .ok s → s.Within)
    (halloc : (start db₀).run b calls sched ≠ .error .contract) :
    ∃ s, (start db₀).run b calls sched = .ok s ∧
      ((∀ i t it, calls i = .store t it → ∃ val, s.pc i = .returned .ok val) → ∀ t,
        (∀ i t' it, calls i = .store t' it → ∃ db', s.db.search b t it.key false = .ok (.ok, it.val, db')) ∧
        ∀ key, (∀ i t' it, calls i = .store t' it → it.key ≠ key) →
          ∃ db', s.db.search b t key false = .ok (.ng, [], db')) := by
  have hinv := run_inv (b := b) hd sched
    (start_inv hfresh hblocks fun _ => ⟨[], [], 0, by decide, by decide⟩) hwithin
  rcases hinv.cases with ⟨s, hrun, S, T, items, h⟩ | ⟨e, hrun, rfl⟩
  · refine ⟨s, hrun, fun hdone t => ⟨fun i t' it hi => ?_, fun key hno => ?_⟩⟩
    · obtain ⟨val, hok⟩ := hdone i t' it hi
      exact search_holds (h.stored hd) (h.holds hd hi hok)
    · refine search_none t (h.stored hd) fun e he => ?_
      obtain ⟨j, t', hj, -⟩ := h.origin e (h.sub he)
      exact hno j t' _ hj
  · exact absurd hrun halloc

/-! ## Two processes -/

/-- The second of two processes stores under another key. -/
def twoCalls : Bool → Call
  | false => .store 0 (tiny 5 2)
  | true => .store 0 (tiny 13 3)

theorem twoCalls_distinct : Distinct twoCalls := by
  refine ⟨fun i j t t' it it' hi hj hk => ?_, fun i t it hi => ?_, fun i t it hi => ?_⟩
  · cases i <;> cases j <;> injection hi with _ hi <;> injection hj with _ hj <;> subst hi <;> subst hj
    · rfl
    · exact absurd hk (by decide)
    · exact absurd hk (by decide)
    · rfl
  · cases i <;> injection hi with _ hi <;> subst hi <;> decide
  · cases i <;> injection hi with _ hi <;> subst hi <;> rfl

/-- The traversal of an empty index. -/
theorem storeSection_traverse {db : Database} {it : Item} {t : BitVec 32} (h : db.inst.Indexes ∅) (hkey : it.key ≠ [])
    (hval : it.val ≠ []) (hh : safeHash it.key ≠ 0) :
    storeSection b t it db .traverse = .ok (.freepage (distid b it), db) := by
  obtain ⟨r, c, hrun, hflag⟩ := @updateTraversal_absent b t it db ∅ (fun _ => it) h
    (fun e he => absurd he (Finset.notMem_empty e)) hh fun e he => absurd he (Finset.notMem_empty e)
  rw [storeSection, if_neg (not_or.mpr ⟨hkey, hval⟩)]
  simp only [hrun, hflag, bind, Except.bind]

/-- The first file that is tried has room. -/
theorem storeSection_freepage {db : Database} {it : Item} {t : BitVec 32} {n : Nat} {ns : List Nat} {f : Bytes}
    {u : Nat}
    (hf : db.files n = some f) (hu : FillsTo f u) (hs : it.Short) (hroom : u + it.pages < ipcDatafilePagecnt) :
    ∃ f' writes, storeSection b t it db (.freepage (n :: ns)) =
        .ok (.addTree ⟨n, pageOffset (u + 1), writes⟩, { db with files := Function.update db.files n (some f') }) ∧
      FillsTo f' (u + it.pages) ∧ ∀ w ∈ writes, w.1 + w.2 ≤ pageOffset (u + 1) + it.aligned := by
  rcases freepageRound_filling n hu hs with ⟨f', writes, hrun, -, hfills⟩ | ⟨hle, -⟩
  · refine ⟨f', writes, by simp only [storeSection, tryFiles, hf, hrun], hfills, fun w hw => ?_⟩
    rcases freepageRound_spec n f hs with ⟨p, g, writes', hrun', -, hin⟩ | ⟨g, hrun', -⟩
    · rw [hrun] at hrun'
      obtain ⟨-, hoff, rfl⟩ := Placement.mk.inj (Option.some.inj (Prod.mk.inj hrun').1)
      rw [hoff]
      exact (hin w hw).2
    · rw [hrun] at hrun'
      cases hrun'
  · exact absurd ((hu.room hs).mpr hroom) (Nat.not_lt.mpr hle)

theorem run_cons {calls : ι → Call} {s s' : Processes ι} {i : ι} {sched : List ι} (h : s.step b calls i = .ok s') :
    s.run b calls (i :: sched) = s'.run b calls sched := by
  rw [run, h]
  rfl

theorem within_nil {calls : ι → Call} {s : Processes ι} (hs : s.Within) :
    ∀ before after s', [] = before ++ after → s.run b calls before = .ok s' → s'.Within := by
  intro before after s' heq hrun
  obtain ⟨rfl, -⟩ := List.append_eq_nil_iff.mp heq.symm
  obtain rfl := Except.ok.inj hrun
  exact hs

/-- A run that grows no file too far, one turn at a time. -/
theorem within_cons {calls : ι → Call} {s s' : Processes ι} {i : ι} {sched : List ι} (hs : s.Within)
    (hstep : s.step b calls i = .ok s')
    (h : ∀ before after s'', sched = before ++ after → s'.run b calls before = .ok s'' → s''.Within) :
    ∀ before after s'', i :: sched = before ++ after → s.run b calls before = .ok s'' → s''.Within := by
  intro before after s'' heq hrun
  cases before with
  | nil =>
    obtain rfl := Except.ok.inj hrun
    exact hs
  | cons j before =>
    obtain ⟨rfl, hrest⟩ := List.cons.inj heq
    rw [run, hstep] at hrun
    exact h before after s'' hrest hrun

omit [DecidableEq ι] in
/-- Two entries of different keys in different trees. -/
theorem adds_apart : ∃ inst inst', oneBlock.addTreeSafe (nodeAt [5] 0) = .ok (.ok, inst) ∧
    inst.addTreeSafe (nodeAt [13] 1) = .ok (.ok, inst') :=
  adds_two (by decide) (by decide) (by decide +kernel)

/-- Two processes at `p` and at `q`. -/
def pair (db : Database) (p q : Pc) : Processes Bool := ⟨db, fun i => cond i q p⟩

section Pair

variable {db db' : Database} {p q r : Pc}

theorem pair_false (h : storeSection b 0 (tiny 5 2) db p = .ok (r, db')) :
    (pair db p q).step b twoCalls false = .ok (pair db' r q) := by
  have hpc : Function.update (pair db p q).pc false r = (pair db' r q).pc := by
    funext i
    cases i <;> rfl
  rw [step]
  simp only [show (pair db p q).db = db from rfl, show (pair db p q).pc false = p from rfl, twoCalls, Call.advance, h,
    bind, Except.bind, hpc]
  rfl

theorem pair_true (h : storeSection b 0 (tiny 13 3) db q = .ok (r, db')) :
    (pair db p q).step b twoCalls true = .ok (pair db' p r) := by
  have hpc : Function.update (pair db p q).pc true r = (pair db' p r).pc := by
    funext i
    cases i <;> rfl
  rw [step]
  simp only [show (pair db p q).db = db from rfl, show (pair db p q).pc true = q from rfl, twoCalls, Call.advance, h,
    bind, Except.bind, hpc]
  rfl

theorem pair_within (hp : ∀ a, p = .addTree a → ∀ w ∈ a.writes, w.1 + w.2 ≤ 2 ^ 24)
    (hq : ∀ a, q = .addTree a → ∀ w ∈ a.writes, w.1 + w.2 ≤ 2 ^ 24) : (pair db p q).Within := by
  intro i a ha
  cases i with
  | false => exact hp a ha
  | true => exact hq a ha

end Pair

/-- The section that adds the node. -/
theorem storeSection_addTree {db : Database} {it : Item} {t : BitVec 32} {p : Placement} {inst : TreeInstance}
    (h : db.inst.addTreeSafe (p.resultnode (safeHash it.key)) = .ok (.ok, inst)) :
    storeSection b t it db (.addTree p) = .ok (.returned .ok [], { db with inst := inst }) := by
  simp only [storeSection, h, bind, Except.bind]

/-- Two processes take turns. -/
theorem no_lost_store_two : ∃ s, (start single).run .test twoCalls [false, true, false, true, false, true] = .ok s ∧
    ∃ db', s.db.search .test 0 [13] false = .ok (.ok, [3], db') := by
  have hindexes := TreeInstance.indexes_empty single_fresh.rooti
  have hdist : distid .test (tiny 5 2) = 0 :: [1, 2, 3, 4, 5, 6, 7] := by decide
  have hdist' : distid .test (tiny 13 3) = 0 :: [1, 2, 3, 4, 5, 6, 7] := by decide
  have haligned : ∀ k v, (tiny k v).aligned = 128 := fun k v => by
    rw [(tiny_short k v).aligned_eq.1, tiny_pages, Nat.mul_one]
  obtain ⟨inst, inst', hadd, hadd'⟩ := adds_apart
  have h₁ := @storeSection_traverse .test single (tiny 5 2) 0 hindexes (by decide) (by decide) (by decide)
  have h₂ := @storeSection_traverse .test single (tiny 13 3) 0 hindexes (by decide) (by decide) (by decide)
  rw [hdist] at h₁
  rw [hdist'] at h₂
  obtain ⟨f, writes, h₃, hfills, hin⟩ := @storeSection_freepage .test single (tiny 5 2) 0 0 [1, 2, 3, 4, 5, 6, 7] _ 0
    single_zero fillsTo_initDatafile (tiny_short 5 2) (by rw [tiny_pages]; decide)
  rw [tiny_pages] at hfills
  obtain ⟨f', writes', h₄, -, hin'⟩ := @storeSection_freepage .test
    ⟨single.inst, Function.update single.files 0 (some f)⟩ (tiny 13 3) 0 0 [1, 2, 3, 4, 5, 6, 7] f 1
    (by simp only [Function.update_self]) hfills (tiny_short 13 3) (by rw [tiny_pages]; decide)
  rw [haligned] at hin hin'
  have h₅ := @storeSection_addTree .test
    ⟨single.inst, Function.update (Function.update single.files 0 (some f)) 0 (some f')⟩
    (tiny 5 2) 0 ⟨0, pageOffset (0 + 1), writes⟩ inst hadd
  have h₆ := @storeSection_addTree .test ⟨inst, Function.update (Function.update single.files 0 (some f)) 0 (some f')⟩
    (tiny 13 3) 0 ⟨0, pageOffset (1 + 1), writes'⟩ inst' hadd'
  have hw : ∀ a, Pc.addTree ⟨0, pageOffset (0 + 1), writes⟩ = .addTree a → ∀ w ∈ a.writes, w.1 + w.2 ≤ 2 ^ 24 := by
    rintro a ha w hmem
    obtain rfl := Pc.addTree.inj ha
    exact Nat.le_trans (hin w hmem) (by decide)
  have hw' : ∀ a, Pc.addTree ⟨0, pageOffset (1 + 1), writes'⟩ = .addTree a → ∀ w ∈ a.writes, w.1 + w.2 ≤ 2 ^ 24 := by
    rintro a ha w hmem
    obtain rfl := Pc.addTree.inj ha
    exact Nat.le_trans (hin' w hmem) (by decide)
  have hstart : (start single : Processes Bool) = pair single .traverse .traverse := by
    have hpc : (fun _ => Pc.traverse) = fun i => cond i Pc.traverse Pc.traverse := by
      funext i
      cases i <;> rfl
    exact congrArg (Processes.mk single) hpc
  have s₁ := @pair_false .test _ _ _ .traverse _ h₁
  have s₂ := @pair_true .test _ _ (.freepage [0, 1, 2, 3, 4, 5, 6, 7]) _ _ h₂
  have s₃ := @pair_false .test _ _ _ (.freepage [0, 1, 2, 3, 4, 5, 6, 7]) _ h₃
  have s₄ := @pair_true .test _ _ (.addTree ⟨0, pageOffset (0 + 1), writes⟩) _ _ h₄
  have s₅ := @pair_false .test _ _ _ (.addTree ⟨0, pageOffset (1 + 1), writes'⟩) _ h₅
  have s₆ := @pair_true .test _ _ (.returned .ok []) _ _ h₆
  have hrun : (start single).run .test twoCalls [false, true, false, true, false, true] = .ok
      (pair ⟨inst', Function.update (Function.update single.files 0 (some f)) 0 (some f')⟩
        (.returned .ok []) (.returned .ok [])) := by
    rw [hstart, run_cons s₁, run_cons s₂, run_cons s₃, run_cons s₄, run_cons s₅, run_cons s₆]
    rfl
  obtain ⟨s, hs, hfound⟩ := no_lost_store .test twoCalls single [false, true, false, true, false, true] single_fresh
    single_blocks twoCalls_distinct (by
      rw [hstart]
      refine within_cons (pair_within nofun nofun) s₁ ?_
      refine within_cons (pair_within nofun nofun) s₂ ?_
      refine within_cons (pair_within nofun nofun) s₃ ?_
      refine within_cons (pair_within hw nofun) s₄ ?_
      refine within_cons (pair_within hw hw') s₅ ?_
      refine within_cons (pair_within nofun hw') s₆ ?_
      exact within_nil (pair_within nofun nofun)) (by
      rw [hrun]
      exact nofun)
  refine ⟨s, hs, (hfound (fun i t it _ => ⟨[], ?_⟩) 0).1 true 0 (tiny 13 3) rfl⟩
  obtain rfl := Except.ok.inj (hrun.symm.trans hs)
  cases i <;> rfl

end Processes

end NetworkBfd.Smmr
