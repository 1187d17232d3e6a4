import NetworkBfd.Smmr.Database.Visited

/-!
# Index entries and the items they refer to

`EntryOf` says that a node refers to an item; the callbacks then find what the item says (`EntryOf.found`). `Holding`
is the state of the data files: every entry of a set refers to an item, and the entries own disjoint runs of taken
pages. It is kept when a value is overwritten in place (`Holding.overwrite`), when the pages of an entry are given back
(`Holding.free`), and when an item comes, with its entry (`Holding.insert`) or without (`Holding.inserted`).
-/

namespace NetworkBfd.Smmr

open Lib Lib.Bytes

/-! ## Items -/

/-- `expire && expire < curtime`. -/
def Item.expired (it : Item) (curtime : BitVec 32) : Bool := it.expire != 0 && it.expire < curtime

/-- `it` with the value of `new`. -/
def Item.rewrite (it new : Item) : Item := { it with val := new.val, vallen_lt := new.vallen_lt }

section Items

variable {it new : Item}

theorem Item.length_rewrite (h : new.key = it.key) : (it.rewrite new).length = new.length := by
  unfold Item.length Item.rewrite
  rw [h]

theorem Item.aligned_rewrite (h : new.key = it.key) : (it.rewrite new).aligned = new.aligned := by
  rw [Item.aligned, Item.length_rewrite h, Item.aligned]

theorem Item.pages_rewrite (h : new.key = it.key) : (it.rewrite new).pages = new.pages := by
  rw [Item.pages, Item.aligned_rewrite h, Item.pages]

theorem Item.Short.rewrite (hs : new.Short) (h : new.key = it.key) : (it.rewrite new).Short := by
  show it.key.length + new.val.length + sizeofDataitm ≤ _
  rw [← h]
  exact hs

/-- A value that fits is written over the old one and stays within the pages of the item. -/
theorem overwriteVal_spec {f : Bytes} {off : Nat} (h : HoldsItem f off it) (hs : new.Short) (hkey : new.key = it.key)
    (hle : new.aligned ≤ it.aligned) :
    HoldsItem (overwriteVal f off new.val) off (it.rewrite new) ∧
      ∀ i, (i < off ∨ off + it.aligned ≤ i) → overwriteVal f off new.val i = f i := by
  obtain ⟨-, hlen, -, -⟩ := hs.aligned_eq
  have hl := hs.length_eq
  have hk := it.keylen_lt
  have hv := new.vallen_lt
  rw [hkey] at hl
  simp only [sizeofDataitm] at hl
  obtain ⟨h1, h2, h3, h4, h5, h6, h7⟩ := h
  unfold itemSignature at h1
  unfold itemLengthField at h2
  unfold itemExpire at h3
  unfold itemKeylen at h4
  unfold itemVallen at h5
  simp only [sizeofDataitm] at h6
  -- the value goes behind the header and the key
  generalize hg : write f (off + 24 + it.key.length) new.val = g
  have hbefore : ∀ i, i < off + 24 + it.key.length → g i = f i := by
    intro i hi
    rw [← hg]
    exact write_of_outside (.inl hi)
  have hword : ∀ a n, a + n ≤ off + 24 → word g a n = word f a n :=
    fun a n ha => word_congr fun i _ hi => hbefore i (by omega)
  have hval : read g (off + 24 + it.key.length) new.val.length = new.val := by
    rw [← hg]
    exact read_write_self _ _ _
  have hkeyread : read g (off + 24) it.key.length = it.key :=
    (read_congr fun i _ hi => hbefore i hi).trans h6
  have hout : ∀ i, (i < off ∨ off + it.aligned ≤ i) → g i = f i := by
    intro i hi
    rw [← hg]
    exact write_of_outside (by omega)
  simp only [overwriteVal, itemKeylen, itemVallen, h4, sizeofDataitm, hg, hword (off + 20) 4 (Nat.le_refl _), h5]
  by_cases hsame : it.val.length = new.val.length
  · rw [if_neg (not_not.mpr hsame)]
    refine ⟨⟨?_, ?_, ?_, ?_, ?_, hkeyread, hval⟩, hout⟩
    · rw [itemSignature, hword _ _ (by omega), h1]
    · rw [itemLengthField, hword _ _ (by omega), h2, Item.length_rewrite hkey, Item.length, Item.length, hkey, hsame]
    · rw [itemExpire, hword _ _ (by omega), h3]
      rfl
    · rw [itemKeylen, hword _ _ (by omega), h4]
      rfl
    · rw [itemVallen, hword _ _ (by omega), h5, hsame]
      rfl
  · rw [if_pos hsame]
    have hkeylen : word (putWord g (off + 20) 4 new.val.length) (off + 16) 4 = it.key.length := by
      rw [word_putWord_of_disjoint (.inl (by omega)), hword _ _ (by omega), h4]
    have hvallen : word (putWord g (off + 20) 4 new.val.length) (off + 20) 4 = new.val.length := by
      rw [word_putWord_self]
      exact Nat.mod_eq_of_lt hv
    rw [hkeylen, hvallen]
    refine ⟨⟨?_, ?_, ?_, ?_, ?_, ?_, ?_⟩, fun i hi => ?_⟩
    · rw [itemSignature, word_putWord_of_disjoint (.inl (by omega)), word_putWord_of_disjoint (.inl (by omega)),
        hword _ _ (by omega), h1]
    · rw [itemLengthField, word_putWord_self, Item.length_rewrite hkey, Item.length, hkey]
      refine Nat.mod_eq_of_lt ?_
      unfold itemLength
      exact Nat.mod_lt _ (by decide)
    · rw [itemExpire, word_putWord_of_disjoint (.inr (by omega)), word_putWord_of_disjoint (.inl (by omega)),
        hword _ _ (by omega), h3]
      rfl
    · rw [itemKeylen, word_putWord_of_disjoint (.inr (by omega)), hkeylen]
      rfl
    · rw [itemVallen, word_putWord_of_disjoint (.inr (by omega)), hvallen]
      rfl
    · refine (read_congr fun i hi _ => ?_).trans hkeyread
      have hlow : off + 24 ≤ i := hi
      rw [putWord_of_outside (.inr (by omega)), putWord_of_outside (.inr (by omega))]
    · refine (read_congr fun i hi _ => ?_).trans hval
      have hlow : off + 24 + it.key.length ≤ i := hi
      rw [putWord_of_outside (.inr (by omega)), putWord_of_outside (.inr (by omega))]
    · have hheader : i < off ∨ off + 24 ≤ i := by omega
      rw [putWord_of_outside (by omega), putWord_of_outside (by omega)]
      exact hout i hi

end Items

/-! ## Entries -/

/-- The page of the item of a node. -/
def NodeKey.page (e : NodeKey) : Nat := (e.dataOffset.toNat - sizeofDbTableHeader) / ipcDatafileAligned

/-- The pages of the item of a node. -/
def NodeKey.run (e : NodeKey) (it : Item) : PageRun := it.run e.dataField.toNat e.page

/-- The node `e` refers to the item `it`. -/
structure EntryOf (b : Build) (files : Datafiles) (e : NodeKey) (it : Item) : Prop where
  short : it.Short
  key_ne : it.key ≠ []
  val_ne : it.val ≠ []
  hash : safeHash it.key = e.keyhash
  field : e.dataField.toNat < ipcDatafileMax b
  offset : e.dataOffset.toNat = pageOffset e.page
  page_pos : 1 ≤ e.page
  page_le : e.page + it.pages ≤ ipcDatafilePagecnt
  holds : ItemIn files e.dataField.toNat e.page it

section Entries

variable {b : Build} {files files' : Datafiles} {e : NodeKey} {it new : Item} {curtime : BitVec 32}

theorem EntryOf.pages_pos (h : EntryOf b files e it) : 0 < it.pages := h.short.aligned_eq.2.2.2

/-- What the callbacks read. -/
theorem EntryOf.reads (h : EntryOf b files e it) : ∃ f, files e.dataField.toNat = some f ∧
    HoldsItem f e.dataOffset.toNat it ∧ itemOfNode b files e = some f := by
  obtain ⟨f, hf, hit⟩ := h.holds
  rw [← h.offset] at hit
  refine ⟨f, hf, hit, ?_⟩
  have hfield : ¬ ipcDatafileMax b < e.dataField.toNat := Nat.not_lt.mpr (Nat.le_of_lt h.field)
  have hlengths : ¬ (it.key.length = 0 ∨ it.val.length = 0) := by
    rw [List.length_eq_zero_iff, List.length_eq_zero_iff]
    exact not_or.mpr ⟨h.key_ne, h.val_ne⟩
  simp only [itemOfNode, hfield, if_false, hf, hit.valid h.short, Bool.not_true, Bool.false_eq_true, hit.keylen,
    hit.vallen, hlengths]

theorem HoldsItem.expired_eq {f : Bytes} {off : Nat} (h : HoldsItem f off it) :
    expired f off curtime = it.expired curtime := by
  rw [expired, h.expire, Item.expired]

theorem HoldsItem.sameKey_iff {f : Bytes} {off : Nat} (h : HoldsItem f off it) {key : List Byte} :
    sameKey f off key = true ↔ it.key = key := by
  rw [sameKey, Bool.and_eq_true, beq_iff_eq, beq_iff_eq, h.keylen]
  constructor
  · rintro ⟨hlen, hread⟩
    rw [hlen, h.key] at hread
    exact hread
  · rintro rfl
    exact ⟨rfl, h.key⟩

/-- The callbacks find what the item of the node says. -/
theorem EntryOf.found (h : EntryOf b files e it) (key : List Byte) :
    found b curtime key files e =
      if it.expired curtime then .expired else if it.key = key then .same else .other := by
  obtain ⟨f, -, hit, hnode⟩ := h.reads
  simp only [Smmr.found, hnode, hit.expired_eq, hit.sameKey_iff]

/-- A node refers to one key and value. -/
theorem EntryOf.val_eq {it' : Item} (h : EntryOf b files e it) (h' : EntryOf b files e it') :
    it.val = it'.val := by
  obtain ⟨f, hf, hit, -⟩ := h.reads
  obtain ⟨g, hg, hit', -⟩ := h'.reads
  obtain rfl := Option.some.inj (hf.symm.trans hg)
  have hk := hit.keylen.symm.trans hit'.keylen
  have hv := hit.vallen.symm.trans hit'.vallen
  have hval := hit.val
  rw [hk, hv, hit'.val] at hval
  exact hval.symm

theorem EntryOf.congr (h : EntryOf b files e it) (hold : ItemIn files' e.dataField.toNat e.page it) :
    EntryOf b files' e it := { h with holds := hold }

theorem EntryOf.run_count (h : EntryOf b files e it) : 0 < (e.run it).count := h.pages_pos

/-! ## Overwriting in place -/

/-- Only bytes on the pages of `it` at `page` of file `k` have changed, and the item there is `it` with another
value. -/
structure Rewritten (files files' : Datafiles) (it new : Item) (k page : Nat) : Prop where
  holds : ItemIn files' k page (it.rewrite new)
  others : ∀ j f, files j = some f → ∃ f', files' j = some f' ∧
    ∀ i, (j = k → i < pageOffset page ∨ pageOffset page + it.aligned ≤ i) → f' i = f i
  mapped : ∀ j, (files' j).isSome = (files j).isSome

theorem EntryOf.rewritten (h : EntryOf b files e it) (hs : new.Short) (hkey : new.key = it.key)
    (hle : new.aligned ≤ it.aligned) {f : Bytes} (hf : files e.dataField.toNat = some f) :
    Rewritten files (Function.update files e.dataField.toNat (some (overwriteVal f e.dataOffset.toNat new.val))) it new
      e.dataField.toNat e.page := by
  obtain ⟨g, hg, hit⟩ := h.holds
  obtain rfl := Option.some.inj (hf.symm.trans hg)
  rw [h.offset]
  obtain ⟨hnew, hout⟩ := overwriteVal_spec hit hs hkey hle
  refine ⟨⟨_, Function.update_self .., hnew⟩, fun j g hg => ?_, fun j => ?_⟩
  · by_cases hj : j = e.dataField.toNat
    · subst hj
      obtain rfl := Option.some.inj (hf.symm.trans hg)
      exact ⟨_, Function.update_self .., fun i hi => hout i (hi rfl)⟩
    · exact ⟨g, by rw [Function.update_of_ne hj, hg], fun _ _ => rfl⟩
  · by_cases hj : j = e.dataField.toNat
    · subst hj
      rw [Function.update_self, hf, Option.isSome_some, Option.isSome_some]
    · rw [Function.update_of_ne hj]

theorem Rewritten.header {k page : Nat} (h : Rewritten files files' it new k page) :
    ∀ j f, files j = some f → ∃ f', files' j = some f' ∧ taken f' = taken f ∧ remainLength f' = remainLength f ∧
      usedLength f' = usedLength f := by
  intro j f hf
  obtain ⟨f', hf', hsame⟩ := h.others j f hf
  refine ⟨f', hf', congr_header fun i hi => hsame i fun _ => .inl ?_⟩
  exact Nat.lt_of_lt_of_le hi (Nat.le_add_right _ _)

theorem Rewritten.used {k page : Nat} (h : Rewritten files files' it new k page) :
    pageUsed files' = pageUsed files := by
  funext j q
  unfold pageUsed
  have hmap := h.mapped j
  cases hf : files j with
  | none =>
    rw [hf, Option.isSome_none, Option.isSome_eq_false_iff, Option.isNone_iff_eq_none] at hmap
    rw [hmap]
  | some f =>
    obtain ⟨f', hf', ht, -⟩ := h.header j f hf
    rw [hf']
    exact congrFun ht q

/-- An item on other pages is still there. -/
theorem Rewritten.keeps {k page j page' : Nat} {it' : Item} (h : Rewritten files files' it new k page) (hs : it.Short)
    (hs' : it'.Short) (hold : ItemIn files j page' it') (hapart : (it.run k page).Apart (it'.run j page')) :
    ItemIn files' j page' it' := by
  obtain ⟨f, hf, hit⟩ := hold
  obtain ⟨f', hf', hsame⟩ := h.others j f hf
  refine ⟨f', hf', hit.congr fun i h1 h2 => hsame i fun hj => ?_⟩
  have hb := @Item.Short.bytes_le it' page' hs'
  have ha := hs.aligned_eq.1
  have hor := hapart hj.symm
  simp only [Item.run, pageOffset, sizeofDbTableHeader, ipcDatafileAligned] at *
  omega

end Entries

/-! ## The files of a database -/

/-- The entries of `S` refer to their items, and those of `T` own the pages of theirs. -/
structure Holding (b : Build) (files : Datafiles) (S T : Finset NodeKey) (items : NodeKey → Item) : Prop where
  entries : ∀ e ∈ S, EntryOf b files e (items e)
  owned : Owned (pageUsed files) (· ∈ T) fun e => e.run (items e)

section Holding

variable {b : Build} {files files' : Datafiles} {S T S' T' : Finset NodeKey} {items : NodeKey → Item} {e : NodeKey}
  {it new : Item}

theorem holding_empty (b : Build) (files : Datafiles) (items : NodeKey → Item) : Holding b files ∅ ∅ items :=
  ⟨fun _ h => absurd h (Finset.notMem_empty _), fun _ h => absurd h (Finset.notMem_empty _),
    fun _ _ h => absurd h (Finset.notMem_empty _)⟩

theorem Holding.mono (h : Holding b files S T items) (hS : S' ⊆ S) (hT : T' ⊆ T) : Holding b files S' T' items :=
  ⟨fun e he => h.entries e (hS he), h.owned.mono (fun _ he => hT he) (fun _ _ => rfl) fun _ _ hq => hq⟩

theorem Holding.untouched (h : Holding b files S T items) (hu : Untouched files files') : Holding b files' S T items :=
  ⟨fun e he => (h.entries e he).congr (hu.keeps (h.entries e he).holds), by rw [hu.used]; exact h.owned⟩

/-- A value that fits is written over the old one. -/
theorem Holding.overwrite (h : Holding b files S S items) (he : e ∈ S) (hs : new.Short) (hval : new.val ≠ [])
    (hkey : new.key = (items e).key) (hle : new.aligned ≤ (items e).aligned)
    (hr : Rewritten files files' (items e) new e.dataField.toNat e.page) :
    Holding b files' S S (Function.update items e ((items e).rewrite new)) := by
  have hent := h.entries e he
  have hpages : new.pages ≤ (items e).pages := Nat.div_le_div_right hle
  refine ⟨fun e' he' => ?_, ?_⟩
  · by_cases hee : e' = e
    · subst hee
      rw [Function.update_self]
      exact { hent with
        short := hs.rewrite hkey
        val_ne := hval
        page_le := Nat.le_trans (Nat.add_le_add_left (by rwa [Item.pages_rewrite hkey]) _) hent.page_le
        holds := hr.holds }
    · rw [Function.update_of_ne hee]
      have hent' := h.entries e' he'
      exact hent'.congr (hr.keeps hent.short hent'.short hent'.holds (h.owned.apart e e' he he' (Ne.symm hee)))
  · rw [hr.used]
    refine h.owned.shrink fun e' _ => ⟨rfl, rfl, ?_⟩
    by_cases hee : e' = e
    · subst hee
      rw [Function.update_self]
      show Item.pages _ ≤ _
      rwa [Item.pages_rewrite hkey]
    · rw [Function.update_of_ne hee]

/-- The pages of an entry are given back. -/
theorem Holding.free (h : Holding b files S T items) (he : e ∈ T)
    (hr : Released files files' (items e) e.dataField.toNat e.page) : Holding b files' S (T.erase e) items :=
  ⟨fun e' he' => (h.entries e' he').congr (hr.keeps (h.entries e' he').holds),
    h.owned.free he (fun _ he' => Finset.mem_erase.mp he') (fun _ _ => rfl) hr.used⟩

/-- An item comes that no entry refers to. -/
theorem Holding.inserted (h : Holding b files S S items) {k page : Nat} (hs : it.Short)
    (hins : Inserted b files files' it k page) : Holding b files' S S items := by
  have hpos := hs.aligned_eq.2.2.2
  refine ⟨fun e he => (h.entries e he).congr ?_, h.owned.mono (fun _ he => he) (fun _ _ => rfl) fun j q hq => ?_⟩
  · refine hins.keeps hs (h.entries e he).short (h.entries e he).holds ?_
    exact @Owned.apart_of_free _ _ _ _ h.owned (it.run k page) hins.free hpos e he (h.entries e he).run_count
  · rw [hins.used]
    split
    · rfl
    · exact hq

/-- The node of a new item refers to it. -/
theorem Inserted.entryOf {k page : Nat} (hins : Inserted b files files' it k page) (hs : it.Short) (hkey : it.key ≠ [])
    (hval : it.val ≠ []) (hhash : safeHash it.key = e.keyhash) (hfield : e.dataField.toNat = k)
    (hoff : e.dataOffset.toNat = pageOffset page) : e.page = page ∧ EntryOf b files' e it := by
  have hpage : e.page = page := by
    rw [NodeKey.page, hoff, pageOffset, Nat.add_sub_cancel_left, Nat.mul_div_cancel_left _ (by decide)]
  refine ⟨hpage, hs, hkey, hval, hhash, hfield ▸ hins.field, by rw [hpage, hoff], hpage ▸ hins.page_pos,
    hpage ▸ hins.page_le, ?_⟩
  rw [hfield, hpage]
  exact hins.holds

/-- An item comes with its entry, which is a new one. -/
theorem Holding.insert (h : Holding b files S S items) {k page : Nat} (hins : Inserted b files files' it k page)
    (hs : it.Short) (hkey : it.key ≠ []) (hval : it.val ≠ []) (hhash : safeHash it.key = e.keyhash)
    (hfield : e.dataField.toNat = k) (hoff : e.dataOffset.toNat = pageOffset page) :
    e ∉ S ∧ Holding b files' (insert e S) (insert e S) (Function.update items e it) := by
  obtain ⟨hpage, hent⟩ := hins.entryOf hs hkey hval hhash hfield hoff
  have hpos := hs.aligned_eq.2.2.2
  have hfree : FreeRun (pageUsed files e.dataField.toNat) e.page it.pages := by
    rw [hfield, hpage]
    exact hins.free
  have hnew : e ∉ S := by
    intro he
    have hused := h.owned.taken e he e.page (Nat.le_refl _) (Nat.lt_add_of_pos_right (h.entries e he).run_count)
    have hunused := hfree e.page (Nat.le_refl _) (Nat.lt_add_of_pos_right hpos)
    exact Bool.noConfusion (hused.symm.trans hunused)
  have hne : ∀ e' ∈ S, e' ≠ e := fun e' he' hee => hnew (hee ▸ he')
  have hold := h.inserted hs hins
  refine ⟨hnew, fun e' he' => ?_, ?_⟩
  · rcases Finset.mem_insert.mp he' with rfl | he'
    · rw [Function.update_self]
      exact hent
    · rw [Function.update_of_ne (hne e' he')]
      exact hold.entries e' he'
  · refine h.owned.place hnew (fun e' he' => Finset.mem_insert.mp he') (fun e' he' => ?_) ?_
      (fun e' he' => (h.entries e' he').run_count) ?_ fun j q => ?_
    · rw [Function.update_of_ne (hne e' he')]
    · rw [Function.update_self]
      exact hpos
    · rw [Function.update_self]
      exact hfree
    · simp only [Function.update_self, NodeKey.run, Item.run, hfield, hpage]
      exact hins.used j q

end Holding

end NetworkBfd.Smmr
