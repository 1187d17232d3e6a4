import NetworkBfd.Smmr.FirstFit

/-!
# Freeing what was just inserted

`change_free_to_datafile` on the result of an insertion does not give back what the insertion took (`undone_iff`): it
credits `remain_length` with 128 times the length of the item, and the two ways of inserting disagree about the page of
an offset.
-/

namespace NetworkBfd.Smmr

open Lib Lib.Bytes

/-- The headers that the insertions and the freeing of nodes make of a fresh one, whatever is written behind it. An item
that is appended past the end of the file is not written at all. -/
inductive Reached : Bytes → Prop
  | init : Reached initDatafile
  | freepage {f f' : Bytes} {k : Nat} {it : Item} {r : Option Placement} (h : Reached f) (hs : it.Short)
      (hrun : freepageRound k f it = (r, f')) : Reached f'
  | append {f f' : Bytes} {k : Nat} {it : Item} {p : Placement} (h : Reached f) (hs : it.Short)
      (hend : usedLength f + it.aligned ≤ ipcDatafileTtlsize) (hrun : appendRound k f it = (some p, f')) : Reached f'
  | free {f f' : Bytes} {off : Nat} {ret : Ret} (h : Reached f) (hrun : changeFreeRound f off = (ret, f')) : Reached f'
  | items {f f' : Bytes} (h : Reached f) (hsame : ∀ i, i < sizeofDbTableHeader → f' i = f i) : Reached f'

/-- The pages from the end of the used part on are free, in the count of `insert_to_datafile`. -/
structure Settled (f : Bytes) : Prop where
  below : ∀ q, taken f q = true → q < pageno (usedLength f)
  base : sizeofDbTableHeader ≤ usedLength f
  le : usedLength f ≤ ipcDatafileTtlsize
  whole : usedLength f % ipcDatafileAligned = 0

/-- Bitmap and `remain_length` of file `k` are what they were. -/
def Undone (files files' : Datafiles) (k : Nat) : Prop :=
  ∃ f f', files k = some f ∧ files' k = some f' ∧ taken f' = taken f ∧ remainLength f' = remainLength f

section Rounds

variable {f f' : Bytes} {it : Item} {k off : Nat}

/-- Freed pages are free, also those that the bitmap does not have. -/
theorem taken_setPages_false (f : Bytes) (p n q : Nat) :
    taken (setPages f p n false) q = if p ≤ q ∧ q < p + n then false else taken f q := by
  rw [taken, taken, pageBit_setPages]
  split
  · exact Bool.and_false _
  · rfl

theorem changeFreeRound_valid (h : itemValid f off = true) : ∃ f', changeFreeRound f off = (.ok, f') ∧
    (∀ q, taken f' q = if pageno (off - sizeofDbTableHeader) ≤ q ∧
      q < pageno (off - sizeofDbTableHeader) + alignedSize (itemLengthField f off) / ipcDatafileAligned then false
        else taken f q) ∧ usedLength f' = usedLength f ∧
    remainLength f' =
      (remainLength f + alignedSize (itemLengthField f off) * ipcDatafileAligned % 2 ^ 32) % 2 ^ 64 := by
  unfold changeFreeRound
  rw [if_pos h]
  refine ⟨_, rfl, fun q => ?_, ?_, ?_⟩
  · rw [taken_setRemainLength, taken_setPages_false]
  · rw [usedLength_setRemainLength, usedLength_setPages]
  · rw [remainLength_setRemainLength, remainLength_setPages]

/-- `f'` is `f` with `it` behind the last item. -/
structure Appended (f f' : Bytes) (it : Item) : Prop where
  taken : ∀ q, taken f' q =
    if pageno (usedLength f) ≤ q ∧ q < pageno (usedLength f) + it.pages then true else taken f q
  used : usedLength f' = usedLength f + it.aligned
  remain : remainLength f' = remainLength f - it.aligned
  holds : HoldsItem f' (usedLength f) it
  others : ∀ i, sizeofDbTableHeader ≤ i → i < usedLength f → f' i = f i

theorem Settled.pageno_eq (h : Settled f) : pageno (usedLength f) = usedLength f / ipcDatafileAligned := if_pos h.whole

/-- The header after an item was appended, and the item. -/
theorem appended_of_write (hs : it.Short) (hroom : it.aligned < remainLength f) (hset : Settled f)
    (hend : usedLength f + it.aligned ≤ ipcDatafileTtlsize) {g : Bytes}
    (hg : write (setPages f (pageno (usedLength f)) it.pages true) (usedLength f) it.bytes = g) :
    Appended f (takeRemain (setUsedLength g (usedLength f + it.aligned)) it.aligned) it := by
  have hpage := hset.pageno_eq
  have hbase := hset.base
  have ha := hs.aligned_eq.1
  simp only [ipcDatafileTtlsize, ipcDatafileAligned, sizeofDbTableHeader] at hpage hbase ha hend
  have hpages : pageno (usedLength f) + it.pages ≤ bitmapPages := by
    simp only [bitmapPages, ipcDatafileTtlsize, ipcDatafileAligned]
    omega
  obtain ⟨ht, hr, -⟩ := @congr_header (setPages f (pageno (usedLength f)) it.pages true) g fun i hi => by
    rw [← hg]
    exact write_of_outside (.inl (by simp only [sizeofDbTableHeader] at hi; omega))
  rw [remainLength_setPages] at hr
  have hroom' : it.aligned < remainLength (setUsedLength g (usedLength f + it.aligned)) := by
    rw [remainLength_setUsedLength, hr]
    exact hroom
  have hlast : ∀ i, 131200 ≤ i →
      takeRemain (setUsedLength g (usedLength f + it.aligned)) it.aligned i = g i := by
    intro i hi
    rw [takeRemain_of_lt hroom']
    exact (putWord_of_outside (.inr (by omega))).trans (putWord_of_outside (.inr (by omega)))
  refine ⟨fun q => ?_, ?_, ?_, ?_, fun i hi hlt => ?_⟩
  · rw [takeRemain_of_lt hroom', taken_setRemainLength, taken_setUsedLength, ht, taken_setPages _ _ _ _ _ hpages]
  · rw [takeRemain_of_lt hroom', usedLength_setRemainLength, usedLength_setUsedLength, Nat.mod_eq_of_lt (by omega)]
  · have := remainLength_lt f
    rw [takeRemain_of_lt hroom', remainLength_setRemainLength, remainLength_setUsedLength, hr,
      Nat.mod_eq_of_lt (by omega)]
  · refine (holdsItem_write (setPages f (pageno (usedLength f)) it.pages true) (usedLength f) it).congr fun i h1 _ => ?_
    rw [hlast i (by omega), hg]
  · simp only [sizeofDbTableHeader] at hi
    rw [hlast i hi, ← hg, write_of_outside (.inl hlt)]
    simp only [bitmapPages, ipcDatafileTtlsize, ipcDatafileAligned] at hpages
    exact setBits_of_outside _ _ _ _ (.inr (by omega))

theorem appendRound_spec (hs : it.Short) (hroom : it.aligned < remainLength f) (hset : Settled f)
    (hend : usedLength f + it.aligned ≤ ipcDatafileTtlsize) :
    ∃ p f', appendRound k f it = (some p, f') ∧ Appended f f' it := by
  have happ := appended_of_write hs hroom hset hend rfl
  have hle := hset.le
  have hwhole := hset.pageno_eq
  simp only [ipcDatafileTtlsize, ipcDatafileAligned] at hend hle hwhole
  have hpage : pageno (usedLength f) % 2 ^ 32 = pageno (usedLength f) := Nat.mod_eq_of_lt (by omega)
  have hdelta : (usedLength f + it.aligned + 2 ^ 64 - usedLength f % 2 ^ 32) % 2 ^ 64 = it.aligned := by omega
  unfold appendRound
  rw [if_pos hroom]
  simp only [hpage, show it.aligned / ipcDatafileAligned = it.pages from rfl]
  rw [copyItem_eq hs (by omega)]
  simp only [hdelta]
  exact ⟨_, _, rfl, happ⟩

end Rounds

/-! ## Reached headers -/

theorem usedLength_initDatafile : usedLength initDatafile = sizeofDbTableHeader := by
  rw [initDatafile, usedLength_setRemainLength, usedLength, word_putWord_of_disjoint (.inl (by decide))]
  exact usedLength_setUsedLength _ _

namespace Settled

variable {f f' : Bytes} {it : Item}

theorem placed (h : Settled f) (hs : it.Short) {p : Nat} (hp : Placed f f' p it) : Settled f' := by
  obtain ⟨-, hend, -, -⟩ := hp.first
  have hpage := h.pageno_eq
  have ha := hs.aligned_eq.1
  obtain ⟨hbelow, hbase, hle, hwhole⟩ := h
  simp only [ipcDatafilePagecnt, ipcDatafileTtlsize, ipcDatafileAligned, sizeofDbTableHeader] at *
  have hused : usedLength f' = max (usedLength f) (131200 + 128 * p + it.aligned) := hp.used
  have hwhole' : usedLength f' % 128 = 0 := by omega
  have hpage' : pageno (usedLength f') = usedLength f' / 128 := if_pos hwhole'
  have hbase' : 131200 ≤ usedLength f' := by omega
  have hle' : usedLength f' ≤ 134217728 := by omega
  refine ⟨fun q hq => ?_, hbase', hle', hwhole'⟩
  rw [hp.taken] at hq
  split at hq
  · omega
  · have := hbelow q hq
    omega

theorem appended (h : Settled f) (hs : it.Short) (hend : usedLength f + it.aligned ≤ ipcDatafileTtlsize)
    (happ : Appended f f' it) : Settled f' := by
  have hpage := h.pageno_eq
  have ha := hs.aligned_eq.1
  have hused := happ.used
  obtain ⟨hbelow, hbase, hle, hwhole⟩ := h
  simp only [ipcDatafileTtlsize, ipcDatafileAligned, sizeofDbTableHeader] at *
  have hwhole' : usedLength f' % 128 = 0 := by omega
  have hpage' : pageno (usedLength f') = usedLength f' / 128 := if_pos hwhole'
  have hbase' : 131200 ≤ usedLength f' := by omega
  have hle' : usedLength f' ≤ 134217728 := by omega
  refine ⟨fun q hq => ?_, hbase', hle', hwhole'⟩
  rw [happ.taken] at hq
  split at hq
  · omega
  · have := hbelow q hq
    omega

/-- Fewer pages, and the same used part. -/
theorem mono (h : Settled f) (ht : ∀ q, taken f' q = true → taken f q = true) (hu : usedLength f' = usedLength f) :
    Settled f' where
  below q hq := by
    rw [hu]
    exact h.below q (ht q hq)
  base := hu.symm ▸ h.base
  le := hu.symm ▸ h.le
  whole := hu.symm ▸ h.whole

end Settled

theorem Reached.settled {f : Bytes} (h : Reached f) : Settled f := by
  induction h with
  | init =>
    refine ⟨fun q hq => ?_, ?_, ?_, ?_⟩
    · rw [fillsTo_initDatafile.taken, decide_eq_false (by omega)] at hq
      cases hq
    · exact Nat.le_of_eq usedLength_initDatafile.symm
    · rw [usedLength_initDatafile]
      decide
    · rw [usedLength_initDatafile]
      decide
  | @freepage f f' k it r _ hs hrun ih =>
    rcases freepageRound_spec k f hs with ⟨p, g, writes, hrun', hplaced, -⟩ | ⟨g, hrun', hg⟩
    · obtain ⟨-, rfl⟩ := Prod.mk.inj (hrun.symm.trans hrun')
      exact ih.placed hs hplaced
    · obtain ⟨-, rfl⟩ := Prod.mk.inj (hrun.symm.trans hrun')
      rcases hg with ⟨rfl, -⟩ | ⟨⟨-, rfl⟩, -⟩
      · exact ih
      · split
        · exact ih.mono (fun q hq => by rwa [taken_setRemainLength] at hq) (usedLength_setRemainLength f 0)
        · exact ih
  | @append f f' k it p _ hs hend hrun ih =>
    by_cases hroom : it.aligned < remainLength f
    · obtain ⟨p', g, hrun', happ⟩ := @appendRound_spec f it k hs hroom ih hend
      obtain ⟨-, rfl⟩ := Prod.mk.inj (hrun.symm.trans hrun')
      exact ih.appended hs hend happ
    · rw [appendRound_of_le k (Nat.le_of_not_lt hroom)] at hrun
      cases hrun
  | @free f f' off ret _ hrun ih =>
    by_cases hvalid : itemValid f off = true
    · obtain ⟨g, hrun', ht, hu, -⟩ := changeFreeRound_valid hvalid
      obtain ⟨-, rfl⟩ := Prod.mk.inj (hrun.symm.trans hrun')
      refine ih.mono (fun q hq => ?_) hu
      rw [ht] at hq
      split at hq
      · cases hq
      · exact hq
    · rw [changeFreeRound, if_neg hvalid] at hrun
      obtain ⟨-, rfl⟩ := Prod.mk.inj hrun
      exact ih
  | items _ hsame ih =>
    obtain ⟨ht, -, hu⟩ := congr_header hsame
    exact ih.mono (fun q hq => by rwa [ht] at hq) hu

/-! ## What is freed -/

/-- What lies at `off` passes for an item whose pages were all free and cover `n` pages from `p` on, and is credited
with `size` bytes. -/
structure Credits (used : Nat → Bool) (f : Bytes) (off p n size : Nat) : Prop where
  behind : sizeofDbTableHeader < off
  valid : itemValid f off = true
  size : alignedSize (itemLengthField f off) * ipcDatafileAligned % 2 ^ 32 = size
  first : pageno (off - sizeofDbTableHeader) ≤ p
  last : p + n ≤ pageno (off - sizeofDbTableHeader) + alignedSize (itemLengthField f off) / ipcDatafileAligned
  free : FreeRun used (pageno (off - sizeofDbTableHeader)) (alignedSize (itemLengthField f off) / ipcDatafileAligned)

/-- The node of an item behind the last one refers to a place before it, where something passes for an item of the right
size whose pages end behind the new one's. -/
def Impostor (f : Bytes) (it : Item) : Prop :=
  2 ^ 24 ≤ usedLength f ∧
    Credits (taken f) f (usedLength f % 2 ^ 24) (pageno (usedLength f)) it.pages it.aligned

section Freeing

variable {b : Build} {files files' : Datafiles} {f f' : Bytes} {it : Item} {k p n size off : Nat}

/-- The file of the node after it was freed. -/
theorem changeFree_file {node : NodeKey} (hk : node.dataField.toNat = k) (hmax : k < ipcDatafileMax b)
    (hf : files k = some f) : (changeFreeToDatafile b node files).2 k =
      some (if sizeofDbTableHeader < node.dataOffset.toNat then (changeFreeRound f node.dataOffset.toNat).2
        else f) := by
  have hlt : node.dataOffset.toNat < ipcDatafileTtlsize := Nat.lt_trans node.dataOffset.isLt (by decide)
  unfold changeFreeToDatafile
  simp only [hk, if_neg (Nat.not_le.mpr hmax), if_neg (Nat.not_le.mpr hlt)]
  by_cases hoff : sizeofDbTableHeader < node.dataOffset.toNat
  · simp only [if_neg (Nat.not_le.mpr hoff), if_pos hoff, hf, Function.update_self]
  · simp only [if_pos (Nat.le_of_not_lt hoff), if_neg hoff, hf]

/-- Freeing at `off` restores the header exactly if what lies there stands for all that was taken. -/
theorem restored_header_iff (hn : 0 < n) (hfree : FreeRun (taken f) p n) (hsize : size < remainLength f)
    (hsmall : size < 2 ^ 32) (hpos : 0 < size)
    (ht : ∀ q, taken f' q = if p ≤ q ∧ q < p + n then true else taken f q)
    (hr : remainLength f' = remainLength f - size) :
    (taken (if sizeofDbTableHeader < off then (changeFreeRound f' off).2 else f') = taken f ∧
      remainLength (if sizeofDbTableHeader < off then (changeFreeRound f' off).2 else f') = remainLength f) ↔
      Credits (taken f) f' off p n size := by
  have hlt := remainLength_lt f
  by_cases hoff : sizeofDbTableHeader < off
  · rw [if_pos hoff]
    by_cases hvalid : itemValid f' off = true
    · obtain ⟨g, hrun, htaken, -, hremain⟩ := changeFreeRound_valid hvalid
      rw [hrun]
      have hbits := @restored_iff (taken f) n p (pageno (off - sizeofDbTableHeader))
        (alignedSize (itemLengthField f' off) / ipcDatafileAligned) hn hfree
      have hg : taken g = taken f ↔ _ := (funext_iff.trans (forall_congr' fun q => by rw [htaken, ht])).trans hbits
      have hmod := Nat.mod_lt (alignedSize (itemLengthField f' off) * ipcDatafileAligned) (show 0 < 2 ^ 32 by decide)
      have hsum : remainLength g = remainLength f ↔
          alignedSize (itemLengthField f' off) * ipcDatafileAligned % 2 ^ 32 = size := by
        rw [hremain, hr]
        generalize alignedSize (itemLengthField f' off) * ipcDatafileAligned % 2 ^ 32 = x at hmod ⊢
        omega
      rw [hg, hsum]
      constructor
      · rintro ⟨⟨h1, h2, h3⟩, h4⟩
        exact ⟨hoff, hvalid, h4, h1, h2, h3⟩
      · intro h
        exact ⟨⟨h.first, h.last, h.free⟩, h.size⟩
    · rw [changeFreeRound, if_neg hvalid]
      refine iff_of_false (fun h => ?_) fun h => hvalid h.valid
      have hrest : remainLength f' = remainLength f := h.2
      omega
  · rw [if_neg hoff]
    refine iff_of_false (fun h => ?_) fun h => hoff h.behind
    have hrest : remainLength f' = remainLength f := h.2
    omega

/-- The file that takes the item, before and after. -/
theorem tryFiles_taker {round : Nat → Bytes → Item → Option Placement × Bytes} {r : Placement}
    (hround : ∀ n f, (round n f it).1 = some r → r.field = n)
    (h : tryFiles round it (distid b it) files = (some r, files')) : ∃ f f', r.field < ipcDatafileMax b ∧
      files r.field = some f ∧ round r.field f it = (some r, f') ∧ files' r.field = some f' := by
  obtain ⟨r', g, hrun, -, hcase⟩ := @tryFiles_spec round it (distid b it) files (nodup_distid b it)
  obtain ⟨rfl, rfl⟩ := Prod.mk.inj (h.symm.trans hrun)
  rcases hcase with ⟨n, f, q, f', hn, hf, hq, hr, hf', -⟩ | ⟨hr, -⟩
  · obtain rfl := Option.some.inj hr
    obtain rfl := hround n f (congrArg Prod.fst hq)
    exact ⟨f, f', mem_distid.mp hn, hf, hq, hf'⟩
  · cases hr

/-- A node at a page of a file, decoded. -/
theorem undone_file {r : Placement} {hashedid : BitVec 32} (hmax : r.field < ipcDatafileMax b)
    (hf : files r.field = some f) (hf' : files' r.field = some f') :
    Undone files (changeFreeToDatafile b (r.resultnode hashedid) files').2 r.field ↔
      taken (if sizeofDbTableHeader < r.offset % 2 ^ 24 then (changeFreeRound f' (r.offset % 2 ^ 24)).2 else f') =
        taken f ∧
      remainLength (if sizeofDbTableHeader < r.offset % 2 ^ 24 then (changeFreeRound f' (r.offset % 2 ^ 24)).2
        else f') =
        remainLength f := by
  have hoff : (r.resultnode hashedid).dataOffset.toNat = r.offset % 2 ^ 24 := BitVec.toNat_ofNat ..
  have hfile := changeFree_file (@toNat_dataField b hashedid r hmax) hmax hf'
  rw [hoff] at hfile
  constructor
  · rintro ⟨g, g', hg, hg', ht, hr⟩
    obtain rfl := Option.some.inj (hf.symm.trans hg)
    obtain rfl := Option.some.inj (hfile.symm.trans hg')
    exact ⟨ht, hr⟩
  · rintro ⟨ht, hr⟩
    exact ⟨f, _, hf, hfile, ht, hr⟩

/-- The credit for an item is not its size. -/
theorem Item.Short.credit_ne (hs : it.Short) (hpages : it.pages ≤ bitmapPages) :
    it.aligned * ipcDatafileAligned % 2 ^ 32 ≠ it.aligned := by
  obtain ⟨ha, -, -, hpos⟩ := hs.aligned_eq
  rw [ha]
  simp only [bitmapPages, ipcDatafileTtlsize, ipcDatafileAligned] at hpages ⊢
  omega

theorem freepage_not_undone (hs : it.Short) {r : Placement} (hashedid : BitVec 32)
    (hrun : insertToDatafileAtFreepage b it files = (some r, files')) :
    ¬ Undone files (changeFreeToDatafile b (r.resultnode hashedid) files').2 r.field := by
  obtain ⟨f, f', hmax, hf, hround, hf'⟩ := tryFiles_taker (fun n f h => (freepageRound_head h).1) hrun
  obtain ⟨page, hoff, hplaced⟩ : ∃ page, r.offset = pageOffset page ∧ Placed f f' page it := by
    rcases freepageRound_spec r.field f hs with ⟨page, g, writes, hround', hplaced, -⟩ | ⟨g, hround', -⟩
    · obtain ⟨hr, rfl⟩ := Prod.mk.inj (hround.symm.trans hround')
      exact ⟨page, congrArg Placement.offset (Option.some.inj hr), hplaced⟩
    · cases (Prod.mk.inj (hround.symm.trans hround')).1
  obtain ⟨ha, -, -, hpos⟩ := hs.aligned_eq
  obtain ⟨hpage, hend, hfree, hleast⟩ := hplaced.first
  simp only [ipcDatafilePagecnt, ipcDatafileTtlsize, sizeofDbTableHeader, ipcDatafileAligned] at hend ha
  rw [undone_file hmax hf hf', hoff, restored_header_iff hpos hfree hplaced.room (by omega) (by omega) hplaced.taken
    hplaced.remain]
  intro hcredits
  rcases Nat.lt_or_ge (pageOffset page) (2 ^ 24) with hlt | hge
  · have hsize := hcredits.size
    rw [Nat.mod_eq_of_lt hlt, hplaced.holds.length] at hsize
    exact hs.credit_ne (by simp only [bitmapPages, ipcDatafileTtlsize, ipcDatafileAligned]; omega) hsize
  · -- what is freed begins on an earlier page, where no run was free
    obtain ⟨hbehind, -, -, -, hlast, hfree'⟩ := hcredits
    have hpo : pageOffset page = 131200 + 128 * page := rfl
    have hstart : pageno (pageOffset page % 2 ^ 24 - sizeofDbTableHeader) =
        (pageOffset page % 2 ^ 24 - 131200) / 128 := if_pos (by
      simp only [sizeofDbTableHeader, ipcDatafileAligned] at hbehind ⊢
      omega)
    simp only [sizeofDbTableHeader] at hbehind hstart hlast hfree'
    refine hleast _ ?_ ?_ fun q h1 h2 => hfree' q h1 ?_
    all_goals omega

/-- The fields of an item before the appended one. -/
theorem Appended.item_eq (h : Appended f f' it) (hoff : sizeofDbTableHeader < off)
    (hend : off + sizeofDataitm ≤ usedLength f) :
    itemValid f' off = itemValid f off ∧ itemLengthField f' off = itemLengthField f off := by
  simp only [sizeofDbTableHeader] at hoff
  simp only [sizeofDataitm] at hend
  have hword : ∀ i, i + 4 ≤ 24 → word f' (off + i) 4 = word f (off + i) 4 := fun i hi =>
    word_congr fun j h1 h2 => h.others j (by simp only [sizeofDbTableHeader]; omega) (by omega)
  have h0 : word f' off 4 = word f off 4 := hword 0 (by decide)
  have h4 := hword 4 (by decide)
  have h16 := hword 16 (by decide)
  have h20 := hword 20 (by decide)
  constructor
  · simp only [itemValid, itemSignature, itemKeylen, itemVallen, itemLengthField, h0, h4, h16, h20]
  · exact h4

/-- The appended item itself is not credited with its size. -/
theorem Appended.credits_iff (h : Appended f f' it) (hs : it.Short)
    (hend : usedLength f + it.aligned ≤ ipcDatafileTtlsize) :
    Credits (Smmr.taken f) f' (usedLength f % 2 ^ 24) (pageno (usedLength f)) it.pages it.aligned ↔ Impostor f it := by
  rw [Impostor]
  rcases Nat.lt_or_ge (usedLength f) (2 ^ 24) with hlt | hge
  · refine iff_of_false (fun hcredits => ?_) fun hi => Nat.not_le.mpr hlt hi.1
    have hsize := hcredits.size
    rw [Nat.mod_eq_of_lt hlt, h.holds.length] at hsize
    refine hs.credit_ne ?_ hsize
    have ha := hs.aligned_eq.1
    simp only [bitmapPages, ipcDatafileTtlsize, ipcDatafileAligned] at hend ha ⊢
    omega
  · rw [and_iff_right hge]
    have hfar : usedLength f % 2 ^ 24 + sizeofDataitm ≤ usedLength f := by
      simp only [sizeofDataitm]
      omega
    constructor
    · rintro ⟨h1, h2, h3, h4, h5, h6⟩
      obtain ⟨hvalid, hlength⟩ := h.item_eq h1 hfar
      rw [hvalid] at h2
      rw [hlength] at h3 h5 h6
      exact ⟨h1, h2, h3, h4, h5, h6⟩
    · rintro ⟨h1, h2, h3, h4, h5, h6⟩
      obtain ⟨hvalid, hlength⟩ := h.item_eq h1 hfar
      rw [← hvalid] at h2
      rw [← hlength] at h3 h5 h6
      exact ⟨h1, h2, h3, h4, h5, h6⟩

theorem append_undone_iff (hset : ∀ k f, files k = some f → Settled f) (hs : it.Short) {r : Placement}
    (hashedid : BitVec 32) (hrun : insertToDatafile b it files = (some r, files'))
    (hend : r.offset + it.aligned ≤ ipcDatafileTtlsize) :
    Undone files (changeFreeToDatafile b (r.resultnode hashedid) files').2 r.field ↔
      ∃ f, files r.field = some f ∧ Impostor f it := by
  obtain ⟨f, f', hmax, hf, hround, hf'⟩ := tryFiles_taker (fun n f h => (appendRound_head h).2.1) hrun
  obtain ⟨hroom, -, hoff, -⟩ := appendRound_head (congrArg Prod.fst hround)
  have hsettled := hset _ f hf
  have hle := hsettled.le
  have hwhole := hsettled.pageno_eq
  obtain ⟨ha, -, -, hpos⟩ := hs.aligned_eq
  simp only [ipcDatafileTtlsize, ipcDatafileAligned] at hle ha hwhole
  rw [Nat.mod_eq_of_lt (by omega)] at hoff
  rw [hoff] at hend
  obtain ⟨r', g, hround', happ⟩ := @appendRound_spec f it r.field hs hroom hsettled hend
  obtain ⟨-, rfl⟩ := Prod.mk.inj (hround.symm.trans hround')
  simp only [ipcDatafileTtlsize] at hend
  have hfree : FreeRun (taken f) (pageno (usedLength f)) it.pages := by
    intro q h1 _
    rw [← Bool.not_eq_true]
    exact fun hq => absurd (hsettled.below q hq) (Nat.not_lt.mpr h1)
  rw [undone_file hmax hf hf', hoff, restored_header_iff hpos hfree hroom (by omega) (by omega) happ.taken happ.remain,
    happ.credits_iff hs hend]
  constructor
  · intro himp
    exact ⟨f, hf, himp⟩
  · rintro ⟨g, hg, himp⟩
    obtain rfl := Option.some.inj (hf.symm.trans hg)
    exact himp

/-- Freeing what was just put on free pages never restores the header. Freeing what was just appended within the file
does exactly if the node refers to something else that stands for as much. -/
theorem undone_iff (b : Build) (files : Datafiles) (hreach : ∀ k f, files k = some f → Reached f) {it : Item}
    (hs : it.Short) (hashedid : BitVec 32) :
    (∀ r files', insertToDatafileAtFreepage b it files = (some r, files') →
      ¬ Undone files (changeFreeToDatafile b (r.resultnode hashedid) files').2 r.field) ∧
    ∀ r files', insertToDatafile b it files = (some r, files') → r.offset + it.aligned ≤ ipcDatafileTtlsize →
      (Undone files (changeFreeToDatafile b (r.resultnode hashedid) files').2 r.field ↔
        ∃ f, files r.field = some f ∧ Impostor f it) :=
  ⟨fun _ _ hrun => freepage_not_undone hs hashedid hrun,
    fun _ _ hrun hend => append_undone_iff (fun k f hf => (hreach k f hf).settled) hs hashedid hrun hend⟩

theorem oneFile_reached : ∀ k f, oneFile k = some f → Reached f := by
  intro k f hf
  unfold oneFile at hf
  split at hf
  · obtain rfl := Option.some.inj hf
    exact Reached.init
  · cases hf

theorem oneFile_takes : ∃ r files', insertToDatafileAtFreepage .test Space.small oneFile = (some r, files') := by
  have hs : Space.small.Short := short_iff.mpr ⟨by decide, by decide⟩
  have hfits : Fits oneFile Space.small 0 := by
    refine ⟨initDatafile, rfl, ?_, 1, Nat.le_refl _, by decide, ?_⟩
    · rw [fillsTo_initDatafile.room hs]
      decide
    · exact fillsTo_initDatafile.freeRun _
  obtain ⟨r, hr⟩ := Option.isSome_iff_exists.mp
    ((@insertToDatafileAtFreepage_isSome .test oneFile _ hs).mpr ⟨0, by decide, hfits⟩)
  exact ⟨r, _, Prod.ext hr rfl⟩

/-- Of an item of one page. -/
theorem undone_iff_small : ∃ r files', insertToDatafileAtFreepage .test Space.small oneFile = (some r, files') ∧
    ¬ Undone oneFile (changeFreeToDatafile .test (r.resultnode 0) files').2 r.field := by
  obtain ⟨r, files', hrun⟩ := oneFile_takes
  exact ⟨r, files', hrun, (undone_iff .test oneFile oneFile_reached (short_iff.mpr ⟨by decide, by decide⟩) 0).1 r files'
    hrun⟩

/-- An item of one page is put in a file that was just made and freed again: the header differs. -/
theorem small_not_undone : (∀ k f, oneFile k = some f → Reached f) ∧ ∃ r files',
    insertToDatafileAtFreepage .test Space.small oneFile = (some r, files') ∧
      ¬ Undone oneFile (changeFreeToDatafile .test (r.resultnode 0) files').2 r.field := by
  obtain ⟨r, files', hrun⟩ := oneFile_takes
  exact ⟨oneFile_reached, r, files', hrun, freepage_not_undone (short_iff.mpr ⟨by decide, by decide⟩) 0 hrun⟩

end Freeing

end NetworkBfd.Smmr
