import NetworkBfd.Lib.PageMap
import NetworkBfd.Smmr.Datafile
import Mathlib.Data.List.Nodup
import Mathlib.Data.Nat.ModEq

/-!
# One file at a time

What the rounds do to a file (`freepageRound_spec`, `appendRound_of_le`, `changeFreeRound_spec`), in terms of the pages
that are taken (`taken`), `remain_length` and the items it holds (`HoldsItem`). The items are those whose length does
not wrap (`Item.Short`).
-/

namespace NetworkBfd.Smmr

open Lib Lib.Bytes

/-- The number of bits in `bitmap`. -/
abbrev bitmapPages : Nat := ipcDatafileTtlsize / ipcDatafileAligned

/-- The pages that the bitmap marks. -/
def taken (f : Bytes) (page : Nat) : Bool := decide (page < bitmapPages) && pageBit f page

/-- The first byte of a page. -/
def pageOffset (page : Nat) : Nat := sizeofDbTableHeader + ipcDatafileAligned * page

/-! ## Fields of the header -/

section Fields

variable (f : Bytes) (v p n q : Nat) (b : Bool)

@[simp] theorem remainLength_setRemainLength : remainLength (setRemainLength f v) = v % 2 ^ 64 :=
  word_putWord_self f 40 8 v

@[simp] theorem usedLength_setUsedLength : usedLength (setUsedLength f v) = v % 2 ^ 64 :=
  word_putWord_self f 16 8 v

@[simp] theorem remainLength_setUsedLength : remainLength (setUsedLength f v) = remainLength f :=
  word_putWord_of_disjoint (.inr (by decide))

@[simp] theorem usedLength_setRemainLength : usedLength (setRemainLength f v) = usedLength f :=
  word_putWord_of_disjoint (.inl (by decide))

theorem remainLength_lt : remainLength f < 2 ^ 64 := word_lt f 40 8

@[simp] theorem pageBit_setRemainLength : pageBit (setRemainLength f v) q = pageBit f q :=
  bit_congr (putWord_of_outside (.inr (by omega)))

@[simp] theorem pageBit_setUsedLength : pageBit (setUsedLength f v) q = pageBit f q :=
  bit_congr (putWord_of_outside (.inr (by omega)))

@[simp] theorem remainLength_setPages : remainLength (setPages f p n b) = remainLength f :=
  word_congr fun _ _ _ => setBits_of_outside b n f p (.inl (by omega))

@[simp] theorem usedLength_setPages : usedLength (setPages f p n b) = usedLength f :=
  word_congr fun _ _ _ => setBits_of_outside b n f p (.inl (by omega))

theorem pageBit_setPages : pageBit (setPages f p n b) q = if p ≤ q ∧ q < p + n then b else pageBit f q :=
  bit_setBits 128 q b n f p

@[simp] theorem taken_setRemainLength : taken (setRemainLength f v) = taken f := by
  funext q
  rw [taken, taken, pageBit_setRemainLength]

@[simp] theorem taken_setUsedLength : taken (setUsedLength f v) = taken f := by
  funext q
  rw [taken, taken, pageBit_setUsedLength]

theorem taken_setPages (h : p + n ≤ bitmapPages) :
    taken (setPages f p n b) q = if p ≤ q ∧ q < p + n then b else taken f q := by
  rw [taken, taken, pageBit_setPages]
  split
  · rename_i hq
    rw [decide_eq_true (Nat.lt_of_lt_of_le hq.2 h), Bool.true_and]
  · rfl

end Fields

/-- What lies behind the header decides neither pages nor lengths. -/
theorem congr_header {f f' : Bytes} (h : ∀ i, i < sizeofDbTableHeader → f' i = f i) :
    taken f' = taken f ∧ remainLength f' = remainLength f ∧ usedLength f' = usedLength f := by
  simp only [sizeofDbTableHeader] at h
  refine ⟨funext fun q => ?_, word_congr fun i _ _ => h i (by omega), word_congr fun i _ _ => h i (by omega)⟩
  unfold taken
  by_cases hq : q < bitmapPages
  · simp only [bitmapPages, ipcDatafileTtlsize, ipcDatafileAligned] at hq
    rw [pageBit, bit_congr (h _ (by omega))]
    rfl
  · rw [decide_eq_false hq, Bool.false_and, Bool.false_and]

/-! ## Items -/

/-- Without a wrap, a length is rounded up to whole pages. -/
theorem alignedSize_eq {length : Nat} (h : length ≤ 2 ^ 32 - ipcDatafileAligned) :
    alignedSize length = ipcDatafileAligned * ((length + 127) / ipcDatafileAligned) := by
  unfold alignedSize
  simp only [ipcDatafileAligned] at h ⊢
  split <;> omega

namespace Item

/-- The length does not wrap, and neither does the length in whole pages. -/
def Short (it : Item) : Prop := it.key.length + it.val.length + sizeofDataitm ≤ 2 ^ 32 - ipcDatafileAligned

/-- The pages of an item. -/
def pages (it : Item) : Nat := it.aligned / ipcDatafileAligned

/-- The bytes of an item. -/
def bytes (it : Item) : List Byte := it.header ++ it.key ++ it.val

variable {it : Item}

@[simp] theorem length_header (it : Item) : it.header.length = sizeofDataitm := by simp [header]

theorem length_bytes (it : Item) : it.bytes.length = sizeofDataitm + it.key.length + it.val.length := by
  rw [bytes, List.length_append, List.length_append, length_header]

theorem Short.length_eq (h : it.Short) : it.length = sizeofDataitm + it.key.length + it.val.length := by
  simp only [Short, length, itemLength, sizeofDataitm, ipcDatafileAligned] at h ⊢
  omega

theorem Short.aligned_eq (h : it.Short) :
    it.aligned = ipcDatafileAligned * it.pages ∧ it.length ≤ it.aligned ∧ it.aligned < it.length + ipcDatafileAligned ∧
      0 < it.pages := by
  have hl := h.length_eq
  have ha : it.aligned = _ := @alignedSize_eq it.length (by rw [hl]; unfold Short at h; omega)
  rw [pages, ha]
  simp only [sizeofDataitm, ipcDatafileAligned] at hl ⊢
  omega

end Item

/-- The item at `off` is `it`. -/
structure HoldsItem (f : Bytes) (off : Nat) (it : Item) : Prop where
  signature : itemSignature f off = dataitemSignatureId
  length : itemLengthField f off = it.length
  expire : itemExpire f off = it.expire
  keylen : itemKeylen f off = it.key.length
  vallen : itemVallen f off = it.val.length
  key : read f (off + sizeofDataitm) it.key.length = it.key
  val : read f (off + sizeofDataitm + it.key.length) it.val.length = it.val

theorem HoldsItem.congr {f f' : Bytes} {off : Nat} {it : Item} (h : HoldsItem f off it)
    (hsame : ∀ i, off ≤ i → i < off + it.bytes.length → f' i = f i) : HoldsItem f' off it := by
  rw [it.length_bytes] at hsame
  simp only [sizeofDataitm] at hsame
  obtain ⟨h1, h2, h3, h4, h5, h6, h7⟩ := h
  simp only [sizeofDataitm] at h6 h7
  refine ⟨?_, ?_, ?_, ?_, ?_, ?_, ?_⟩
  · rw [← h1]
    exact word_congr fun i _ _ => hsame i (by omega) (by omega)
  · rw [← h2]
    exact word_congr fun i _ _ => hsame i (by omega) (by omega)
  · rw [← h3]
    exact congrArg _ (word_congr fun i _ _ => hsame i (by omega) (by omega))
  · rw [← h4]
    exact word_congr fun i _ _ => hsame i (by omega) (by omega)
  · rw [← h5]
    exact word_congr fun i _ _ => hsame i (by omega) (by omega)
  · simp only [sizeofDataitm]
    exact (read_congr fun i _ _ => hsame i (by omega) (by omega)).trans h6
  · simp only [sizeofDataitm]
    exact (read_congr fun i _ _ => hsame i (by omega) (by omega)).trans h7

/-- The item that is written is there. -/
theorem holdsItem_write (f : Bytes) (off : Nat) (it : Item) : HoldsItem (write f off it.bytes) off it := by
  have h := read_write_self f off it.bytes
  have hlen : it.length < 256 ^ 4 := by
    unfold Item.length itemLength
    exact Nat.mod_lt _ (by decide)
  have hk := it.keylen_lt
  have hv := it.vallen_lt
  have hx : it.expire.toNat < 256 ^ 4 := it.expire.isLt
  rw [it.length_bytes, show sizeofDataitm + it.key.length + it.val.length =
    4 + 4 + 4 + 4 + 4 + 4 + it.key.length + it.val.length from rfl] at h
  generalize write f off it.bytes = f' at h ⊢
  simp only [read_append, Item.bytes, Item.header] at h
  obtain ⟨h, hval⟩ := List.append_inj h (by simp)
  obtain ⟨h, hkey⟩ := List.append_inj h (by simp)
  obtain ⟨h, hvallen⟩ := List.append_inj h (by simp)
  obtain ⟨h, hkeylen⟩ := List.append_inj h (by simp)
  obtain ⟨h, hexpire⟩ := List.append_inj h (by simp)
  obtain ⟨h, -⟩ := List.append_inj h (by simp)
  obtain ⟨hsignature, hlength⟩ := List.append_inj h (by simp)
  refine ⟨?_, ?_, ?_, ?_, ?_, ?_, ?_⟩
  · rw [itemSignature, word, hsignature, ofBytes_toBytes]
    rfl
  · rw [itemLengthField, word, hlength, ofBytes_toBytes]
    exact Nat.mod_eq_of_lt hlen
  · rw [itemExpire, word, hexpire, ofBytes_toBytes, Nat.mod_eq_of_lt hx, BitVec.ofNat_toNat, BitVec.setWidth_eq]
  · rw [itemKeylen, word, hkeylen, ofBytes_toBytes]
    exact Nat.mod_eq_of_lt hk
  · rw [itemVallen, word, hvallen, ofBytes_toBytes]
    exact Nat.mod_eq_of_lt hv
  · exact hkey
  · rw [Nat.add_assoc]
    exact hval

theorem HoldsItem.valid {f : Bytes} {off : Nat} {it : Item} (h : HoldsItem f off it) (hs : it.Short) :
    itemValid f off = true := by
  have hl := hs.length_eq
  simp only [Item.Short, sizeofDataitm, ipcDatafileAligned] at hs hl
  simp only [itemValid, h.signature, h.keylen, h.vallen, h.length, hl, beq_self_eq_true, Bool.true_and, sizeofDataitm,
    beq_iff_eq]
  omega

/-! ## Placing an item -/

/-- The copies of an item whose end does not wrap are one string. -/
theorem copyItem_eq {f : Bytes} {off w : Nat} {it : Item} (hs : it.Short) (hoff : off + it.aligned < 2 ^ w) :
    copyItem f off w it = (write f off it.bytes, [(off, sizeofDataitm), (off + sizeofDataitm, it.key.length),
      (off + sizeofDataitm + it.key.length, it.val.length)], off + it.aligned) := by
  have hl := hs.length_eq
  obtain ⟨-, hle, hlt, -⟩ := hs.aligned_eq
  simp only [sizeofDataitm, ipcDatafileAligned] at hl hlt
  have h₁ : (off + 24) % 2 ^ w = off + 24 := Nat.mod_eq_of_lt (by omega)
  have h₂ : (off + 24 + it.key.length) % 2 ^ w = off + 24 + it.key.length := Nat.mod_eq_of_lt (by omega)
  have h₃ : (off + 24 + it.key.length + it.val.length) % 2 ^ w = off + 24 + it.key.length + it.val.length :=
    Nat.mod_eq_of_lt (by omega)
  have hr : (it.aligned + 2 ^ 32 - it.length) % 2 ^ 32 = it.aligned - it.length := by omega
  have h₄ : (off + 24 + it.key.length + it.val.length + (it.aligned - it.length)) % 2 ^ w = off + it.aligned := by
    rw [Nat.mod_eq_of_lt (by omega)]
    omega
  simp only [copyItem, sizeofDataitm, h₁, h₂, h₃, hr, h₄]
  have hw₁ : write (write f off it.header) (off + 24) it.key = write f off (it.header ++ it.key) := by
    rw [← write_write, it.length_header]
  have hw₂ : write (write f off (it.header ++ it.key)) (off + 24 + it.key.length) it.val = write f off it.bytes := by
    rw [Item.bytes, ← write_write _ _ (it.header ++ it.key), List.length_append, it.length_header, Nat.add_assoc]
  rw [hw₁, hw₂]

/-- `f'` is `f` with `it` on the free pages from `p` on. -/
structure Placed (f f' : Bytes) (p : Nat) (it : Item) : Prop where
  room : it.aligned < remainLength f
  first : IsFirstRun (taken f) it.pages (ipcDatafilePagecnt - 1) (some p)
  taken : ∀ q, taken f' q = if p ≤ q ∧ q < p + it.pages then true else taken f q
  remain : remainLength f' = remainLength f - it.aligned
  used : usedLength f' = max (usedLength f) (pageOffset p + it.aligned)
  holds : HoldsItem f' (pageOffset p) it
  others : ∀ i, sizeofDbTableHeader ≤ i → (i < pageOffset p ∨ pageOffset p + it.bytes.length ≤ i) → f' i = f i

theorem findFree_eq (f : Bytes) (n : Nat) : ∀ steps m run : Nat,
    findFree f n steps m run = (firstRun (pageBit f) n steps m run).map (· * ipcDatafileAligned)
  | 0, _, _ => rfl
  | steps + 1, m, run => by
    rw [findFree, firstRun]
    split
    · exact findFree_eq f n steps (m + 1) 0
    · split
      · rfl
      · exact findFree_eq f n steps (m + 1) (run + 1)

/-- The search looks at pages of the bitmap only. -/
theorem firstRun_taken (f : Bytes) (n : Nat) : ∀ steps m run : Nat, m + steps < bitmapPages →
    firstRun (pageBit f) n steps m run = firstRun (taken f) n steps m run
  | 0, _, _, _ => rfl
  | steps + 1, m, run, h => by
    have hbit : taken f (m + 1) = pageBit f (m + 1) := by
      rw [taken, decide_eq_true (by omega), Bool.true_and]
    rw [firstRun, firstRun, hbit, firstRun_taken f n steps (m + 1) 0 (by omega),
      firstRun_taken f n steps (m + 1) (run + 1) (by omega)]

theorem pageno_mul (p : Nat) : pageno (p * ipcDatafileAligned) = p := by
  rw [pageno, if_pos (Nat.mul_mod_left ..)]
  exact Nat.mul_div_cancel _ (by decide)

theorem takeRemain_of_lt {f : Bytes} {n : Nat} (h : n < remainLength f) :
    takeRemain f n = setRemainLength f (remainLength f - n) := if_pos h

/-- The header after a round that placed an item, and the item. -/
theorem placed_of_run {f : Bytes} {p : Nat} {it : Item} (hs : it.Short) (hroom : it.aligned < remainLength f)
    (hfirst : IsFirstRun (taken f) it.pages (ipcDatafilePagecnt - 1) (some p)) {g : Bytes}
    (hg : write (setPages f p it.pages true) (pageOffset p) it.bytes = g) :
    Placed f (takeRemain (if usedLength g < pageOffset p + it.aligned then
      setUsedLength g (pageOffset p + it.aligned) else g) it.aligned) p it := by
  obtain ⟨hp, hend, -, -⟩ := id hfirst
  obtain ⟨ha, hle, hlt, hpos⟩ := hs.aligned_eq
  have hl := hs.length_eq
  have hb := it.length_bytes
  simp only [ipcDatafilePagecnt, ipcDatafileTtlsize, ipcDatafileAligned, sizeofDbTableHeader] at hend ha hlt
  simp only [sizeofDataitm] at hl hb
  have hoff : pageOffset p = 131200 + 128 * p := rfl
  obtain ⟨ht, hr, hu⟩ := @congr_header (setPages f p it.pages true) g fun i hi => by
    rw [← hg]
    exact write_of_outside (.inl (by simp only [sizeofDbTableHeader] at hi; omega))
  rw [remainLength_setPages] at hr
  rw [usedLength_setPages] at hu
  -- `used_length` and `remain_length` are written last, and neither touches the rest
  generalize hg' : (if usedLength g < pageOffset p + it.aligned then setUsedLength g (pageOffset p + it.aligned)
    else g) = g'
  have htaken : taken g' = taken g := by
    rw [← hg']
    split <;> simp
  have hremain : remainLength g' = remainLength f := by
    rw [← hg', ← hr]
    split <;> simp
  have hroom' : it.aligned < remainLength g' := by
    rw [hremain]
    exact hroom
  have hused : usedLength g' = max (usedLength f) (pageOffset p + it.aligned) := by
    rw [← hg', ← hu]
    split
    · rw [usedLength_setUsedLength, Nat.mod_eq_of_lt (by omega)]
      omega
    · omega
  have hdata : ∀ i, 131200 ≤ i → g' i = g i := by
    intro i hi
    rw [← hg']
    split
    · exact putWord_of_outside (.inr (by omega))
    · rfl
  have hlast : ∀ i, 131200 ≤ i → takeRemain g' it.aligned i = g i := by
    intro i hi
    rw [takeRemain_of_lt hroom', ← hdata i hi]
    exact putWord_of_outside (.inr (by omega))
  refine ⟨hroom, hfirst, fun q => ?_, ?_, ?_, ?_, fun i hi hout => ?_⟩
  · rw [takeRemain_of_lt hroom', taken_setRemainLength, htaken, ht, taken_setPages]
    simp only [bitmapPages, ipcDatafileTtlsize, ipcDatafileAligned]
    omega
  · have := remainLength_lt f
    rw [takeRemain_of_lt hroom', remainLength_setRemainLength, hremain, Nat.mod_eq_of_lt (by omega)]
  · rw [takeRemain_of_lt hroom', usedLength_setRemainLength, hused]
  · refine (holdsItem_write (setPages f p it.pages true) (pageOffset p) it).congr fun i h1 _ => ?_
    rw [hlast i (by omega), hg]
  · simp only [sizeofDbTableHeader] at hi
    rw [hlast i hi, ← hg, write_of_outside hout]
    exact setBits_of_outside _ _ _ _ (.inr (by omega))

/-- A round on one file: it places the item in the first free run, or there is no room. -/
theorem freepageRound_spec (field : Nat) (f : Bytes) {it : Item} (hs : it.Short) :
    (∃ p f' writes, freepageRound field f it = (some ⟨field, pageOffset p, writes⟩, f') ∧ Placed f f' p it ∧
      ∀ w ∈ writes, pageOffset p ≤ w.1 ∧ w.1 + w.2 ≤ pageOffset p + it.aligned) ∨
    (∃ f', freepageRound field f it = (none, f') ∧
      (f' = f ∧ remainLength f ≤ it.aligned ∨
        (it.aligned < remainLength f ∧ f' = if it.pages = 1 then setRemainLength f 0 else f) ∧
          IsFirstRun (taken f) it.pages (ipcDatafilePagecnt - 1) none)) := by
  obtain ⟨ha, hle, hlt, hpos⟩ := hs.aligned_eq
  have hl := hs.length_eq
  unfold freepageRound
  by_cases hroom : remainLength f ≤ it.aligned
  · rw [if_pos hroom]
    exact .inr ⟨f, rfl, .inl ⟨rfl, hroom⟩⟩
  rw [if_neg hroom, show it.aligned / ipcDatafileAligned = it.pages from rfl, findFree_eq, firstRun_taken _ _ _ _ _ (by
    decide)]
  have hfirst := @firstRun_spec (taken f) it.pages hpos (ipcDatafilePagecnt - 1)
  cases hrun : firstRun (taken f) it.pages (ipcDatafilePagecnt - 1) 0 0 with
  | none =>
    rw [hrun] at hfirst
    exact .inr ⟨_, rfl, .inr ⟨⟨Nat.lt_of_not_le hroom, rfl⟩, hfirst⟩⟩
  | some p =>
    rw [hrun] at hfirst
    have hplaced := placed_of_run hs (Nat.lt_of_not_le hroom) hfirst rfl
    obtain ⟨hp, hend, -, -⟩ := id hfirst
    simp only [ipcDatafilePagecnt, ipcDatafileTtlsize, ipcDatafileAligned, sizeofDbTableHeader] at hend ha hlt
    simp only [sizeofDataitm] at hl
    have hoff : (p * 128 + 131200) % 2 ^ 32 = pageOffset p := by
      simp only [pageOffset, sizeofDbTableHeader, ipcDatafileAligned]
      omega
    have hoff' : pageOffset p = 131200 + 128 * p := rfl
    have hpage : pageno (p * 128) = p := pageno_mul p
    have hdelta : (pageOffset p + it.aligned + 2 ^ 32 - pageOffset p) % 2 ^ 32 = it.aligned := by omega
    simp only [Option.map_some, hpage, hoff]
    rw [copyItem_eq hs (by omega)]
    simp only [hdelta]
    refine .inl ⟨p, _, _, rfl, hplaced, ?_⟩
    simp only [List.mem_cons, List.not_mem_nil, or_false, sizeofDataitm]
    rintro w (rfl | rfl | rfl) <;> dsimp only <;> omega

/-- The three copies of an item are of its header, its key and its value. -/
theorem freepageRound_writes {field : Nat} {f : Bytes} {it : Item} {p : Placement}
    (h : (freepageRound field f it).1 = some p) :
    p.writes.map Prod.snd = [sizeofDataitm, it.key.length, it.val.length] := by
  unfold freepageRound at h
  split at h
  · cases h
  · dsimp only at h
    split at h
    · cases h
    · obtain rfl := Option.some.inj h
      rfl

theorem appendRound_writes {field : Nat} {f : Bytes} {it : Item} {p : Placement}
    (h : (appendRound field f it).1 = some p) :
    p.writes.map Prod.snd = [sizeofDataitm, it.key.length, it.val.length] := by
  unfold appendRound at h
  split at h
  · obtain rfl := Option.some.inj h
    rfl
  · cases h

/-- Nothing is done to a file to which nothing is appended. -/
theorem appendRound_unplaced {field : Nat} {f : Bytes} {it : Item} (h : (appendRound field f it).1 = none) :
    appendRound field f it = (none, f) := by
  unfold appendRound at h ⊢
  split at h
  · cases h
  · rename_i hroom
    rw [if_neg hroom]

/-- Where not more remains than an item needs, nothing is appended. -/
theorem appendRound_of_le (field : Nat) {f : Bytes} {it : Item} (h : remainLength f ≤ it.aligned) :
    appendRound field f it = (none, f) := if_neg (Nat.not_lt.mpr h)

/-! ## Freeing the pages of an item -/

/-- `f'` is `f` without the pages of the item at page `p`. -/
structure Freed (f f' : Bytes) (p : Nat) (it : Item) : Prop where
  taken : ∀ q, taken f' q = if p ≤ q ∧ q < p + it.pages then false else taken f q
  others : ∀ i, sizeofDbTableHeader ≤ i → f' i = f i

theorem pageno_sub (p : Nat) : pageno (pageOffset p - sizeofDbTableHeader) = p := by
  rw [pageOffset, Nat.add_sub_cancel_left, Nat.mul_comm]
  exact pageno_mul p

theorem changeFreeRound_spec {f : Bytes} {p : Nat} {it : Item} (h : HoldsItem f (pageOffset p) it) (hs : it.Short)
    (hp : p + it.pages ≤ bitmapPages) :
    ∃ f', changeFreeRound f (pageOffset p) = (.ok, f') ∧ Freed f f' p it := by
  unfold changeFreeRound
  rw [if_pos (h.valid hs)]
  refine ⟨_, rfl, fun q => ?_, fun i hi => ?_⟩
  · rw [taken_setRemainLength, pageno_sub, h.length]
    exact taken_setPages _ _ _ _ _ hp
  · have hpages : alignedSize (itemLengthField f (pageOffset p)) / ipcDatafileAligned = it.pages := by
      rw [h.length]
      rfl
    simp only [sizeofDbTableHeader] at hi
    simp only [bitmapPages, ipcDatafileTtlsize, ipcDatafileAligned] at hp
    rw [setRemainLength, putWord_of_outside (.inr (by omega)), hpages, pageno_sub]
    exact setBits_of_outside _ _ _ _ (.inr (by omega))

/-! ## File after file -/

section TryFiles

variable {round : Nat → Bytes → Item → Option Placement × Bytes} {it : Item}

/-- A file that was passed over, or was not tried. -/
def PassedOver (round : Nat → Bytes → Item → Option Placement × Bytes) (it : Item) (k : Nat) (a a' : Option Bytes) :
    Prop :=
  a' = a ∨ ∃ f, a = some f ∧ (round k f it).1 = none ∧ a' = some (round k f it).2

/-- The first file whose round succeeds takes the item, or none does. -/
theorem tryFiles_spec : ∀ (ns : List Nat) (files : Datafiles), ns.Nodup → ∃ r files',
    tryFiles round it ns files = (r, files') ∧ (∀ k, k ∉ ns → files' k = files k) ∧
    ((∃ n f p f', n ∈ ns ∧ files n = some f ∧ round n f it = (some p, f') ∧ r = some p ∧ files' n = some f' ∧
        ∀ k, k ≠ n → PassedOver round it k (files k) (files' k)) ∨
      (r = none ∧ ∀ k ∈ ns, files' k = (files k).map (fun f => (round k f it).2) ∧
        ∀ f, files k = some f → (round k f it).1 = none))
  | [], files, _ => ⟨none, files, rfl, fun _ _ => rfl, .inr ⟨rfl, fun _ h => by cases h⟩⟩
  | n :: ns, files, hnd => by
    obtain ⟨hn, hnd⟩ := List.nodup_cons.mp hnd
    cases hf : files n with
    | none =>
      obtain ⟨r, files', hrun, hout, hcase⟩ := tryFiles_spec ns files hnd
      refine ⟨r, files', ?_, fun k hk => hout k fun h => hk (List.mem_cons_of_mem _ h), ?_⟩
      · simp only [tryFiles, hf, hrun]
      rcases hcase with ⟨k, f, p, f', hk, h⟩ | ⟨hr, hall⟩
      · exact .inl ⟨k, f, p, f', List.mem_cons_of_mem _ hk, h⟩
      · refine .inr ⟨hr, fun k hk => ?_⟩
        rcases List.mem_cons.mp hk with rfl | hk
        · rw [hout k hn, hf]
          exact ⟨rfl, fun f h => by cases h⟩
        · exact hall k hk
    | some f =>
      rcases hround : round n f it with ⟨_ | p, f'⟩
      · obtain ⟨r, files', hrun, hout, hcase⟩ := tryFiles_spec ns (Function.update files n (some f')) hnd
        have hfirst : files' n = some f' := (hout n hn).trans (Function.update_self ..)
        refine ⟨r, files', ?_, fun k hk => ?_, ?_⟩
        · simp only [tryFiles, hf, hround, hrun]
        · rw [List.mem_cons, not_or] at hk
          exact (hout k hk.2).trans (Function.update_of_ne hk.1 _ _)
        rcases hcase with ⟨k, g, p, g', hk, hg, hkr, hr, hg', hothers⟩ | ⟨hr, hall⟩
        · have hkn : k ≠ n := fun he => hn (he ▸ hk)
          rw [Function.update_of_ne hkn] at hg
          refine .inl ⟨k, g, p, g', List.mem_cons_of_mem _ hk, hg, hkr, hr, hg', fun j hj => ?_⟩
          by_cases hjn : j = n
          · subst hjn
            exact .inr ⟨f, hf, by rw [hround], by rw [hround, hfirst]⟩
          · have hpass := hothers j hj
            rwa [Function.update_of_ne hjn] at hpass
        · refine .inr ⟨hr, fun k hk => ?_⟩
          rcases List.mem_cons.mp hk with rfl | hk
          · rw [hfirst, hf, Option.map_some, hround]
            refine ⟨rfl, fun g hg => ?_⟩
            obtain rfl := Option.some.inj hg
            rw [hround]
          · have hkn : k ≠ n := fun he => hn (he ▸ hk)
            have hk := hall k hk
            rwa [Function.update_of_ne hkn] at hk
      · refine ⟨some p, Function.update files n (some f'), ?_, fun k hk => ?_,
          .inl ⟨n, f, p, f', List.mem_cons_self .., hf,
          hround, rfl, Function.update_self .., fun k hk => .inl (Function.update_of_ne hk _ _)⟩⟩
        · simp only [tryFiles, hf, hround]
        · rw [List.mem_cons, not_or] at hk
          exact Function.update_of_ne hk.1 _ _

/-- Every file is tried once. -/
theorem nodup_distid (b : Build) (it : Item) : (distid b it).Nodup := by
  refine List.Nodup.map_on (fun m hm n hn he => ?_) List.nodup_range
  rw [List.mem_range] at hm hn
  have hmod : m ≡ n [MOD ipcDatafileMax b] := Nat.ModEq.add_left_cancel' _ he
  exact hmod.eq_of_lt_of_lt hm hn

theorem mem_distid {b : Build} {it : Item} {k : Nat} : k ∈ distid b it ↔ k < ipcDatafileMax b := by
  have hpos : 0 < ipcDatafileMax b := by cases b <;> decide
  have hstart := Nat.mod_lt (safeHash it.key).toNat hpos
  unfold distid
  generalize (safeHash it.key).toNat % ipcDatafileMax b = start at hstart
  simp only [List.mem_map, List.mem_range]
  constructor
  · rintro ⟨n, -, rfl⟩
    exact Nat.mod_lt _ hpos
  · intro hk
    rcases Nat.lt_or_ge k start with hlt | hge
    · refine ⟨k + ipcDatafileMax b - start, by omega, ?_⟩
      rw [show start + (k + ipcDatafileMax b - start) = k + ipcDatafileMax b by omega, Nat.add_mod_right,
        Nat.mod_eq_of_lt hk]
    · refine ⟨k - start, by omega, ?_⟩
      rw [Nat.add_sub_cancel' hge, Nat.mod_eq_of_lt hk]

end TryFiles

end NetworkBfd.Smmr
