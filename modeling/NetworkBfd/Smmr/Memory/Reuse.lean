import Mathlib.Algebra.Order.BigOperators.Group.List
import NetworkBfd.Smmr.Memory.Sound

/-!
# Which space `shmalloc` finds again

The bits that `shmalloc` looks at are set by a rebuild only. After one, the bits of a recycled item agree with every
size it can serve (`exists_freeClass`), so a freed block is found again (`Reachable.reused`); before one, it may not be
(`freed_not_found`). The bits of the bucket are set by `remain_size`, which agrees with the bucket exactly when the
recycled items make up for the heads and feet that it counts twice (`Reachable.advertises_iff`).
-/

namespace NetworkBfd.Smmr.Memory

open Lib

variable {c : Category} {data : Bytes} {L : Layout} {id n a r : Nat} {p : Bytes}

/-! ## Size classes -/

/-- A recycled item with room for `a` bytes has a bit that is looked at for `a` bytes. -/
theorem exists_freeClass (h : a ≤ r) : ∃ ids ∈ bitmapids.drop (startBmpId a), ids.2 ∈ freeClasses r := by
  rw [startBmpId]
  split
  · refine ⟨(.dc512, .free512), by decide, ?_⟩
    rw [freeClasses]
    split_ifs <;> first | omega | decide
  · split
    · refine ⟨(.dc128, .free128), by decide, ?_⟩
      rw [freeClasses]
      split_ifs <;> first | omega | decide
    · split
      · refine ⟨(.dc032, .free032), by decide, ?_⟩
        rw [freeClasses]
        split_ifs <;> first | omega | decide
      · refine ⟨(.dc032, .free000), by decide, ?_⟩
        rw [freeClasses]
        split_ifs <;> decide

theorem dcClasses_eq_nil (h : r ≤ 32) : dcClasses r = [] := by
  rw [dcClasses]
  split_ifs <;> first | omega | rfl

/-! ## The bits of the bucket -/

/-- The recycled items of a page. -/
def freeItems (p : Bytes) : List Nat := (visited p mmsigFree mmposMinOfst mmposFreeRoot).1.tail

/-- The length of the bucket. -/
def bucketLength (p : Bytes) : Nat := len p (nextOffset p mmposBcktRoot)

/-- The summaries of the used list, and `remain_size`, as a rebuild computes them. -/
def usedSize (p : Bytes) : Nat := sizeSummary p mmposUsedRoot (visited p mmsigUsed mmposMinOfst mmposUsedRoot).1
def usedCount (p : Bytes) : Nat := countSummary p mmposUsedRoot (visited p mmsigUsed mmposMinOfst mmposUsedRoot).1
def computedRemain (p : Bytes) : Nat := remainSize (usedSize p) (usedCount p)

/-- A rebuild of page `n` neither hides nor invents space of the bucket. -/
structure Advertises (data : Bytes) (n : Nat) : Prop where
  exact : computedRemain (page data n) = bucketLength (page (rebuildBitmapAndPagesummary n data false).1 n)
  noWrap : usedSize (page data n) + usedCount (page data n) * mmsizHfSize + mmsizAllRoot ≤ pageSize
  served : ∀ size, 0 < size → size ≤ 2048 →
    alignedSize size + mmsizHfSize ≤ bucketLength (page (rebuildBitmapAndPagesummary n data false).1 n) →
    mmposMinOfst < bucketLength (page (rebuildBitmapAndPagesummary n data false).1 n) →
    ∃ ids ∈ bitmapids.drop (startBmpId (alignedSize size)),
      isPagebit (rebuildBitmapAndPagesummary n data false).1 ids.1 n = true
  spent : bucketLength (page (rebuildBitmapAndPagesummary n data false).1 n) ≤ mmposMinOfst →
    ∀ b ∈ dcBitmaps, isPagebit (rebuildBitmapAndPagesummary n data false).1 b n = false

namespace PageRep

theorem freeItems_eq (h : PageRep id p L) : freeItems p = L.free := by
  rw [freeItems, h.visited_free (by decide), List.tail_cons]

theorem bucketLength_eq (h : PageRep id p L) : bucketLength p = 131016 - L.bckt := by
  have h1 := h.bucket.size
  simp only [mmposBcktInit, mmsizBcktInitSize] at h1
  rw [bucketLength, h.bucket.next]
  omega

theorem usedSize_eq (h : PageRep id p L) : usedSize p = (L.used.map (len p)).sum := by
  rw [usedSize, h.items_used (by decide), h.sizeSummary_used]

theorem usedCount_eq (h : PageRep id p L) : usedCount p = L.used.length := by
  rw [usedCount, h.items_used (by decide), h.countSummary_used]

/-- Each used item has at least 36 bytes. -/
theorem count_le (h : PageRep id p L) : 36 * L.used.length ≤ (L.used.map (len p)).sum := by
  have hall : ∀ x ∈ L.used, 36 ≤ len p x := fun x hx => (h.item x (h.mem_used hx)).long
  generalize L.used = l at hall ⊢
  induction l with
  | nil => exact Nat.le_refl 0
  | cons x l ih =>
    have h1 := ih fun y hy => hall y (List.mem_cons_of_mem x hy)
    have h2 := hall x List.mem_cons_self
    rw [List.length_cons, List.map_cons, List.sum_cons]
    omega

end PageRep

theorem remainSize_eq {u k v : Nat} (hu : u ≤ 130848) (hk : 32 * k ≤ 130848) (hv : v ≤ 130848) :
    remainSize u k = v ↔ v + u + 32 * k = 130848 := by
  rw [remainSize]
  simp only [pageSize, mmsizAllRoot, mmsizHfSize]
  omega

theorem advertises_iff (h : PageRep id (page data n) L) (hn : n ∈ userPages) :
    Advertises data n ↔ L.used = [] ∨ (L.free.map (len (page data n))).sum = 32 * L.used.length := by
  obtain ⟨data', heq, hr, -⟩ := rebuild_spec h hn
  have hsums := h.sums
  have hbckt := h.bckt_le
  have hcount := h.count_le
  have hsize := h.usedSize_eq
  have hcnt := h.usedCount_eq
  have hlen := hr.rep.bucketLength_eq
  have hle : bucketLength (page data' n) ≤ 130848 := by
    have := hr.rep.bckt_le
    omega
  have hremain : computedRemain (page data n) = bucketLength (page data' n) ↔
      bucketLength (page data' n) + (L.used.map (len (page data n))).sum + 32 * L.used.length = 130848 := by
    rw [computedRemain, hsize, hcnt]
    exact remainSize_eq (by omega) (by omega) hle
  constructor
  · intro hadv
    by_cases hu : L.used = []
    · exact .inl hu
    · right
      have hexact := hadv.exact
      rw [heq] at hexact
      have h1 := hremain.mp hexact
      rw [Layout.rebuilt, if_neg hu] at hlen
      omega
  · intro hcase
    have hexact : computedRemain (page data n) = bucketLength (page data' n) := by
      rw [hremain]
      rcases hcase with hu | hf
      · rw [Layout.rebuilt, if_pos hu] at hlen
        simp only [Layout.empty, mmposBcktInit] at hlen
        rw [hu, List.map_nil, List.sum_nil, List.length_nil]
        omega
      · by_cases hu : L.used = []
        · rw [Layout.rebuilt, if_pos hu] at hlen
          simp only [Layout.empty, mmposBcktInit] at hlen
          rw [hu, List.map_nil, List.sum_nil, List.length_nil]
          omega
        · rw [Layout.rebuilt, if_neg hu] at hlen
          omega
    have h1 := hremain.mp hexact
    have hdc : ∀ b ∈ dcBitmaps, isPagebit data' b n = true ↔
        L.used = [] ∨ b ∈ dcClasses (bucketLength (page data' n)) := by
      intro b hb
      rw [hr.dc b hb, ← hsize, ← hcnt, ← hexact]
      rfl
    refine ⟨by rw [heq]; exact hexact, ?_, fun size h2 h3 h4 h5 => ?_, fun h2 b hb => ?_⟩
    · rw [hsize, hcnt]
      simp only [mmsizHfSize, mmsizAllRoot, pageSize]
      omega
    · rw [heq] at h4 h5 ⊢
      obtain ⟨ids, hids, hmem⟩ := exists_dcClass h4 h5
      exact ⟨ids, hids, (hdc _ (dcClasses_subset _ hmem)).mpr (.inr hmem)⟩
    · rw [heq] at h2 ⊢
      rw [Bool.eq_false_iff, Ne, hdc b hb, dcClasses_eq_nil h2]
      rintro (hu | hm)
      · rw [Layout.rebuilt, if_pos hu] at hlen
        simp only [Layout.empty, mmposBcktInit, mmposMinOfst] at hlen h2
        omega
      · exact absurd hm List.not_mem_nil

/-- The bits of the bucket are exact on the pages without used items, and where the recycled items are as long as a head
and a foot for each used one. -/
theorem Reachable.bucket_advertised_iff {id : BitVec 32} {filesize k : Nat} {B : List Block}
    (h : Reachable id filesize k c B) (hn : n ∈ userPages) :
    Advertises c.data n ↔ usedItems (page c.data n) = [] ∨
      ((freeItems (page c.data n)).map (len (page c.data n))).sum =
        mmsizHfSize * (usedItems (page c.data n)).length := by
  obtain ⟨⟨L, hfits⟩, -, -⟩ := h.fits
  rw [advertises_iff (hfits.rep n hn) hn, hfits.usedItems_eq hn, (hfits.rep n hn).freeItems_eq]
  rfl

/-- On the page of a block in use, when another block was freed. -/
theorem bucket_advertised_iff_freed : ∃ c b b', Reachable 0 134217728 0 c [b', b] ∧ live c = {b'} ∧ b ≠ b' ∧
    (Advertises c.data b'.pageid ↔ usedItems (page c.data b'.pageid) = [] ∨
      ((freeItems (page c.data b'.pageid)).map (len (page c.data b'.pageid))).sum =
        mmsizHfSize * (usedItems (page c.data b'.pageid)).length) ∧
    usedItems (page c.data b'.pageid) ≠ [] := by
  obtain ⟨c, b, b', L, h, hlive, hne, hfits, -⟩ := exists_freed
  obtain ⟨-, hn, hused⟩ := hfits.mem_live.mp (hlive ▸ Set.mem_singleton b')
  refine ⟨c, b, b', h, hlive, hne, Reachable.bucket_advertised_iff h hn, ?_⟩
  rw [hfits.usedItems_eq hn]
  exact List.ne_nil_of_mem hused

/-- After `shmalloc(1)` on a fresh category a rebuild takes the bucket for 32 bytes shorter than it is. -/
theorem one_byte_hides : Reachable 0 134217728 0 (shmalloc freshCategory 1).1 (shmalloc freshCategory 1).2.toList ∧
    ∃ n ∈ userPages, ¬Advertises (shmalloc freshCategory 1).1.data n := by
  refine ⟨?_, ?_⟩
  · have h := reachable_fresh.shmalloc 1
    rwa [List.append_nil] at h
  · have hfits := fits_freshCategory
    rcases hfits.shmalloc_spec 1 with ⟨h1, -⟩ | ⟨-, q, hq, -, p', L', x, h1, hand⟩
    · exact absurd (by rw [h1]) (shmalloc_freshCategory (n := 1) ⟨by decide, by decide⟩)
    · have hn := (mem_attempts.mp hq).2
      refine ⟨q.2, hn, ?_⟩
      have hrep := (hfits.store hn hand.rep hand.far).rep q.2 hn
      rw [h1]
      rw [Function.update_self] at hrep
      rw [advertises_iff hrep hn, hand.used]
      rcases hand.source with ⟨l₁, l₂, hl, -⟩ | ⟨-, -, hfree, -⟩
      · exact absurd hl (by simp [Layout.empty])
      · rw [hfree]
        simp [Layout.empty]

/-! ## Freed blocks -/

/-- A recycled item whose bit is on is found. -/
theorem Fits.shmalloc_ne_none {L : Nat → Layout} {size x : Nat} {ids : SysPage × SysPage} (h : Fits c L)
    (hs : 0 < size ∧ size ≤ 2048) (hn : n ∈ userPages) (hids : ids ∈ bitmapids.drop (startBmpId (alignedSize size)))
    (hbit : isPagebit c.data ids.2 n = true) (hx : x ∈ (L n).free) (hlen : size + 32 ≤ len (page c.data n) x) :
    (shmalloc c size).2 ≠ none := by
  intro hnone
  have hmiss : len (page c.data n) x < 32 + alignedSize size :=
    ((h.shmalloc_eq_none_iff hs).mp hnone (ids, n) (mem_attempts.mpr ⟨hids, hn⟩)).1 hbit x hx
  have h4 := ((h.rep n hn).item x ((h.rep n hn).mem_free hx)).aligned
  have ha := alignedSize_bounds hs.1
  rw [alignedSize] at hmiss
  split at hmiss <;> omega

/-- A freed block is found again behind a bit of its page, and always after a rebuild. -/
theorem Reachable.freed_reused {id : BitVec 32} {filesize k size : Nat} {B : List Block} {b : Block}
    (h : Reachable id filesize k c B) (hb : b ∈ live c) (hs : 0 < size ∧ size ≤ 2048)
    (hlen : size + mmsizHfSize ≤ b.length c) :
    ((∃ ids ∈ bitmapids.drop (startBmpId (alignedSize size)), isPagebit c.data ids.2 b.pageid = true) →
        (Memory.shmalloc (Memory.shmfree c b.pointer) size).2 ≠ none) ∧
      (Memory.shmalloc (Memory.rebuildPageStatics (Memory.shmfree c b.pointer)) size).2 ≠ none := by
  obtain ⟨⟨L, hfits⟩, -, -⟩ := h.fits
  have hn := (hfits.mem_live.mp hb).2.1
  obtain ⟨L', hfits', hmem, hlen', hbits, -⟩ := hfits.freed hb
  rw [← hlen'] at hlen
  refine ⟨fun ⟨ids, hids, hbit⟩ => ?_, ?_⟩
  · exact hfits'.shmalloc_ne_none hs hn hids (by rw [hbits _ hn, hbit]) hmem hlen
  · have hr := hfits'.rebuildPageStatics_spec b.pageid hn
    have hfits'' := hfits'.rebuildPageStatics
    have hrep := hfits'.rep b.pageid hn
    have hplace := hrep.place (hrep.mem_free hmem)
    have ha : alignedSize size + 32 ≤ len (page (Memory.shmfree c b.pointer).data b.pageid) b.offset := by
      have h4 := (hrep.item b.offset (hrep.mem_free hmem)).aligned
      rw [alignedSize]
      simp only [mmsizHfSize] at hlen
      split <;> omega
    by_cases hu : (L' b.pageid).used = []
    · -- the page is all bucket again
      refine hfits''.shmalloc_of_empty hs hn (if_pos hu) fun d hd => (hr.dc d hd).mpr (.inl hu)
    · obtain ⟨ids, hids, hclass⟩ := exists_freeClass (a := alignedSize size)
        (r := len (page (Memory.shmfree c b.pointer).data b.pageid) b.offset - 32) (by omega)
      have hbit := (hr.free _ (freeClasses_subset _ hclass)).mpr ⟨hu, b.offset, hmem, hclass⟩
      refine hfits''.shmalloc_ne_none hs hn hids hbit (x := b.offset) ?_ ?_
      · rw [Layout.rebuilt, if_neg hu]
        exact hmem
      · rw [len_congr fun i h1 h2 => hr.kept hu i (by omega) (by omega) (by omega)]
        exact hlen

theorem freed_reused_fresh : ∃ b, (shmalloc freshCategory 64).2 = some b ∧
    (shmalloc (rebuildPageStatics (shmfree (shmalloc freshCategory 64).1 b.pointer)) 64).2 ≠ none := by
  obtain ⟨b, hb⟩ := Option.ne_none_iff_exists'.mp (shmalloc_freshCategory (n := 64) ⟨by decide, by decide⟩)
  refine ⟨b, hb, ?_⟩
  obtain ⟨-, -, -, hlive, hlen, -⟩ := fits_freshCategory.shmalloc_some hb
  exact (Reachable.freed_reused (reachable_fresh.shmalloc 64) (hlive ▸ Set.mem_insert b _)
    ⟨by decide, by decide⟩ hlen).2

/-! ## Full categories -/

/-- The space of all buckets. -/
def bucketSpace (L : Nat → Layout) : Nat := (userPages.map fun n => 131016 - (L n).bckt).sum

/-- A category in which nothing was freed, and no bit of a recycle list is on. -/
structure Unfreed (c : Category) (L : Nat → Layout) : Prop where
  fits : Fits c L
  free : ∀ n ∈ userPages, (L n).free = []
  bit : ∀ b ∈ freeBitmaps, ∀ n ∈ userPages, isPagebit c.data b n = false

theorem Unfreed.shmalloc {L : Nat → Layout} {size : Nat} (h : Unfreed c L) (hs : (shmalloc c size).2 ≠ none) :
    ∃ L', Unfreed (shmalloc c size).1 L' ∧ bucketSpace L' < bucketSpace L := by
  rcases h.fits.shmalloc_spec size with ⟨h1, -⟩ | ⟨-, q, hq, -, p', L', x, h1, hand⟩
  · exact absurd (by rw [h1]) hs
  · have hn := (mem_attempts.mp hq).2
    rw [h1]
    rcases hand.source with ⟨l₁, l₂, hl, -⟩ | ⟨-, -, hfree, -, hbckt⟩
    · rw [h.free q.2 hn] at hl
      exact absurd hl (by simp)
    · refine ⟨_, ⟨h.fits.store hn hand.rep hand.far, fun m hm => ?_, fun b hb m hm => ?_⟩, ?_⟩
      · by_cases heq : m = q.2
        · rw [heq, Function.update_self, hfree, h.free q.2 hn]
        · rw [Function.update_of_ne heq, h.free m hm]
      · rw [isPagebit_withPage (mem_userPages.mp hm).2 hn, h.bit b hb m hm]
      · have hle := hand.rep.bckt_le
        refine List.sum_lt_sum _ _ (fun m hm => ?_) ⟨q.2, hn, ?_⟩
        · by_cases heq : m = q.2
          · rw [heq, Function.update_self]
            omega
          · rw [Function.update_of_ne heq]
        · rw [Function.update_self]
          omega

/-- Calls of `shmalloc` without `shmfree` come to an end. -/
theorem Unfreed.exhausted {L : Nat → Layout} (size : Nat) (h : Unfreed c L) :
    ∃ k L', Unfreed ((fun c => (Memory.shmalloc c size).1)^[k] c) L' ∧
      (Memory.shmalloc ((fun c => (Memory.shmalloc c size).1)^[k] c) size).2 = none := by
  induction hsp : bucketSpace L using Nat.strong_induction_on generalizing c L with
  | h s ih =>
    subst hsp
    by_cases hnone : (Memory.shmalloc c size).2 = none
    · exact ⟨0, L, h, hnone⟩
    · obtain ⟨L', hun, hlt⟩ := h.shmalloc hnone
      obtain ⟨k, L'', h1, h2⟩ := ih _ hlt hun rfl
      exact ⟨k + 1, L'', h1, h2⟩

theorem unfreed_freshCategory : Unfreed freshCategory fun _ => Layout.empty := by
  refine ⟨fits_freshCategory, fun n _ => rfl, fun b hb n hn => ?_⟩
  rw [(emptyAt_freshCategory hn).bit]
  exact decide_eq_false fun h => (show ∀ b ∈ freeBitmaps, b ∉ dcBitmaps by decide) b hb h

/-- A block in use stays in use, with its length, when blocks are handed out. -/
theorem Fits.live_iterate {L : Nat → Layout} {b : Block} (size k : Nat) (h : Fits c L) (hb : b ∈ live c) :
    b ∈ live ((fun c => (shmalloc c size).1)^[k] c) ∧ b.length ((fun c => (shmalloc c size).1)^[k] c) = b.length c := by
  induction k generalizing c L with
  | zero => exact ⟨hb, rfl⟩
  | succ k ih =>
    rw [Function.iterate_succ_apply]
    cases hs : (shmalloc c size).2 with
    | none =>
      rw [h.shmalloc_none hs]
      exact ih h hb
    | some d =>
      obtain ⟨⟨L', hfits⟩, -, -, hlive, -, hkeep⟩ := h.shmalloc_some hs
      obtain ⟨h1, h2⟩ := ih hfits (hlive ▸ Set.mem_insert_of_mem d hb)
      exact ⟨h1, h2.trans (hkeep b hb).1⟩

/-- When all of a fresh category is handed out in blocks of 2048 bytes and one of them is freed, there is still none. -/
theorem freed_not_found : ∃ k b, b ∈ live ((fun c => (shmalloc c 2048).1)^[k] freshCategory) ∧
    2048 + mmsizHfSize ≤ b.length ((fun c => (shmalloc c 2048).1)^[k] freshCategory) ∧
    (shmalloc (shmfree ((fun c => (shmalloc c 2048).1)^[k] freshCategory) b.pointer) 2048).2 = none := by
  have hs : 0 < 2048 ∧ 2048 ≤ 2048 := ⟨by decide, by decide⟩
  -- the first block stays in use while the rest is handed out
  obtain ⟨b, hb⟩ := Option.ne_none_iff_exists'.mp (shmalloc_freshCategory hs)
  obtain ⟨⟨L₁, hfits₁⟩, -, -, hlive₁, hlen₁, -⟩ := fits_freshCategory.shmalloc_some hb
  obtain ⟨L₁', hun, -⟩ := unfreed_freshCategory.shmalloc (shmalloc_freshCategory hs)
  obtain ⟨k, L, hun', hnone⟩ := hun.exhausted 2048
  obtain ⟨hblive, hblen⟩ := hfits₁.live_iterate 2048 k (hlive₁ ▸ Set.mem_insert b _)
  rw [← hblen] at hlen₁
  refine ⟨k + 1, b, ?_⟩
  rw [Function.iterate_succ_apply]
  generalize (fun c => (shmalloc c 2048).1)^[k] (shmalloc freshCategory 2048).1 = c at hun' hnone hblive hlen₁ ⊢
  refine ⟨hblive, hlen₁, ?_⟩
  obtain ⟨L', hfits', -, -, hbits, hbckt⟩ := hun'.fits.freed hblive
  refine (hfits'.shmalloc_eq_none_iff hs).mpr fun q hq => ⟨fun hbit => ?_, fun hbit => ?_⟩
  · obtain ⟨hids, hn⟩ := mem_attempts.mp hq
    have hfree : q.1.2 ∈ freeBitmaps :=
      (show ∀ ids ∈ bitmapids, ids.2 ∈ freeBitmaps by decide) _ (List.mem_of_mem_drop hids)
    rw [hbits q.2 hn, hun'.bit _ hfree q.2 hn] at hbit
    exact absurd hbit Bool.false_ne_true
  · obtain ⟨hids, hn⟩ := mem_attempts.mp hq
    rw [hbits q.2 hn] at hbit
    have hmiss := ((hun'.fits.shmalloc_eq_none_iff hs).mp hnone q hq).2 hbit
    have h1 := (hfits'.rep q.2 hn).bucket.size
    have h2 := (hun'.fits.rep q.2 hn).bucket.size
    rw [hbckt] at h1 ⊢
    omega

end NetworkBfd.Smmr.Memory
