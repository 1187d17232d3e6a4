import NetworkBfd.Smmr.Memory.Rep

/-!
# Items from the bucket, and fresh pages

`operateInsert` cuts an item off the front of the bucket when it is long enough (`PageRep.inserted`), and changes
nothing otherwise (`PageRep.not_inserted`). `shrinkPage` makes a page without used items all bucket
(`PageRep.shrunk`), as `putUsedRoot` and `shrinkPage` do with any page (`pageRep_init`).
-/

namespace NetworkBfd.Smmr.Memory

open Lib

variable {id a i x s v n l k b : Nat} {p p' : Bytes} {L : Layout}

/-! ## Heads -/

theorem word_write_of_disjoint {bs : List (BitVec 8)} (h : b + k ≤ a ∨ a + bs.length ≤ b) :
    (p.write a bs).word b k = p.word b k :=
  Bytes.word_congr fun i h1 h2 => Bytes.write_of_outside (by omega)

theorem putHead_of_outside (h : i < x ∨ x + 16 ≤ i) : putHead p x s v n l i = p i := by
  simp only [putHead, setLen, setNextOffset, setPrevOffset, setSignature]
  rw [Bytes.putWord_of_outside (by omega), Bytes.putWord_of_outside (by omega), Bytes.putWord_of_outside (by omega),
    Bytes.putWord_of_outside (by omega)]

theorem word_putHead_of_disjoint (h : b + k ≤ x ∨ x + 16 ≤ b) : (putHead p x s v n l).word b k = p.word b k :=
  Bytes.word_congr fun i h1 h2 => putHead_of_outside (by omega)

theorem putHead_fields (hs : s < 4294967296) (hv : v < 4294967296) (hn : n < 4294967296) (hl : l < 4294967296) :
    signature (putHead p x s v n l) x = s ∧ prevOffset (putHead p x s v n l) x = v ∧
      nextOffset (putHead p x s v n l) x = n ∧ len (putHead p x s v n l) x = l := by
  simp only [signature, prevOffset, nextOffset, len, putHead, setLen, setNextOffset, setPrevOffset, setSignature]
  refine ⟨?_, ?_, ?_, word_putWord_four hl⟩
  · rw [Bytes.word_putWord_of_disjoint (by omega), Bytes.word_putWord_of_disjoint (by omega),
      Bytes.word_putWord_of_disjoint (by omega), word_putWord_four hs]
  · rw [Bytes.word_putWord_of_disjoint (by omega), Bytes.word_putWord_of_disjoint (by omega), word_putWord_four hv]
  · rw [Bytes.word_putWord_of_disjoint (by omega), word_putWord_four hn]

/-! ## An item is cut off the bucket -/

/-- The bucket moves behind the new item. -/
def carved (p : Bytes) (b need size : Nat) : Bytes :=
  putHead (setNextOffset p 112 (b + need)) (b + need) mmsigBckt 112 mmflgClose (size - need)

/-- The new item, empty, behind the item at `t`. -/
def filled (id : Nat) (p : Bytes) (b a t : Nat) : Bytes :=
  let q := (putHead p b mmsigUsed t mmflgClose (a + 32)).write (b + 16) (List.replicate a 0)
  setFootCategoryId (setSuffix q (b + a + 16) mmsigSufx) (b + a + 16) id

/-- The page after `operateInsert`. -/
def insertedPage (id : Nat) (p : Bytes) (b a t size : Nat) : Bytes :=
  setNextOffset (setLastOffset (filled id (carved p b (a + 32) size) b a t) 0 b) t b

section Insert

variable {t size : Nat}

theorem insertedPage_of_outside
    (hi : (i < 20 ∨ 24 ≤ i) ∧ (i < 120 ∨ 124 ≤ i) ∧ (i < t + 8 ∨ t + 12 ≤ i) ∧ (i < b ∨ b + a + 48 ≤ i)) :
    insertedPage id p b a t size i = p i := by
  obtain ⟨h1, h2, h3, h4⟩ := hi
  simp only [insertedPage, filled, carved, setNextOffset, setLastOffset, setFootCategoryId, setSuffix, mmposRootDtl]
  rw [Bytes.putWord_of_outside (by omega), Bytes.putWord_of_outside (by omega), Bytes.putWord_of_outside (by omega),
    Bytes.putWord_of_outside (by omega),
    Bytes.write_of_outside (by rw [List.length_replicate]; omega), putHead_of_outside (by omega),
    putHead_of_outside (by omega), Bytes.putWord_of_outside (by omega)]

/-- A word that only the last two writes can change. -/
theorem word_insertedPage {w : Nat} (h1 : w + 4 ≤ 20 ∨ 24 ≤ w) (h2 : w + 4 ≤ t + 8 ∨ t + 12 ≤ w) :
    (insertedPage id p b a t size).word w 4 = (filled id (carved p b (a + 32) size) b a t).word w 4 := by
  simp only [insertedPage, setNextOffset, setLastOffset, mmposRootDtl]
  rw [Bytes.word_putWord_of_disjoint (by omega), Bytes.word_putWord_of_disjoint (by omega)]

theorem word_filled {w : Nat} (h : w + 4 ≤ b ∨ b + a + 32 ≤ w) : (filled id p b a t).word w 4 = p.word w 4 := by
  simp only [filled, setFootCategoryId, setSuffix]
  rw [Bytes.word_putWord_of_disjoint (by omega), Bytes.word_putWord_of_disjoint (by omega),
    word_write_of_disjoint (by rw [List.length_replicate]; omega), word_putHead_of_disjoint (by omega)]

theorem word_filled_head {w : Nat} (h : b ≤ w ∧ w + 4 ≤ b + 16) :
    (filled id p b a t).word w 4 = (putHead p b mmsigUsed t mmflgClose (a + 32)).word w 4 := by
  simp only [filled, setFootCategoryId, setSuffix]
  rw [Bytes.word_putWord_of_disjoint (by omega), Bytes.word_putWord_of_disjoint (by omega),
    word_write_of_disjoint (by omega)]

theorem filled_foot (hid : id < 4294967296) : suffix (filled id p b a t) (b + a + 16) = mmsigSufx ∧
    footCategoryId (filled id p b a t) (b + a + 16) = id := by
  simp only [filled, setFootCategoryId, setSuffix, suffix, footCategoryId]
  refine ⟨?_, word_putWord_four hid⟩
  rw [Bytes.word_putWord_of_disjoint (by omega), word_putWord_four (by decide)]

variable (ht : t = 0 ∨ 168 ≤ t ∧ t + 36 ≤ b) (hb : 168 ≤ b ∧ b + a + 32 ≤ 131016)
include ht hb

theorem insertedPage_item (hid : id < 4294967296) :
    (signature (insertedPage id p b a t size) b = mmsigUsed ∧ prevOffset (insertedPage id p b a t size) b = t ∧
      nextOffset (insertedPage id p b a t size) b = mmflgClose ∧ len (insertedPage id p b a t size) b = a + 32) ∧
    suffix (insertedPage id p b a t size) (b + a + 16) = mmsigSufx ∧
      footCategoryId (insertedPage id p b a t size) (b + a + 16) = id := by
  have hhead := putHead_fields (p := carved p b (a + 32) size) (x := b) (s := mmsigUsed) (v := t) (n := mmflgClose)
    (l := a + 32) (by decide) (by omega) (by decide) (by omega)
  have hfoot := filled_foot (p := carved p b (a + 32) size) (b := b) (a := a) (t := t) hid
  have hw : ∀ w, b ≤ w ∧ w + 4 ≤ b + 16 → (insertedPage id p b a t size).word w 4 =
      (putHead (carved p b (a + 32) size) b mmsigUsed t mmflgClose (a + 32)).word w 4 := fun w hw =>
    (word_insertedPage (by omega) (by omega)).trans (word_filled_head hw)
  refine ⟨⟨?_, ?_, ?_, ?_⟩, ?_, ?_⟩
  · exact (hw _ (by omega)).trans hhead.1
  · exact (hw _ (by omega)).trans hhead.2.1
  · exact (hw _ (by omega)).trans hhead.2.2.1
  · exact (hw _ (by omega)).trans hhead.2.2.2
  · exact (word_insertedPage (by omega) (by omega)).trans hfoot.1
  · exact (word_insertedPage (by omega) (by omega)).trans hfoot.2

theorem insertedPage_links : nextOffset (insertedPage id p b a t size) t = b ∧
    lastOffset (insertedPage id p b a t size) 0 = b := by
  simp only [insertedPage, setNextOffset, setLastOffset, nextOffset, lastOffset, mmposRootDtl]
  refine ⟨word_putWord_four (by omega), ?_⟩
  rw [Bytes.word_putWord_of_disjoint (by omega)]
  exact word_putWord_four (by omega)

/-- The bucket behind the new item. -/
theorem insertedPage_bucket (h : Bucket p b) (hsize : a + 32 ≤ len p b) :
    Bucket (insertedPage id p b a t (len p b)) (b + a + 32) := by
  have hlen : len p b < 4294967296 := Bytes.word_lt p (b + 12) 4
  have h6 := h.size
  have hhead := putHead_fields (p := setNextOffset p 112 (b + (a + 32))) (x := b + (a + 32)) (s := mmsigBckt) (v := 112)
    (n := mmflgClose) (l := len p b - (a + 32)) (by decide) (by decide) (by decide) (by omega)
  have hnew : ∀ w, b + a + 32 ≤ w ∧ w + 4 ≤ b + a + 48 → (insertedPage id p b a t (len p b)).word w 4 =
      (carved p b (a + 32) (len p b)).word w 4 := fun w hw =>
    (word_insertedPage (by omega) (by omega)).trans (word_filled (by omega))
  have hroot : ∀ w, 112 ≤ w ∧ w + 4 ≤ 168 → (w + 4 ≤ 120 ∨ 124 ≤ w) →
      (insertedPage id p b a t (len p b)).word w 4 = p.word w 4 := fun w hw hw' => by
    refine Bytes.word_congr fun i h1 h2 => insertedPage_of_outside ⟨?_, ?_, ?_, ?_⟩
    all_goals omega
  have heq : b + a + 32 = b + (a + 32) := by omega
  simp only [mmposBcktInit, mmsizBcktInitSize] at h6
  refine ⟨validRoot_congr ?_ ?_ ?_ ?_ h.root, ?_, ?_, ?_, ?_, ?_⟩
  · exact hroot _ (by simp only [mmposBcktRoot]; omega) (by simp only [mmposBcktRoot]; omega)
  · exact hroot _ (by simp only [mmposBcktRoot]; omega) (by simp only [mmposBcktRoot]; omega)
  · exact hroot _ (by simp only [mmposBcktRoot]; omega) (by simp only [mmposBcktRoot]; omega)
  · exact hroot _ (by simp only [mmposBcktRoot]; omega) (by simp only [mmposBcktRoot]; omega)
  · simp only [nextOffset, mmposBcktRoot]
    rw [word_insertedPage (by omega) (by omega), word_filled (by omega), carved, word_putHead_of_disjoint (by omega),
      setNextOffset, word_putWord_four (by omega), heq]
  · exact (hnew _ (by omega)).trans (heq ▸ hhead.1)
  · exact (hnew _ (by omega)).trans (heq ▸ hhead.2.1)
  · exact (hnew _ (by omega)).trans (heq ▸ hhead.2.2.1)
  · have hlen' : len (insertedPage id p b a t (len p b)) (b + a + 32) = len p b - (a + 32) :=
      (hnew _ (by omega)).trans (heq ▸ hhead.2.2.2)
    rw [hlen']
    simp only [mmposBcktInit, mmsizBcktInitSize]
    omega

end Insert

namespace PageRep

theorem last_used (h : PageRep id p L) :
    L.used.getLastD 0 ∈ L.heads ∧
      (L.used.getLastD 0 = 0 ∨ 168 ≤ L.used.getLastD 0 ∧ L.used.getLastD 0 + 36 ≤ L.bckt) := by
  have hm := getLastD_mem L.used 0
  refine ⟨h.members_used.mem hm, ?_⟩
  rcases List.mem_cons.mp hm with h1 | h1
  · exact .inl h1
  · have := h.place (h.mem_used h1)
    omega

theorem operateInsert_eq (h : PageRep id p L) (ha : 0 < a) (hsize : a + 32 ≤ len p L.bckt) :
    operateInsert id p a = (insertedPage id p L.bckt a (L.used.getLastD 0) (len p L.bckt), L.bckt) := by
  obtain ⟨-, ht⟩ := h.last_used
  have hlast : lastOffset p 0 = L.used.getLastD 0 := h.used.last
  have hbckt := h.bckt_le
  have h6 := h.bucket.size
  simp only [mmposBcktInit, mmsizBcktInitSize] at h6
  have hnext : nextOffset (setNextOffset p 112 (L.bckt + (a + 32))) 112 = L.bckt + (a + 32) :=
    word_putWord_four (by omega)
  have hlast' : lastOffset (carved p L.bckt (a + 32) (len p L.bckt)) 0 = L.used.getLastD 0 := by
    rw [← hlast]
    exact (word_putHead_of_disjoint (by simp only [mmposRootDtl]; omega)).trans
      (Bytes.word_putWord_of_disjoint (by simp only [mmposRootDtl]; omega))
  have hfoot : ∀ q : Bytes, footOf ((putHead q L.bckt mmsigUsed (L.used.getLastD 0) mmflgClose (a + 32)).write
      (L.bckt + 16) (List.replicate a 0)) L.bckt = L.bckt + a + 16 := by
    intro q
    have hlen : len ((putHead q L.bckt mmsigUsed (L.used.getLastD 0) mmflgClose (a + 32)).write (L.bckt + 16)
        (List.replicate a 0)) L.bckt = a + 32 := by
      refine (word_write_of_disjoint (by omega)).trans ?_
      exact (putHead_fields (by decide) (by omega) (by decide) (by omega)).2.2.2
    rw [footOf, hlen, sizeofMemitemFoot]
    omega
  rw [operateInsert, if_neg (by omega)]
  simp only [h.bucket.next, mmposUsedRoot, hlast, mmsizHfSize, if_neg (Nat.not_lt.mpr hsize)]
  simp only [mmposBcktRoot, hnext, sizeofMemitemHead]
  simp only [carved] at hlast'
  simp only [hlast', hfoot]
  rfl

/-- The items before the bucket keep their bytes from their lengths on. -/
theorem inserted_kept {y size : Nat} (h : PageRep id p L) (hy : y ∈ L.blocks) (h1 : y + 12 ≤ i) (h2 : i < y + len p y) :
    insertedPage id p L.bckt a (L.used.getLastD 0) size i = p i := by
  have h3 := h.place hy
  have h4 : y = L.used.getLastD 0 ∨ y + len p y ≤ L.used.getLastD 0 ∨ L.used.getLastD 0 + 36 ≤ y := by
    rcases List.mem_cons.mp (getLastD_mem L.used 0) with h5 | h5
    · omega
    · by_cases heq : y = L.used.getLastD 0
      · exact .inl heq
      · have := h.apart hy (h.mem_used h5) heq
        have := h.place (h.mem_used h5)
        omega
  exact insertedPage_of_outside (by omega)

/-- A new item, cut off the bucket. -/
theorem inserted (h : PageRep id p L) (hid : id < 4294967296) (ha : 4 ≤ a ∧ a % 4 = 0) (hsize : a + 32 ≤ len p L.bckt) :
    PageRep id (insertedPage id p L.bckt a (L.used.getLastD 0) (len p L.bckt))
      { used := L.used ++ [L.bckt], free := L.free, blocks := L.blocks ++ [L.bckt], bckt := L.bckt + a + 32 } := by
  obtain ⟨hmem, ht⟩ := h.last_used
  have hbckt := h.bckt_le
  have h6 := h.bucket.size
  simp only [mmposBcktInit, mmsizBcktInitSize] at h6
  have hb : 168 ≤ L.bckt ∧ L.bckt + a + 32 ≤ 131016 := by omega
  obtain ⟨⟨i1, i2, i3, i4⟩, i5, i6⟩ := @insertedPage_item id a L.bckt p _ (len p L.bckt) ht hb hid
  obtain ⟨k1, k2⟩ := @insertedPage_links id a L.bckt p _ (len p L.bckt) ht hb
  generalize hq : insertedPage id p L.bckt a (L.used.getLastD 0) (len p L.bckt) = q at *
  have hframe : ∀ i, (i < 20 ∨ 24 ≤ i) ∧ (i < 120 ∨ 124 ≤ i) ∧
      (i < L.used.getLastD 0 + 8 ∨ L.used.getLastD 0 + 12 ≤ i) ∧ i < L.bckt → q i = p i := fun i hi => by
    rw [← hq]
    exact insertedPage_of_outside (by omega)
  have hword : ∀ y ∈ L.heads, ∀ j, j + 4 ≤ 16 → (y = L.used.getLastD 0 → j + 4 ≤ 8 ∨ 12 ≤ j) →
      q.word (y + j) 4 = p.word (y + j) 4 := by
    intro y hy j hj hne
    have h1 := h.spaced.apart _ hy _ hmem
    have h2 : y = 0 ∨ y = 56 ∨ 168 ≤ y ∧ y + 36 ≤ L.bckt := by
      simp only [Layout.heads, List.mem_cons] at hy
      rcases hy with rfl | rfl | hy
      · exact .inl rfl
      · exact .inr (.inl rfl)
      · have := h.place hy
        omega
    refine Bytes.word_congr fun i h3 h4 => hframe i ⟨?_, ?_, ?_, ?_⟩
    all_goals omega
  have hitem : ∀ x ∈ L.blocks, ∀ i, x + 12 ≤ i → i < x + len p x → q i = p i := by
    intro x hx i h1 h2
    rw [← hq]
    exact h.inserted_kept hx h1 h2
  refine ⟨?_, ?_, ?_, ?_, ?_, ?_⟩
  · refine h.used.push h.members_used.nodup_cons k1 (fun y hy hne => ?_) (fun y hy => ?_) (fun y hy => ?_)
      ⟨i3, i2, i1⟩ k2 ?_ ?_
    · exact hword y (h.members_used.mem hy) 8 (by omega) (fun heq => absurd heq hne)
    · exact hword y (h.members_used.mem hy) 4 (by omega) (fun _ => by omega)
    · exact hword y (h.members_used.mem hy) 0 (by omega) (fun _ => by omega)
    · exact hword 0 List.mem_cons_self 12 (by omega) (fun _ => by omega)
    · exact Bytes.word_congr fun i h3 h4 => hframe i (by simp only [mmposUsedRoot] at h3 h4; omega)
  · have hne : ∀ y ∈ 56 :: L.free, y ≠ L.used.getLastD 0 := by
      intro y hy heq
      have hlast := getLastD_mem L.used 0
      rw [← heq] at hlast
      rcases List.mem_cons.mp hy with rfl | hy <;> rcases List.mem_cons.mp hlast with h1 | h1
      · omega
      · have := h.place (h.mem_used h1)
        omega
      · have := h.place (h.mem_free hy)
        omega
      · exact h.disjoint h1 hy
    refine h.free.congr (fun y hy => ?_) (fun y hy => ?_) (fun y hy => ?_) ?_ ?_ ?_
    · exact hword y (h.members_free.mem hy) 8 (by omega) (fun heq => absurd heq (hne y hy))
    · exact hword y (h.members_free.mem hy) 4 (by omega) (fun _ => by omega)
    · exact hword y (h.members_free.mem hy) 0 (by omega) (fun _ => by omega)
    · exact Bytes.word_congr fun i h3 h4 => hframe i (by simp only [mmposFreeRoot, mmposRootDtl] at h3 h4; omega)
    · exact hword 56 (List.mem_cons_of_mem 0 List.mem_cons_self) 12 (by omega) (fun _ => by omega)
    · exact Bytes.word_congr fun i h3 h4 => hframe i (by simp only [mmposFreeRoot] at h3 h4; omega)
  · refine List.Perm.trans ?_ (h.perm.append_right [L.bckt])
    rw [List.append_assoc, List.append_assoc]
    exact List.Perm.append_left L.used List.perm_append_comm
  · have hlen : ∀ x ∈ L.blocks, len q x = len p x := fun x hx => by
      have := h.place hx
      exact len_congr fun i h1 h2 => hitem x hx i h1 (by omega)
    have htiles := (h.tiles.congr hlen).snoc
    rwa [i4, ← Nat.add_assoc] at htiles
  · intro x hx
    rcases List.mem_append.mp hx with hx | hx
    · exact (h.item x hx).congr (hitem x hx)
    · rw [List.mem_singleton.mp hx]
      have hfoot : footOf q L.bckt = L.bckt + a + 16 := by
        rw [footOf, i4, sizeofMemitemFoot]
        omega
      exact ⟨by omega, by omega, hfoot ▸ i5, hfoot ▸ i6⟩
  · rw [← hq]
    exact insertedPage_bucket ht hb h.bucket hsize

end PageRep

/-! ## A page without items -/

theorem putRoot_of_outside {r f : Nat} (h : i < r ∨ r + 56 ≤ i) : putRoot p r s n f l i = p i := by
  simp only [putRoot, setSuffix, setFreeCnt, setFreeSize, setUseCnt, setUseSize, setLastOffset, setFirstOffset,
    mmposRootDtl, mmposRootFoot]
  rw [Bytes.putWord_of_outside (by omega), Bytes.putWord_of_outside (by omega), Bytes.putWord_of_outside (by omega),
    Bytes.putWord_of_outside (by omega), Bytes.putWord_of_outside (by omega), Bytes.putWord_of_outside (by omega),
    Bytes.putWord_of_outside (by omega), putHead_of_outside (by omega)]

theorem putRoot_fields {r f : Nat} (hs : s < 4294967296) (hn : n < 4294967296) (hl : l < 4294967296) :
    validRoot (putRoot p r s n f l) r s = true ∧ nextOffset (putRoot p r s n f l) r = n ∧
      lastOffset (putRoot p r s n f l) r = l := by
  obtain ⟨h1, h2, h3, h4⟩ := putHead_fields (p := p) (x := r) (v := 0) (l := mmposRootSize) hs (by decide) hn
    (by decide)
  have hw : ∀ w, r ≤ w ∧ w + 4 ≤ r + 16 →
      (putRoot p r s n f l).word w 4 = (putHead p r s 0 n mmposRootSize).word w 4 := by
    intro w hw
    simp only [putRoot, setSuffix, setFreeCnt, setFreeSize, setUseCnt, setUseSize, setLastOffset, setFirstOffset,
      mmposRootDtl, mmposRootFoot]
    rw [Bytes.word_putWord_of_disjoint (by omega), Bytes.word_putWord_of_disjoint (by omega),
      Bytes.word_putWord_of_disjoint (by omega), Bytes.word_putWord_of_disjoint (by omega),
      Bytes.word_putWord_of_disjoint (by omega), Bytes.word_putWord_of_disjoint (by omega),
      Bytes.word_putWord_of_disjoint (by omega)]
  refine ⟨validRoot_iff.mpr ⟨?_, ?_, ?_, ?_⟩, ?_, ?_⟩
  · exact (hw r (by omega)).trans h1
  · exact (hw (r + 4) (by omega)).trans h2
  · exact (hw (r + 12) (by omega)).trans h4
  · exact word_putWord_four (by decide)
  · exact (hw (r + 8) (by omega)).trans h3
  · simp only [lastOffset, putRoot, setSuffix, setFreeCnt, setFreeSize, setUseCnt, setUseSize, setLastOffset,
      mmposRootDtl, mmposRootFoot]
    rw [Bytes.word_putWord_of_disjoint (by omega), Bytes.word_putWord_of_disjoint (by omega),
      Bytes.word_putWord_of_disjoint (by omega), Bytes.word_putWord_of_disjoint (by omega),
      Bytes.word_putWord_of_disjoint (by omega), word_putWord_four hl]

/-- No items: all of the space is bucket. -/
def Layout.empty : Layout := { used := [], free := [], blocks := [], bckt := mmposBcktInit }

theorem putUsedRoot_chain : Chain (putUsedRoot p) mmposUsedRoot mmsigUsed [] := by
  obtain ⟨h1, h2, h3⟩ := putRoot_fields (p := p) (r := mmposUsedRoot) (f := mmposUsedRoot) (s := mmsigUsed)
    (n := mmflgClose) (l := mmposUsedRoot) (by decide) (by decide) (by decide)
  exact ⟨h1, h2, h3, fun x hx => nomatch hx⟩

theorem shrinkPage_of_outside (h : i < 56 ∨ 184 ≤ i ∧ i < 131000 ∨ 131016 ≤ i) : shrinkPage p i = p i := by
  simp only [shrinkPage, setSuffix, mmposBcktInit, mmsizBcktInitSize, sizeofMemitemFoot]
  rw [Bytes.putWord_of_outside (by omega), putHead_of_outside (by omega),
    putRoot_of_outside (by simp only [mmposBcktRoot]; omega), putRoot_of_outside (by simp only [mmposFreeRoot]; omega)]

/-- A page whose used list is empty, after `shrinkPage`. -/
theorem shrinkPage_rep (h : Chain p mmposUsedRoot mmsigUsed []) : PageRep id (shrinkPage p) Layout.empty := by
  have hused : ∀ w, w + 4 ≤ 56 → (shrinkPage p).word w 4 = p.word w 4 := fun w hw =>
    Bytes.word_congr fun i h1 h2 => shrinkPage_of_outside (.inl (by omega))
  obtain ⟨f1, f2, f3⟩ := putRoot_fields (p := p) (r := mmposFreeRoot) (f := mmposFreeRoot) (s := mmsigFree)
    (n := mmflgClose) (l := mmposFreeRoot) (by decide) (by decide) (by decide)
  generalize hq1 : putRoot p mmposFreeRoot mmsigFree mmflgClose mmposFreeRoot mmposFreeRoot = q1 at *
  obtain ⟨b1, b2, -⟩ := putRoot_fields (p := q1) (r := mmposBcktRoot) (f := mmposBcktRoot) (s := mmsigBckt)
    (n := mmposBcktInit) (l := mmposBcktInit) (by decide) (by decide) (by decide)
  generalize hq2 : putRoot q1 mmposBcktRoot mmsigBckt mmposBcktInit mmposBcktRoot mmposBcktInit = q2 at *
  obtain ⟨c1, c2, c3, c4⟩ := putHead_fields (p := q2) (x := mmposBcktInit) (s := mmsigBckt) (v := mmposBcktRoot)
    (n := mmflgClose) (l := mmsizBcktInitSize) (by decide) (by decide) (by decide) (by decide)
  have hhead : ∀ w, w + 4 ≤ 184 → (shrinkPage p).word w 4 =
      (putHead q2 mmposBcktInit mmsigBckt mmposBcktRoot mmflgClose mmsizBcktInitSize).word w 4 := by
    intro w hw
    simp only [shrinkPage, hq1, hq2, setSuffix]
    refine Bytes.word_putWord_of_disjoint (.inl ?_)
    simp only [mmposBcktInit, mmsizBcktInitSize, sizeofMemitemFoot]
    omega
  have hbckt : ∀ w, w + 4 ≤ 168 → (shrinkPage p).word w 4 = q2.word w 4 := fun w hw =>
    (hhead w (by omega)).trans (word_putHead_of_disjoint (by simp only [mmposBcktInit]; omega))
  have hfree : ∀ w, w + 4 ≤ 112 → (shrinkPage p).word w 4 = q1.word w 4 := by
    intro w hw
    rw [hbckt w (by omega), ← hq2]
    exact Bytes.word_congr fun i h1 h2 => putRoot_of_outside (.inl (by simp only [mmposBcktRoot]; omega))
  obtain ⟨g1, g2, g3, g4⟩ := validRoot_iff.mp f1
  obtain ⟨d1, d2, d3, d4⟩ := validRoot_iff.mp b1
  refine ⟨?_, ⟨validRoot_iff.mpr ⟨?_, ?_, ?_, ?_⟩, ?_, ?_, (fun x hx => nomatch hx)⟩, .refl [], rfl,
    (fun x hx => nomatch hx), ⟨validRoot_iff.mpr ⟨?_, ?_, ?_, ?_⟩, ?_, ?_, ?_, ?_, ?_⟩⟩
  · refine h.congr (fun y hy => ?_) (fun y hy => ?_) (fun y hy => ?_) (hused _ (by decide)) (hused _ (by decide))
      (hused _ (by decide))
    all_goals
      rw [List.mem_singleton.mp hy]
      exact hused _ (by decide)
  · exact (hfree _ (by decide)).trans g1
  · exact (hfree _ (by decide)).trans g2
  · exact (hfree _ (by decide)).trans g3
  · exact (hfree _ (by decide)).trans g4
  · exact (hfree _ (by decide)).trans f2
  · exact (hfree _ (by decide)).trans f3
  · exact (hbckt _ (by decide)).trans d1
  · exact (hbckt _ (by decide)).trans d2
  · exact (hbckt _ (by decide)).trans d3
  · exact (hbckt _ (by decide)).trans d4
  · exact (hbckt _ (by decide)).trans b2
  · exact (hhead _ (by decide)).trans c1
  · exact (hhead _ (by decide)).trans c2
  · exact (hhead _ (by decide)).trans c3
  · exact congrArg _ ((hhead _ (by decide)).trans c4)

/-! ## Bytes that the layout does not rest on -/

/-- The byte at `i` is one of a head or a foot, or of what the roots keep of their lists. -/
def Control (p : Bytes) (L : Layout) (i : Nat) : Prop :=
  i < 24 ∨ 44 ≤ i ∧ i < 80 ∨ 88 ≤ i ∧ i < 168 ∨
    (∃ x ∈ L.blocks, x ≤ i ∧ i < x + 16 ∨ x + len p x - 16 ≤ i ∧ i < x + len p x) ∨ L.bckt ≤ i ∧ i < L.bckt + 16

/-- The contents of items, and the sums in the roots, are free. -/
theorem PageRep.congr (h : PageRep id p L) (hb : ∀ i, Control p L i → p' i = p i) : PageRep id p' L := by
  have hlow : ∀ w, w + 4 ≤ 24 ∨ 44 ≤ w ∧ w + 4 ≤ 80 ∨ 88 ≤ w ∧ w + 4 ≤ 168 → p'.word w 4 = p.word w 4 := fun w hw =>
    Bytes.word_congr fun i h1 h2 => hb i (by simp only [Control]; omega)
  have hhead : ∀ x ∈ L.blocks, ∀ w, x ≤ w ∧ w + 4 ≤ x + 16 → p'.word w 4 = p.word w 4 := fun x hx w hw =>
    Bytes.word_congr fun i h1 h2 => hb i (.inr (.inr (.inr (.inl ⟨x, hx, .inl (by omega)⟩))))
  have hchain : ∀ {r s l}, Chain p r s l → (r = 0 ∨ r = 56) → (∀ x ∈ l, x ∈ L.blocks) → Chain p' r s l := by
    intro r s l hc hr hl
    have hy : ∀ y ∈ r :: l, ∀ j, j + 4 ≤ 16 → p'.word (y + j) 4 = p.word (y + j) 4 := by
      intro y hy j hj
      rcases List.mem_cons.mp hy with rfl | hy
      · exact hlow _ (by omega)
      · exact hhead y (hl y hy) _ (by omega)
    refine hc.congr (fun y h1 => hy y h1 8 (by decide)) (fun y h1 => hy y h1 4 (by decide))
      (fun y h1 => hy y h1 0 (by decide)) (hlow _ ?_) (hlow _ ?_) (hlow _ ?_)
    · simp only [mmposRootDtl]
      omega
    · omega
    · omega
  refine ⟨hchain h.used (.inl rfl) fun x hx => h.mem_used hx, hchain h.free (.inr rfl) fun x hx => h.mem_free hx,
    h.perm, ?_, fun x hx => ?_, ?_⟩
  · exact h.tiles.congr fun x hx => hhead x hx _ (by omega)
  · have hl : len p' x = len p x := hhead x hx _ (by omega)
    have hf : footOf p' x = footOf p x := by rw [footOf, footOf, hl]
    have h1 := (h.item x hx).long
    have hw : ∀ w, footOf p x ≤ w ∧ w + 4 ≤ footOf p x + 16 → p'.word w 4 = p.word w 4 := by
      intro w hw
      simp only [footOf, sizeofMemitemFoot] at hw
      exact Bytes.word_congr fun i h2 h3 => hb i (.inr (.inr (.inr (.inl ⟨x, hx, .inr (by omega)⟩))))
    refine ⟨by rwa [hl], by rw [hl, (h.item x hx).aligned], ?_, ?_⟩
    · rw [hf]
      exact (hw _ (by omega)).trans (h.item x hx).foot
    · rw [hf]
      exact (hw _ (by omega)).trans (h.item x hx).category
  · refine h.bucket.congr fun i hi => hb i ?_
    simp only [Control]
    omega

end NetworkBfd.Smmr.Memory
