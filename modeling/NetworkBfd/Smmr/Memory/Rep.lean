import Mathlib.Data.List.Find
import NetworkBfd.Lib.Tiling
import NetworkBfd.Smmr.Memory.Chain

/-!
# What a well-formed page holds

`PageRep id p L` says that the page `p` of category `id` has the layout `L`: its used list, its recycle list and its
bucket, whose items tile the space behind the roots. The operations on a page keep it and change the layout as they
should: `PageRep.released`, `PageRep.recycled`, `PageRep.inserted` and `PageRep.shrunk`.
-/

namespace NetworkBfd.Smmr.Memory

open Lib

variable {id a : Nat} {p p' : Bytes}

/-- The items of the two lists, the items in the order of their places, and the place of the bucket. -/
structure Layout where
  used : List Nat
  free : List Nat
  blocks : List Nat
  bckt : Nat
deriving DecidableEq, Repr

/-- An item is of whole words, with room for its head and its foot; the foot is that of an item of the category. -/
structure Item (id : Nat) (p : Bytes) (x : Nat) : Prop where
  long : 36 ≤ len p x
  aligned : len p x % 4 = 0
  foot : suffix p (footOf p x) = mmsigSufx
  category : footCategoryId p (footOf p x) = id

/-- The bucket starts at `b` and reaches to the end of the space. -/
structure Bucket (p : Bytes) (b : Nat) : Prop where
  root : validRoot p mmposBcktRoot mmsigBckt = true
  next : nextOffset p mmposBcktRoot = b
  signed : signature p b = mmsigBckt
  prev : prevOffset p b = mmposBcktRoot
  close : nextOffset p b = mmflgClose
  size : b + len p b = mmposBcktInit + mmsizBcktInitSize

/-- The page has the layout `L`. -/
structure PageRep (id : Nat) (p : Bytes) (L : Layout) : Prop where
  used : Chain p mmposUsedRoot mmsigUsed L.used
  free : Chain p mmposFreeRoot mmsigFree L.free
  perm : (L.used ++ L.free).Perm L.blocks
  tiles : Tiles (len p) mmposBcktInit L.blocks L.bckt
  item : ∀ x ∈ L.blocks, Item id p x
  bucket : Bucket p L.bckt

/-- The heads of the lists on a page. -/
def Layout.heads (L : Layout) : List Nat := 0 :: 56 :: L.blocks

namespace PageRep

variable {L : Layout} {x y : Nat}

theorem bckt_le (h : PageRep id p L) : 168 ≤ L.bckt ∧ L.bckt ≤ 131016 := by
  have h1 := h.tiles.le
  have h2 := h.bucket.size
  simp only [mmposBcktInit, mmsizBcktInitSize] at h1 h2
  omega

/-- The place of an item. -/
theorem place (h : PageRep id p L) (hx : x ∈ L.blocks) :
    168 ≤ x ∧ 36 ≤ len p x ∧ x + len p x ≤ L.bckt ∧ L.bckt ≤ 131016 := by
  have h1 := h.tiles.bounds hx
  have h2 := (h.item x hx).long
  have h3 := h.bckt_le
  simp only [mmposBcktInit] at h1
  omega

theorem apart (h : PageRep id p L) (hx : x ∈ L.blocks) (hy : y ∈ L.blocks) (hne : x ≠ y) :
    x + len p x ≤ y ∨ y + len p y ≤ x :=
  h.tiles.apart hx hy hne

theorem mem_used (h : PageRep id p L) (hx : x ∈ L.used) : x ∈ L.blocks :=
  h.perm.subset (List.mem_append_left _ hx)

theorem mem_free (h : PageRep id p L) (hx : x ∈ L.free) : x ∈ L.blocks :=
  h.perm.subset (List.mem_append_right _ hx)

theorem nodup_blocks (h : PageRep id p L) : L.blocks.Nodup :=
  h.tiles.nodup fun x hx => by
    have := (h.item x hx).long
    omega

theorem nodup (h : PageRep id p L) : (L.used ++ L.free).Nodup := h.perm.nodup_iff.mpr h.nodup_blocks

theorem spaced (h : PageRep id p L) : Spaced L.heads := by
  constructor
  · intro y hy
    simp only [Layout.heads, List.mem_cons] at hy
    rcases hy with rfl | rfl | hy
    · exact .inl rfl
    · exact .inr (.inl rfl)
    · have := h.place hy
      omega
  · intro y hy z hz
    simp only [Layout.heads, List.mem_cons] at hy hz
    rcases hy with rfl | rfl | hy <;> rcases hz with rfl | rfl | hz
    · exact .inl rfl
    · omega
    · have := h.place hz
      omega
    · omega
    · exact .inl rfl
    · have := h.place hz
      omega
    · have := h.place hy
      omega
    · have := h.place hy
      omega
    · by_cases heq : y = z
      · exact .inl heq
      · have h1 := h.apart hy hz heq
        have h2 := h.place hy
        have h3 := h.place hz
        omega

theorem members_used (h : PageRep id p L) : Members L.heads 0 L.used where
  spaced := h.spaced
  root := List.mem_cons_self
  rootPlace := .inl rfl
  item _ hx := ⟨List.mem_cons_of_mem 0 (List.mem_cons_of_mem 56 (h.mem_used hx)), (h.place (h.mem_used hx)).1⟩
  nodup := (List.nodup_append.mp h.nodup).1

theorem members_free (h : PageRep id p L) : Members L.heads 56 L.free where
  spaced := h.spaced
  root := List.mem_cons_of_mem 0 List.mem_cons_self
  rootPlace := .inr rfl
  item _ hx := ⟨List.mem_cons_of_mem 0 (List.mem_cons_of_mem 56 (h.mem_free hx)), (h.place (h.mem_free hx)).1⟩
  nodup := (List.nodup_append.mp h.nodup).2.1

theorem disjoint (h : PageRep id p L) (hx : x ∈ L.used) : x ∉ L.free := fun hm =>
  (List.nodup_append.mp h.nodup).2.2 x hx x hm rfl

end PageRep

/-! ## Items and the bucket where their bytes stay -/

variable {L : Layout} {x : Nat}

theorem len_congr (h : ∀ i, x + 12 ≤ i → i < x + 16 → p' i = p i) : len p' x = len p x :=
  Bytes.word_congr fun i h1 h2 => h i h1 (by omega)

/-- The items keep their lengths when their bytes stay. -/
theorem PageRep.lens_congr (h : PageRep id p L) (hb : ∀ i, 168 ≤ i → i < 131072 → p' i = p i) :
    (∀ x ∈ L.blocks, len p' x = len p x) ∧ L.used.map (len p') = L.used.map (len p) ∧
      L.free.map (len p') = L.free.map (len p) := by
  have hlen : ∀ x ∈ L.blocks, len p' x = len p x := by
    intro x hx
    have := h.place hx
    exact len_congr fun i h1 h2 => hb i (by omega) (by omega)
  exact ⟨hlen, List.map_congr_left fun x hx => hlen x (h.mem_used hx),
    List.map_congr_left fun x hx => hlen x (h.mem_free hx)⟩

theorem Item.congr (h : Item id p x) (hb : ∀ i, x + 12 ≤ i → i < x + len p x → p' i = p i) :
    Item id p' x := by
  have h1 := h.long
  have hl : len p' x = len p x := len_congr fun i h2 h3 => hb i h2 (by omega)
  have hf : footOf p' x = footOf p x := by rw [footOf, footOf, hl]
  refine ⟨by rwa [hl], by rw [hl, h.aligned], ?_, ?_⟩
  · rw [hf, ← h.foot]
    refine Bytes.word_congr fun i h2 h3 => hb i ?_ ?_
    all_goals
      simp only [footOf, sizeofMemitemFoot] at h2 h3
      omega
  · rw [hf, ← h.category]
    refine Bytes.word_congr fun i h2 h3 => hb i ?_ ?_
    all_goals
      simp only [footOf, sizeofMemitemFoot] at h2 h3
      omega

theorem Bucket.congr {b : Nat} (h : Bucket p b) (hb : ∀ i, 112 ≤ i ∧ i < 168 ∨ b ≤ i ∧ i < b + 16 → p' i = p i) :
    Bucket p' b := by
  obtain ⟨h1, h2, h3, h4, h5, h6⟩ := h
  have hw : ∀ j, 112 ≤ j ∧ j + 4 ≤ 168 ∨ b ≤ j ∧ j + 4 ≤ b + 16 → p'.word j 4 = p.word j 4 := fun j hj =>
    Bytes.word_congr fun i h2 h3 => hb i (by omega)
  refine ⟨?_, (hw _ (by simp only [mmposBcktRoot]; omega)).trans h2, (hw _ (by omega)).trans h3,
    (hw _ (by omega)).trans h4, (hw _ (by omega)).trans h5, ?_⟩
  · refine validRoot_congr (hw _ ?_) (hw _ ?_) (hw _ ?_) (hw _ ?_) h1
    all_goals
      simp only [mmposBcktRoot]
      omega
  · rw [← h6]
    exact congrArg _ (hw _ (by omega))

namespace PageRep

/-- Bytes that are no link: the bodies of items from their lengths on, the root of the bucket, and the bucket. -/
theorem outside {i : Nat} (h : PageRep id p L)
    (hi : (∃ x ∈ L.blocks, x + 12 ≤ i ∧ i < x + len p x) ∨ 112 ≤ i ∧ i < 168 ∨ L.bckt ≤ i) : Outside L.heads i := by
  have hle := h.bckt_le
  have hfar : 112 ≤ i := by
    rcases hi with ⟨x, hx, h1, -⟩ | h1 | h1
    · have := h.place hx
      omega
    · exact h1.1
    · omega
  refine ⟨fun y hy => ?_, by omega, by omega⟩
  simp only [Layout.heads, List.mem_cons] at hy
  rcases hy with rfl | rfl | hy
  · omega
  · omega
  · have h2 := h.place hy
    rcases hi with ⟨x, hx, h3, h4⟩ | h3 | h3
    · by_cases heq : x = y
      · subst heq
        omega
      · have := h.apart hx hy heq
        have := h.place hx
        omega
    · omega
    · omega

/-- Where only links change, items and bucket stay. -/
theorem of_outside (h : PageRep id p L) (hb : ∀ i, Outside L.heads i → p' i = p i) :
    Tiles (len p') mmposBcktInit L.blocks L.bckt ∧ (∀ x ∈ L.blocks, Item id p' x) ∧ Bucket p' L.bckt := by
  have hitem : ∀ x ∈ L.blocks, ∀ i, x + 12 ≤ i → i < x + len p x → p' i = p i := fun x hx i h1 h2 =>
    hb i (h.outside (.inl ⟨x, hx, h1, h2⟩))
  refine ⟨h.tiles.congr fun x hx => len_congr fun i h1 h2 => hitem x hx i h1 ?_, fun x hx => ?_, ?_⟩
  · have := h.place hx
    omega
  · exact (h.item x hx).congr (hitem x hx)
  · refine h.bucket.congr fun i hi => hb i (h.outside (.inr ?_))
    omega

end PageRep

/-! ## Items change lists -/

namespace PageRep

variable {l₁ l₂ : List Nat}

/-- A used item is released. -/
theorem released (h : PageRep id p L) (hu : L.used = l₁ ++ x :: l₂) :
    PageRep id (releaseItem p x) { L with used := l₁ ++ l₂, free := L.free ++ [x] } ∧
      ∀ i, Outside L.heads i → releaseItem p x i = p i := by
  have hused := h.used
  have hmem := h.members_used
  rw [hu] at hused hmem
  obtain ⟨h1, h2, h3⟩ := move_chains hused h.free hmem h.members_free (by decide)
    (fun y hy => h.disjoint (hu ▸ hy)) (by decide)
  obtain ⟨h4, h5, h6⟩ := h.of_outside h3
  refine ⟨⟨h1, h2, ?_, h4, h5, h6⟩, h3⟩
  refine List.Perm.trans ?_ h.perm
  rw [hu, List.append_assoc, List.append_assoc, List.cons_append]
  refine List.Perm.append_left l₁ ?_
  rw [← List.append_assoc]
  exact List.perm_append_singleton x (l₂ ++ L.free)

/-- A free item is recycled. -/
theorem recycled (h : PageRep id p L) (hf : L.free = l₁ ++ x :: l₂) :
    PageRep id (attachItem (detachItem p mmposFreeRoot x) mmposUsedRoot mmsigUsed x)
        { L with used := L.used ++ [x], free := l₁ ++ l₂ } ∧
      ∀ i, Outside L.heads i → attachItem (detachItem p mmposFreeRoot x) mmposUsedRoot mmsigUsed x i = p i := by
  have hfree := h.free
  have hmem := h.members_free
  rw [hf] at hfree hmem
  obtain ⟨h1, h2, h3⟩ := move_chains hfree h.used hmem h.members_used (by decide)
    (fun y hy hm => h.disjoint hm (hf ▸ hy)) (by decide)
  obtain ⟨h4, h5, h6⟩ := h.of_outside h3
  refine ⟨⟨h2, h1, ?_, h4, h5, h6⟩, h3⟩
  refine List.Perm.trans ?_ h.perm
  rw [hf, List.append_assoc, List.singleton_append]
  exact List.Perm.append_left L.used List.perm_middle.symm

end PageRep

/-! ## Walks -/

theorem validItem_iff {s lo f : Nat} : validItem p s lo x f = true ↔
    x < 131072 ∧ signature p x = s ∧ lo ≤ len p x ∧ suffix p f = mmsigSufx := by
  simp only [validItem, Bool.and_eq_true, decide_eq_true_eq, beq_iff_eq, and_assoc]
  exact Iff.rfl

namespace PageRep

theorem length_le (h : PageRep id p L) : L.blocks.length < 131016 := by
  have h1 := h.tiles.length_le fun x hx => (h.item x hx).long
  have h2 := h.bckt_le
  simp only [mmposBcktInit] at h1
  omega

theorem validItem_of_mem {lo s : Nat} (h : PageRep id p L) (hx : x ∈ L.blocks) (hs : signature p x = s)
    (hlo : lo ≤ 36) : validItem p s lo x (footOf p x) = true := by
  have h1 := h.place hx
  exact validItem_iff.mpr ⟨by omega, hs, by omega, (h.item x hx).foot⟩

theorem visited_chain {lo r s : Nat} {l : List Nat} (h : PageRep id p L) (hc : Chain p r s l)
    (hr : r < 131072) (hl : ∀ x ∈ l, x ∈ L.blocks) (hle : l.length ≤ L.blocks.length) (hlo : lo ≤ 36) :
    visited p s lo r = (r :: l, true) := by
  obtain ⟨h1, -, h3, h4⟩ := validRoot_iff.mp hc.root
  have hvalid : validItem p s lo r (r + mmposRootFoot) = true := validItem_iff.mpr ⟨hr, h1, by omega, h4⟩
  have hlen := h.length_le
  rw [visited, hvalid]
  refine follow_linked hc.linked (fun y hy heq => ?_) (fun y hy => ?_) ?_
  · have h5 := h.place (hl y hy)
    simp only [mmflgClose] at heq
    omega
  · exact h.validItem_of_mem (hl y hy) (hc.signed y hy) hlo
  · simp only [uintMax]
    omega

theorem visited_used {lo : Nat} (h : PageRep id p L) (hlo : lo ≤ 36) :
    visited p mmsigUsed lo mmposUsedRoot = (0 :: L.used, true) := by
  refine h.visited_chain h.used (by decide) (fun x hx => h.mem_used hx) ?_ hlo
  have := h.perm.length_eq
  rw [List.length_append] at this
  omega

theorem items_used {lo : Nat} (h : PageRep id p L) (hlo : lo ≤ 36) :
    (visited p mmsigUsed lo mmposUsedRoot).1 = 0 :: L.used := by
  rw [h.visited_used hlo]

theorem visited_free {lo : Nat} (h : PageRep id p L) (hlo : lo ≤ 36) :
    visited p mmsigFree lo mmposFreeRoot = (56 :: L.free, true) := by
  refine h.visited_chain h.free (by decide) (fun x hx => h.mem_free hx) ?_ hlo
  have := h.perm.length_eq
  rw [List.length_append] at this
  omega

/-- The first item of the recycle list that is long enough. -/
theorem findFreeitemOverSize_eq (h : PageRep id p L) (ha : 0 < a) :
    findFreeitemOverSize p a = (L.free.find? fun x => decide (32 + a ≤ len p x)).getD 0 := by
  have hne : ∀ x ∈ L.free, x ≠ 56 := fun x hx => by
    have := h.place (h.mem_free hx)
    omega
  rw [findFreeitemOverSize, if_neg (by omega), h.visited_free (by decide)]
  simp only []
  rw [List.find?_cons_of_neg (by simp)]
  congr 1
  refine List.find?_congr fun x hx => ?_
  simp only [mmposFreeRoot, mmsizHfSize, ne_eq, hne x hx, not_false_eq_true, true_and]

end PageRep

end NetworkBfd.Smmr.Memory
