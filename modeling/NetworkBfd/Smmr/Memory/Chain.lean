import Mathlib.Data.List.Nodup
import NetworkBfd.Smmr.Memory.Page

/-!
# The lists of a page

`Chain p root sig l` says that the items of `l`, under the signature `sig`, are the doubly linked list of `root`.
`detachItem` takes an item out of its list (`Chain.detach`), `attachItem` puts one behind the last (`Chain.attach`), and
neither touches another list (`Chain.detach_other`, `Chain.attach_other`) or anything but links and signatures
(`detachItem_of_outside`, `attachItem_of_outside`).
-/

namespace NetworkBfd.Smmr.Memory

open Lib

variable {p p' : Bytes} {S l l₁ l₂ m : List Nat} {r r' s s' x y v : Nat}

/-! ## Words of a page -/

theorem word_putWord_four {a : Nat} (h : v < 4294967296) : (p.putWord a 4 v).word a 4 = v := by
  rw [Bytes.word_putWord_self]
  exact Nat.mod_eq_of_lt h

/-- The places of the heads on a page: the roots of the two lists, and items that lie apart. -/
structure Spaced (S : List Nat) : Prop where
  place : ∀ y ∈ S, y = 0 ∨ y = 56 ∨ 168 ≤ y ∧ y < 131072
  apart : ∀ y ∈ S, ∀ z ∈ S, y = z ∨ y + 36 ≤ z ∨ z + 36 ≤ y

/-- The byte at `i` belongs to no link, no signature and no last offset. -/
def Outside (S : List Nat) (i : Nat) : Prop :=
  (∀ y ∈ S, i < y ∨ y + 12 ≤ i) ∧ (i < 20 ∨ 24 ≤ i) ∧ (i < 76 ∨ 80 ≤ i)

/-! ## The two operations, with what they read -/

/-- The item at `x` and its neighbours in the list of `r`. -/
structure Neighbours (p : Bytes) (S : List Nat) (r x : Nat) : Prop where
  spaced : Spaced S
  root : r ∈ S
  rootPlace : r = 0 ∨ r = 56
  item : x ∈ S
  prev : prevOffset p x ∈ S
  prevNe : prevOffset p x ≠ x
  next : nextOffset p x = mmflgClose ∨ nextOffset p x ∈ S ∧ nextOffset p x ≠ x ∧ 168 ≤ nextOffset p x

theorem detachItem_eq (h : Neighbours p S r x) : detachItem p r x =
    if nextOffset p x = mmflgClose then
      setLastOffset (setNextOffset p (prevOffset p x) (nextOffset p x)) r (prevOffset p x)
    else setPrevOffset (setNextOffset p (prevOffset p x) (nextOffset p x)) (nextOffset p x) (prevOffset p x) := by
  have h1 := h.spaced.apart _ h.item _ h.prev
  have h2 := h.prevNe
  have hn : nextOffset (setNextOffset p (prevOffset p x) (nextOffset p x)) x = nextOffset p x :=
    Bytes.word_putWord_of_disjoint (by omega)
  have hp : prevOffset (setNextOffset p (prevOffset p x) (nextOffset p x)) x = prevOffset p x :=
    Bytes.word_putWord_of_disjoint (by omega)
  simp only [detachItem, hn, hp]

/-- The item at `x`, and the last item of the list of `r`, which it is put behind. -/
structure Joins (p : Bytes) (S : List Nat) (r x : Nat) : Prop where
  spaced : Spaced S
  root : r ∈ S
  rootPlace : r = 0 ∨ r = 56
  item : x ∈ S
  itemPlace : 168 ≤ x
  last : lastOffset p r ∈ S
  lastNe : lastOffset p r ≠ x

theorem attachItem_eq (h : Joins p S r x) :
    attachItem p r s x =
      setLastOffset (setNextOffset (setPrevOffset (setNextOffset (setSignature p x s) x mmflgClose) x (lastOffset p r))
        (lastOffset p r) x) r x := by
  have h1 := h.spaced.apart _ h.item _ h.root
  have hl : lastOffset (setSignature p x s) r = lastOffset p r :=
    Bytes.word_putWord_of_disjoint (by simp only [mmposRootDtl]; omega)
  have hl' : lastOffset (setNextOffset (setSignature p x s) x mmflgClose) r = lastOffset p r := by
    refine Eq.trans (Bytes.word_putWord_of_disjoint ?_) hl
    simp only [mmposRootDtl]
    omega
  simp only [attachItem, hl, hl']

/-! ## What the operations change -/

section Detach

variable (h : Neighbours p S r x)
include h

theorem detachItem_of_outside {i : Nat} (hi : Outside S i) : detachItem p r x i = p i := by
  obtain ⟨h1, h2, h3⟩ := hi
  have ha := h1 _ h.prev
  have hr := h.rootPlace
  have hset : setNextOffset p (prevOffset p x) (nextOffset p x) i = p i := Bytes.putWord_of_outside (by omega)
  rw [detachItem_eq h]
  split
  · refine (Bytes.putWord_of_outside ?_).trans hset
    simp only [mmposRootDtl]
    omega
  · rename_i hc
    have hn := h1 _ (h.next.resolve_left hc).1
    exact (Bytes.putWord_of_outside (by omega)).trans hset

theorem nextOffset_detachItem (hy : y ∈ S) :
    nextOffset (detachItem p r x) y = if y = prevOffset p x then nextOffset p x else nextOffset p y := by
  have ha := h.spaced.apart _ hy _ h.prev
  have hr := h.spaced.apart _ hy _ h.root
  have hv : nextOffset p x < 4294967296 := Bytes.word_lt p (x + 8) 4
  have hset : nextOffset (setNextOffset p (prevOffset p x) (nextOffset p x)) y =
      if y = prevOffset p x then nextOffset p x else nextOffset p y := by
    split
    · subst y
      exact word_putWord_four hv
    · exact Bytes.word_putWord_of_disjoint (by omega)
  rw [detachItem_eq h, ← hset]
  split
  · refine Bytes.word_putWord_of_disjoint ?_
    simp only [mmposRootDtl]
    omega
  · rename_i hc
    have hn := h.spaced.apart _ hy _ (h.next.resolve_left hc).1
    exact Bytes.word_putWord_of_disjoint (by omega)

theorem prevOffset_detachItem (hy : y ∈ S) :
    prevOffset (detachItem p r x) y =
      if nextOffset p x ≠ mmflgClose ∧ y = nextOffset p x then prevOffset p x else prevOffset p y := by
  have ha := h.spaced.apart _ hy _ h.prev
  have hr := h.spaced.apart _ hy _ h.root
  have hv : prevOffset p x < 4294967296 := Bytes.word_lt p (x + 4) 4
  have hset : prevOffset (setNextOffset p (prevOffset p x) (nextOffset p x)) y = prevOffset p y :=
    Bytes.word_putWord_of_disjoint (by omega)
  rw [detachItem_eq h]
  split
  · rename_i hc
    rw [if_neg (fun hn => hn.1 hc), ← hset]
    refine Bytes.word_putWord_of_disjoint ?_
    simp only [mmposRootDtl]
    omega
  · rename_i hc
    split
    · rename_i hn
      rw [hn.2]
      exact word_putWord_four hv
    · rename_i hn
      have hne : y ≠ nextOffset p x := fun heq => hn ⟨hc, heq⟩
      have hap := h.spaced.apart _ hy _ (h.next.resolve_left hc).1
      rw [← hset]
      exact Bytes.word_putWord_of_disjoint (by omega)

theorem lastOffset_detachItem (hy : y ∈ S) :
    lastOffset (detachItem p r x) y =
      if nextOffset p x = mmflgClose ∧ y = r then prevOffset p x else lastOffset p y := by
  have ha := h.spaced.apart _ hy _ h.prev
  have hr := h.spaced.apart _ hy _ h.root
  have hv : prevOffset p x < 4294967296 := Bytes.word_lt p (x + 4) 4
  have hset : lastOffset (setNextOffset p (prevOffset p x) (nextOffset p x)) y = lastOffset p y := by
    refine Bytes.word_putWord_of_disjoint ?_
    simp only [mmposRootDtl]
    omega
  rw [detachItem_eq h]
  split
  · rename_i hc
    split
    · rename_i hy'
      rw [hy'.2]
      exact word_putWord_four hv
    · rename_i hy'
      have hne : y ≠ r := fun heq => hy' ⟨hc, heq⟩
      rw [← hset]
      refine Bytes.word_putWord_of_disjoint ?_
      simp only [mmposRootDtl]
      omega
  · rename_i hc
    have hn := h.spaced.apart _ hy _ (h.next.resolve_left hc).1
    rw [if_neg (fun hy' => hc hy'.1), ← hset]
    refine Bytes.word_putWord_of_disjoint ?_
    simp only [mmposRootDtl]
    omega

theorem signature_detachItem (hy : y ∈ S) : signature (detachItem p r x) y = signature p y := by
  have ha := h.spaced.apart _ hy _ h.prev
  have hr := h.spaced.apart _ hy _ h.root
  have hset : signature (setNextOffset p (prevOffset p x) (nextOffset p x)) y = signature p y :=
    Bytes.word_putWord_of_disjoint (by omega)
  rw [detachItem_eq h]
  split
  · rw [← hset]
    refine Bytes.word_putWord_of_disjoint ?_
    simp only [mmposRootDtl]
    omega
  · rename_i hc
    have hn := h.spaced.apart _ hy _ (h.next.resolve_left hc).1
    rw [← hset]
    exact Bytes.word_putWord_of_disjoint (by omega)

end Detach

section Attach

variable (h : Joins p S r x)
include h

theorem attachItem_of_outside {i : Nat} (hi : Outside S i) : attachItem p r s x i = p i := by
  obtain ⟨h1, h2, h3⟩ := hi
  have hx := h1 _ h.item
  have ht := h1 _ h.last
  have hr := h.rootPlace
  rw [attachItem_eq h]
  simp only [setLastOffset, setNextOffset, setPrevOffset, setSignature, mmposRootDtl]
  rw [Bytes.putWord_of_outside (by omega), Bytes.putWord_of_outside (by omega), Bytes.putWord_of_outside (by omega),
    Bytes.putWord_of_outside (by omega), Bytes.putWord_of_outside (by omega)]

theorem nextOffset_attachItem (hy : y ∈ S) :
    nextOffset (attachItem p r s x) y =
      if y = lastOffset p r then x else if y = x then mmflgClose else nextOffset p y := by
  have hx := h.spaced.apart _ hy _ h.item
  have ht := h.spaced.apart _ hy _ h.last
  have hr := h.spaced.apart _ hy _ h.root
  have hv := h.spaced.place _ h.item
  rw [attachItem_eq h]
  simp only [nextOffset, setLastOffset, setNextOffset, setPrevOffset, setSignature, mmposRootDtl]
  rw [Bytes.word_putWord_of_disjoint (by omega)]
  split
  · subst y
    exact word_putWord_four (by omega)
  · rw [Bytes.word_putWord_of_disjoint (by omega), Bytes.word_putWord_of_disjoint (by omega)]
    split
    · subst y
      exact word_putWord_four (by decide)
    · rw [Bytes.word_putWord_of_disjoint (by omega), Bytes.word_putWord_of_disjoint (by omega)]

theorem prevOffset_attachItem (hy : y ∈ S) :
    prevOffset (attachItem p r s x) y = if y = x then lastOffset p r else prevOffset p y := by
  have hx := h.spaced.apart _ hy _ h.item
  have ht := h.spaced.apart _ hy _ h.last
  have hr := h.spaced.apart _ hy _ h.root
  have hv := h.spaced.place _ h.last
  rw [attachItem_eq h]
  simp only [prevOffset, setLastOffset, setNextOffset, setPrevOffset, setSignature, mmposRootDtl]
  rw [Bytes.word_putWord_of_disjoint (by omega), Bytes.word_putWord_of_disjoint (by omega)]
  split
  · subst y
    exact word_putWord_four (by omega)
  · rw [Bytes.word_putWord_of_disjoint (by omega), Bytes.word_putWord_of_disjoint (by omega),
      Bytes.word_putWord_of_disjoint (by omega)]

theorem lastOffset_attachItem (hy : y ∈ S) :
    lastOffset (attachItem p r s x) y = if y = r then x else lastOffset p y := by
  have hx := h.spaced.apart _ hy _ h.item
  have ht := h.spaced.apart _ hy _ h.last
  have hr := h.spaced.apart _ hy _ h.root
  have hv := h.spaced.place _ h.item
  rw [attachItem_eq h]
  generalize lastOffset p r = t at ht ⊢
  simp only [lastOffset, setLastOffset, setNextOffset, setPrevOffset, setSignature, mmposRootDtl]
  split
  · subst y
    exact word_putWord_four (by omega)
  · rw [Bytes.word_putWord_of_disjoint (by omega), Bytes.word_putWord_of_disjoint (by omega),
      Bytes.word_putWord_of_disjoint (by omega), Bytes.word_putWord_of_disjoint (by omega),
      Bytes.word_putWord_of_disjoint (by omega)]

theorem signature_attachItem (hs : s < 4294967296) (hy : y ∈ S) :
    signature (attachItem p r s x) y = if y = x then s else signature p y := by
  have hx := h.spaced.apart _ hy _ h.item
  have ht := h.spaced.apart _ hy _ h.last
  have hr := h.spaced.apart _ hy _ h.root
  rw [attachItem_eq h]
  simp only [signature, setLastOffset, setNextOffset, setPrevOffset, setSignature, mmposRootDtl]
  rw [Bytes.word_putWord_of_disjoint (by omega), Bytes.word_putWord_of_disjoint (by omega),
    Bytes.word_putWord_of_disjoint (by omega), Bytes.word_putWord_of_disjoint (by omega)]
  split
  · subst y
    exact word_putWord_four hs
  · exact Bytes.word_putWord_of_disjoint (by omega)

end Attach

/-! ## Chains -/

/-- The items of `l`, signed `s`, are the list of the root at `r`. -/
structure Chain (p : Bytes) (r s : Nat) (l : List Nat) : Prop where
  root : validRoot p r s = true
  linked : Linked (nextOffset p) (prevOffset p) mmflgClose r l
  last : lastOffset p r = l.getLastD r
  signed : ∀ x ∈ l, signature p x = s

theorem validRoot_iff : validRoot p r s = true ↔
    signature p r = s ∧ prevOffset p r = 0 ∧ len p r = 56 ∧ suffix p (r + 40) = mmsigSufx := by
  simp only [validRoot, Bool.and_eq_true, beq_iff_eq, mmposRootSize, mmposRootFoot, and_assoc]

/-- A root whose links keep, but for the next, is a root still. -/
theorem validRoot_congr (hs : signature p' r = signature p r) (hp : prevOffset p' r = prevOffset p r)
    (hl : len p' r = len p r) (hf : suffix p' (r + 40) = suffix p (r + 40)) (h : validRoot p r s = true) :
    validRoot p' r s = true := by
  rw [validRoot_iff] at h ⊢
  rwa [hs, hp, hl, hf]

/-- The length of a root and its suffix are outside of what the operations change. -/
theorem Spaced.rootOutside (h : Spaced S) (hr : r ∈ S) (hroot : r = 0 ∨ r = 56) {i : Nat}
    (hi : r + 12 ≤ i ∧ i < r + 16 ∨ r + 44 ≤ i ∧ i < r + 48) : Outside S i := by
  refine ⟨fun y hy => ?_, ?_, ?_⟩
  · have h1 := h.apart _ hy _ hr
    have h2 := h.place _ hy
    omega
  · omega
  · omega

section Moves

variable (hd : Spaced S) (hr : r ∈ S) (hroot : r = 0 ∨ r = 56)
include hd hr hroot

theorem len_root_congr (h : ∀ i, Outside S i → p' i = p i) : len p' r = len p r :=
  Bytes.word_congr fun i h1 h2 => h i (hd.rootOutside hr hroot (.inl ⟨h1, by omega⟩))

theorem suffix_root_congr (h : ∀ i, Outside S i → p' i = p i) : suffix p' (r + 40) = suffix p (r + 40) :=
  Bytes.word_congr fun i h1 h2 => h i (hd.rootOutside hr hroot (.inr ⟨by omega, by omega⟩))

end Moves

/-- The items of `l` have their heads among `S`, behind the roots, and none is twice in `l`. -/
structure Members (S : List Nat) (r : Nat) (l : List Nat) : Prop where
  spaced : Spaced S
  root : r ∈ S
  rootPlace : r = 0 ∨ r = 56
  item : ∀ x ∈ l, x ∈ S ∧ 168 ≤ x
  nodup : l.Nodup

namespace Members

theorem nodup_cons (h : Members S r l) : (r :: l).Nodup := by
  refine List.nodup_cons.mpr ⟨fun hm => ?_, h.nodup⟩
  have h1 := (h.item r hm).2
  have h2 := h.rootPlace
  omega

theorem mem (h : Members S r l) (hx : x ∈ r :: l) : x ∈ S := by
  rcases List.mem_cons.mp hx with rfl | hx
  · exact h.root
  · exact (h.item x hx).1

end Members

namespace Chain

/-- A list stays where its links, its signatures and its root do. -/
theorem congr (h : Chain p r s l) (hn : ∀ y ∈ r :: l, nextOffset p' y = nextOffset p y)
    (hp : ∀ y ∈ r :: l, prevOffset p' y = prevOffset p y) (hs : ∀ y ∈ r :: l, signature p' y = signature p y)
    (hlast : lastOffset p' r = lastOffset p r) (hlen : len p' r = len p r)
    (hsuf : suffix p' (r + 40) = suffix p (r + 40)) : Chain p' r s l := by
  refine ⟨?_, ?_, hlast.trans h.last, ?_⟩
  · exact validRoot_congr (hs r List.mem_cons_self) (hp r List.mem_cons_self) hlen hsuf h.root
  · exact h.linked.congr hn fun y hy => hp y (List.mem_cons_of_mem r hy)
  · intro y hy
    rw [hs y (List.mem_cons_of_mem r hy)]
    exact h.signed y hy

/-- One more item behind the last. -/
theorem push (h : Chain p r s l) (hnd : (r :: l).Nodup)
    (hlastn : nextOffset p' (l.getLastD r) = x) (hn : ∀ y ∈ r :: l, y ≠ l.getLastD r → nextOffset p' y = nextOffset p y)
    (hp : ∀ y ∈ r :: l, prevOffset p' y = prevOffset p y) (hs : ∀ y ∈ r :: l, signature p' y = signature p y)
    (hx : nextOffset p' x = mmflgClose ∧ prevOffset p' x = l.getLastD r ∧ signature p' x = s)
    (hlast : lastOffset p' r = x) (hlen : len p' r = len p r) (hsuf : suffix p' (r + 40) = suffix p (r + 40)) :
    Chain p' r s (l ++ [x]) := by
  refine ⟨?_, ?_, ?_, ?_⟩
  · exact validRoot_congr (hs r List.mem_cons_self) (hp r List.mem_cons_self) hlen hsuf h.root
  · exact h.linked.push hnd hlastn hn (fun y hy => hp y (List.mem_cons_of_mem r hy)) hx.1 hx.2.1
  · rw [hlast, List.getLastD_concat]
  · intro y hy
    rcases List.mem_append.mp hy with hy | hy
    · rw [hs y (List.mem_cons_of_mem r hy)]
      exact h.signed y hy
    · rw [List.mem_singleton.mp hy]
      exact hx.2.2

/-- What the head of an item in the list says. -/
theorem links (h : Chain p r s (l₁ ++ x :: l₂)) :
    prevOffset p x = l₁.getLastD r ∧ nextOffset p x = l₂.headD mmflgClose :=
  ⟨h.linked.split.1, h.linked.split.2.next_eq⟩

theorem neighbours (h : Chain p r s (l₁ ++ x :: l₂)) (hm : Members S r (l₁ ++ x :: l₂)) : Neighbours p S r x := by
  obtain ⟨hp, hn⟩ := h.links
  have hx : x ∈ l₁ ++ x :: l₂ := List.mem_append_right _ List.mem_cons_self
  have hlast : l₁.getLastD r ∈ r :: l₁ := getLastD_mem l₁ r
  have hnd := hm.nodup_cons
  refine ⟨hm.spaced, hm.root, hm.rootPlace, (hm.item x hx).1, ?_, ?_, ?_⟩
  · rw [hp]
    exact hm.mem (List.mem_append_left _ hlast)
  · rw [hp]
    intro heq
    rw [heq] at hlast
    rw [← List.cons_append, List.nodup_append] at hnd
    exact hnd.2.2 x hlast x List.mem_cons_self rfl
  · rw [hn]
    cases l₂ with
    | nil => exact .inl rfl
    | cons y l₂ =>
      have hy := hm.item y (List.mem_append_right _ (List.mem_cons_of_mem x List.mem_cons_self))
      refine .inr ⟨hy.1, ?_, hy.2⟩
      rintro rfl
      have hnd' := (List.nodup_append.mp hm.nodup).2.1
      exact (List.nodup_cons.mp hnd').1 List.mem_cons_self

theorem headD_eq_close (hm : Members S r (l₁ ++ x :: l₂)) (h : l₂.headD mmflgClose = mmflgClose) : l₂ = [] := by
  cases l₂ with
  | nil => rfl
  | cons y l₂ =>
    have h1 := hm.item y (List.mem_append_right _ (List.mem_cons_of_mem x List.mem_cons_self))
    have h2 := hm.spaced.place y h1.1
    have h3 : y = 4294967295 := h
    omega

/-- The item at `x` is out of the list. -/
theorem detach (h : Chain p r s (l₁ ++ x :: l₂)) (hm : Members S r (l₁ ++ x :: l₂)) :
    Chain (detachItem p r x) r s (l₁ ++ l₂) := by
  have hb := h.neighbours hm
  obtain ⟨hp, hn⟩ := h.links
  have hframe := fun i => detachItem_of_outside hb (i := i)
  have hsub : ∀ y ∈ l₁ ++ l₂, y ∈ l₁ ++ x :: l₂ := fun _ hy =>
    ((List.sublist_cons_self x l₂).append_left l₁).subset hy
  refine ⟨?_, ?_, ?_, ?_⟩
  · refine validRoot_congr (signature_detachItem hb hm.root) ?_ (len_root_congr hm.spaced hm.root hm.rootPlace hframe)
      (suffix_root_congr hm.spaced hm.root hm.rootPlace hframe) h.root
    rw [prevOffset_detachItem hb hm.root, if_neg]
    rintro ⟨h1, h2⟩
    have h3 := (hb.next.resolve_left h1).2.2
    have h4 := hm.rootPlace
    omega
  · refine h.linked.unlink hm.nodup_cons ?_ ?_ ?_ ?_
    · rw [← hp, nextOffset_detachItem hb hb.prev, if_pos rfl]
    · intro y hy hne
      have hmem : y ∈ S := by
        rcases List.mem_cons.mp hy with rfl | hy
        · exact hm.root
        · exact (hm.item y (hsub y hy)).1
      rw [nextOffset_detachItem hb hmem, if_neg (by rwa [hp])]
    · intro y hy
      have hy' : nextOffset p x = y := by
        rw [hn, List.headD_eq_head?_getD, hy, Option.getD_some]
      have hmem := hm.item y (List.mem_append_right _ (List.mem_cons_of_mem x (List.mem_of_mem_head? hy)))
      have hplace := hm.spaced.place y hmem.1
      rw [prevOffset_detachItem hb hmem.1, if_pos]
      refine ⟨?_, hy'.symm⟩
      rw [hy', mmflgClose]
      omega
    · intro y hy hne
      rw [prevOffset_detachItem hb (hm.item y (hsub y hy)).1, if_neg]
      rintro ⟨h1, h2⟩
      rw [hn] at h1 h2
      cases l₂ with
      | nil => exact h1 rfl
      | cons z l₂ => exact hne (congrArg some h2.symm)
  · rw [lastOffset_detachItem hb hm.root]
    split
    · rename_i hc
      rw [hn] at hc
      rw [headD_eq_close hm hc.1, List.append_nil, hp]
    · rename_i hc
      cases l₂ with
      | nil => exact absurd ⟨hn, rfl⟩ hc
      | cons y l₂ => rw [h.last, getLastD_append_cons, getLastD_append_cons, List.getLastD_cons]
  · intro y hy
    rw [signature_detachItem hb (hm.item y (hsub y hy)).1]
    exact h.signed y (hsub y hy)

/-- A list that the item and its neighbours are not in stays. -/
theorem detach_other (h : Chain p r' s' m) (hm : Members S r' m) (hb : Neighbours p S r x) (hne : r' ≠ r)
    (hp : prevOffset p x ∉ r' :: m) (hn : nextOffset p x ∉ m) : Chain (detachItem p r x) r' s' m := by
  have hframe := fun i => detachItem_of_outside hb (i := i)
  refine h.congr (fun y hy => ?_) (fun y hy => ?_) (fun y hy => signature_detachItem hb (hm.mem hy)) ?_
    (len_root_congr hm.spaced hm.root hm.rootPlace hframe) (suffix_root_congr hm.spaced hm.root hm.rootPlace hframe)
  · rw [nextOffset_detachItem hb (hm.mem hy), if_neg]
    rintro rfl
    exact hp hy
  · rw [prevOffset_detachItem hb (hm.mem hy), if_neg]
    rintro ⟨h1, rfl⟩
    rcases List.mem_cons.mp hy with h2 | h2
    · have h3 := (hb.next.resolve_left h1).2.2
      have h4 := hm.rootPlace
      omega
    · exact hn h2
  · rw [lastOffset_detachItem hb hm.root, if_neg (fun hc => hne hc.2)]

theorem joins (h : Chain p r s m) (hm : Members S r m) (hx : x ∈ S) (hplace : 168 ≤ x) (hnot : x ∉ m) :
    Joins p S r x := by
  have hlast : m.getLastD r ∈ r :: m := getLastD_mem m r
  refine ⟨hm.spaced, hm.root, hm.rootPlace, hx, hplace, ?_, ?_⟩
  · rw [h.last]
    exact hm.mem hlast
  · rw [h.last]
    intro heq
    rw [heq] at hlast
    have h1 := hm.rootPlace
    rcases List.mem_cons.mp hlast with rfl | h2
    · omega
    · exact hnot h2

/-- The item at `x` is the last of the list. -/
theorem attach (h : Chain p r s m) (hm : Members S r m) (hb : Joins p S r x) (hnot : x ∉ m) (hs : s < 4294967296) :
    Chain (attachItem p r s x) r s (m ++ [x]) := by
  have hframe := fun i => attachItem_of_outside (s := s) hb (i := i)
  have hne : ∀ y ∈ r :: m, y ≠ x := by
    intro y hy
    rcases List.mem_cons.mp hy with rfl | hy
    · have h1 := hb.rootPlace
      have h2 := hb.itemPlace
      omega
    · rintro rfl
      exact hnot hy
  refine h.push hm.nodup_cons ?_ (fun y hy hlast => ?_) (fun y hy => ?_) (fun y hy => ?_) ⟨?_, ?_, ?_⟩ ?_
    (len_root_congr hm.spaced hm.root hm.rootPlace hframe) (suffix_root_congr hm.spaced hm.root hm.rootPlace hframe)
  · rw [← h.last, nextOffset_attachItem hb hb.last, if_pos rfl]
  · rw [nextOffset_attachItem hb (hm.mem hy), if_neg (by rwa [h.last]), if_neg (hne y hy)]
  · rw [prevOffset_attachItem hb (hm.mem hy), if_neg (hne y hy)]
  · rw [signature_attachItem hb hs (hm.mem hy), if_neg (hne y hy)]
  · rw [nextOffset_attachItem hb hb.item, if_neg hb.lastNe.symm, if_pos rfl]
  · rw [prevOffset_attachItem hb hb.item, if_pos rfl, h.last]
  · rw [signature_attachItem hb hs hb.item, if_pos rfl]
  · rw [lastOffset_attachItem hb hm.root, if_pos rfl]

/-- A list that neither the item nor the last of its new list is in stays. -/
theorem attach_other (h : Chain p r' s' l) (hm : Members S r' l) (hb : Joins p S r x) (hne : r' ≠ r)
    (hx : x ∉ l) (hlast : lastOffset p r ∉ r' :: l) (hs : s < 4294967296) : Chain (attachItem p r s x) r' s' l := by
  have hframe := fun i => attachItem_of_outside (s := s) hb (i := i)
  have hx' : ∀ y ∈ r' :: l, y ≠ x := by
    intro y hy
    rcases List.mem_cons.mp hy with rfl | hy
    · have h1 := hm.rootPlace
      have h2 := hb.itemPlace
      omega
    · rintro rfl
      exact hx hy
  refine h.congr (fun y hy => ?_) (fun y hy => ?_) (fun y hy => ?_) ?_
    (len_root_congr hm.spaced hm.root hm.rootPlace hframe) (suffix_root_congr hm.spaced hm.root hm.rootPlace hframe)
  · rw [nextOffset_attachItem hb (hm.mem hy), if_neg, if_neg (hx' y hy)]
    rintro rfl
    exact hlast hy
  · rw [prevOffset_attachItem hb (hm.mem hy), if_neg (hx' y hy)]
  · rw [signature_attachItem hb hs (hm.mem hy), if_neg (hx' y hy)]
  · rw [lastOffset_attachItem hb hm.root, if_neg hne]

end Chain

/-- An item moves from the list of `r` to the list of `r'`. -/
theorem move_chains (h : Chain p r s (l₁ ++ x :: l₂)) (h' : Chain p r' s' m) (hm : Members S r (l₁ ++ x :: l₂))
    (hm' : Members S r' m) (hne : r ≠ r') (hd : ∀ y ∈ l₁ ++ x :: l₂, y ∉ m) (hs : s' < 4294967296) :
    Chain (attachItem (detachItem p r x) r' s' x) r s (l₁ ++ l₂) ∧
      Chain (attachItem (detachItem p r x) r' s' x) r' s' (m ++ [x]) ∧
      ∀ i, Outside S i → attachItem (detachItem p r x) r' s' x i = p i := by
  have hb := h.neighbours hm
  obtain ⟨hp, hn⟩ := h.links
  have hx : x ∈ l₁ ++ x :: l₂ := List.mem_append_right _ List.mem_cons_self
  have hr := hm.rootPlace
  have hr' := hm'.rootPlace
  have hroot : ∀ y ∈ l₁ ++ x :: l₂, y ≠ r' := by
    intro y hy
    have := (hm.item y hy).2
    omega
  have hroot' : ∀ y ∈ m, y ≠ r := by
    intro y hy
    have := (hm'.item y hy).2
    omega
  have hprev : prevOffset p x ∉ r' :: m := by
    rw [hp, List.mem_cons]
    have hlast := getLastD_mem l₁ r
    rcases List.mem_cons.mp hlast with h1 | h1
    · rw [h1]
      rintro (h2 | h2)
      · exact hne h2
      · exact hroot' r h2 rfl
    · rintro (h2 | h2)
      · exact hroot _ (List.mem_append_left _ h1) h2
      · exact hd _ (List.mem_append_left _ h1) h2
  have hnext : nextOffset p x ∉ m := by
    rw [hn]
    cases l₂ with
    | nil =>
      intro h1
      have h2 := hm'.spaced.place _ (hm'.item _ h1).1
      simp only [List.headD_nil, mmflgClose] at h2
      omega
    | cons y l₂ => exact hd y (List.mem_append_right _ (List.mem_cons_of_mem x List.mem_cons_self))
  have h1 := h.detach hm
  have h2 := h'.detach_other hm' hb hne.symm hprev hnext
  have hsub : ∀ y ∈ l₁ ++ l₂, y ∈ l₁ ++ x :: l₂ := fun _ hy =>
    ((List.sublist_cons_self x l₂).append_left l₁).subset hy
  have hm1 : Members S r (l₁ ++ l₂) := by
    refine ⟨hm.spaced, hm.root, hm.rootPlace, fun y hy => hm.item y (hsub y hy), ?_⟩
    exact (List.nodup_middle.mp hm.nodup).of_cons
  have hj := h2.joins hm' (hm.item x hx).1 (hm.item x hx).2 (hd x hx)
  refine ⟨h1.attach_other hm1 hj hne ?_ ?_ hs, h2.attach hm' hj (hd x hx) hs, fun i hi => ?_⟩
  · exact (List.nodup_cons.mp (List.nodup_middle.mp hm.nodup)).1
  · rw [h2.last, List.mem_cons]
    rcases List.mem_cons.mp (getLastD_mem m r') with h3 | h3
    · rw [h3]
      rintro (h4 | h4)
      · exact hne h4.symm
      · exact hroot r' (hsub r' h4) rfl
    · rintro (h4 | h4)
      · exact hroot' _ h3 h4
      · exact hd _ (hsub _ h4) h3
  · rw [attachItem_of_outside hj hi, detachItem_of_outside hb hi]

end NetworkBfd.Smmr.Memory
