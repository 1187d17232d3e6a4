import NetworkBfd.Smmr.Memory.Bucket
import NetworkBfd.Smmr.Memory.Category

/-!
# Pages of a category

What is written on one user page is seen on no other (`page_withPage_of_ne`) and in no bitmap (`isPagebit_withPage`),
and bits and sums are on no user page (`page_pagebit`, `page_putWord`). `Fits c L` says that every user page of the
category is well-formed, with the layout that `L` has for it, and that none is marked as an error page.
-/

namespace NetworkBfd.Smmr.Memory

open Lib

variable {data data' : Bytes} {p : Bytes} {m n : Nat} {b b' : SysPage} {v : Bool}

theorem mem_userPages : n ∈ userPages ↔ 1 ≤ n ∧ n < 1024 := by
  rw [userPages, List.mem_range'_1, pageCnt]

theorem SysPage.index_pos (b : SysPage) : 1 ≤ b.index ∧ b.index ≤ 10 := by
  cases b <;> exact ⟨by decide, by decide⟩

theorem SysPage.index_injective : Function.Injective SysPage.index := by
  intro a b h
  cases a <;> cases b <;> first | rfl | exact absurd h (by decide)

/-! ## User pages -/

theorem page_withPage_self (data : Bytes) (n : Nat) (p : Bytes) : page (withPage data n p) n = p := by
  funext i
  rw [page, withPage, if_pos (Nat.le_add_right _ i), Nat.add_sub_cancel_left]

theorem withPage_page (data : Bytes) (n : Nat) : withPage data n (page data n) = data := by
  funext i
  rw [withPage]
  split
  · rw [page, Nat.add_sub_cancel' ‹_›]
  · rfl

/-- Another page keeps its bytes when the written page keeps those behind its end. -/
theorem page_withPage_of_ne (hne : m ≠ n) (hp : ∀ i, 131072 ≤ i → p i = page data n i) {i : Nat} (hi : i < 131072) :
    page (withPage data n p) m i = page data m i := by
  rw [page, withPage]
  split
  · rename_i hle
    simp only [mmposUsrpage, pageSize] at hle ⊢
    rw [hp _ (by omega)]
    refine congrArg data ?_
    simp only [mmposUsrpage, pageSize]
    omega
  · rfl

theorem withPage_of_lt {i : Nat} (h : i < mmposUsrpage n) : withPage data n p i = data i := by
  rw [withPage, if_neg (by omega)]

theorem bit_of_bytes (hm : m < 1024) (h : ∀ i, 2048 ≤ i → i < 131072 → data' i = data i) :
    isPagebit data' b m = isPagebit data b m := by
  have hb := b.index_pos
  refine Bytes.bit_congr (h _ ?_ ?_)
  all_goals
    simp only [mmposSyspageBmp, syspageSize]
    omega

theorem isPagebit_withPage (hm : m < 1024) (hn : n ∈ userPages) :
    isPagebit (withPage data n p) b m = isPagebit data b m := by
  rw [mem_userPages] at hn
  refine bit_of_bytes hm fun i _ h2 => withPage_of_lt ?_
  simp only [mmposUsrpage, pageSize]
  omega

/-! ## The system page -/

/-- Two memories with the same user pages. -/
def SamePages (data data' : Bytes) : Prop := ∀ i, 131072 ≤ i → data' i = data i

theorem SamePages.page (h : SamePages data data') (hn : n ∈ userPages) : page data' n = page data n := by
  rw [mem_userPages] at hn
  funext i
  refine h _ ?_
  simp only [mmposUsrpage, pageSize]
  omega

theorem SamePages.trans {data'' : Bytes} (h : SamePages data data') (h' : SamePages data' data'') :
    SamePages data data'' := fun i hi => (h' i hi).trans (h i hi)

theorem samePages_pagebit (hn : n < 1024) : SamePages data (pagebit data n v b) := fun i hi => by
  have hb := b.index_pos
  refine Bytes.setBit_of_outside ?_
  simp only [mmposSyspageBmp, syspageSize]
  omega

theorem samePages_pagebits (hn : n < 1024) (bs : List SysPage) : SamePages data (pagebits data n v bs) := by
  induction bs generalizing data with
  | nil => exact fun i _ => rfl
  | cons b bs ih => exact (samePages_pagebit hn).trans ih

theorem samePages_putWord {a w : Nat} (ha : a + 4 ≤ 2048) : SamePages data (data.putWord a 4 w) := fun i hi =>
  Bytes.putWord_of_outside (by omega)

theorem isPagebit_pagebit (hm : m < 1024) (hn : n < 1024) :
    isPagebit (pagebit data n v b) b' m = if b = b' ∧ n = m then v else isPagebit data b' m := by
  have hb := b.index_pos
  have hb' := b'.index_pos
  by_cases heq : b = b'
  · subst heq
    rw [isPagebit, pagebit, Bytes.bit_setBit]
    simp only [true_and]
    rfl
  · have hne : b.index ≠ b'.index := fun h => heq (SysPage.index_injective h)
    rw [if_neg (fun h => heq h.1)]
    refine Bytes.bit_congr (Bytes.setBit_of_outside ?_)
    simp only [mmposSyspageBmp, syspageSize]
    omega

theorem isPagebit_pagebits (hm : m < 1024) (hn : n < 1024) (bs : List SysPage) :
    isPagebit (pagebits data n v bs) b' m = if b' ∈ bs ∧ n = m then v else isPagebit data b' m := by
  induction bs generalizing data with
  | nil => simp [pagebits]
  | cons b bs ih =>
    rw [pagebits, List.foldl_cons]
    refine Eq.trans ih ?_
    rw [isPagebit_pagebit hm hn]
    by_cases h1 : b' ∈ bs <;> by_cases h2 : n = m <;> by_cases h3 : b = b' <;>
      simp [h1, h2, h3, Ne.symm, List.mem_cons]

theorem isPagebit_on (hm : m < 1024) (hn : n < 1024) (bs : List SysPage) :
    isPagebit (pagebits data n true bs) b m = true ↔ (b ∈ bs ∧ n = m) ∨ isPagebit data b m = true := by
  rw [isPagebit_pagebits hm hn]
  by_cases h : b ∈ bs ∧ n = m <;> simp [h]

theorem isPagebit_off (hm : m < 1024) (hn : n < 1024) (bs : List SysPage) :
    isPagebit (pagebits data n false bs) b m = true ↔ ¬(b ∈ bs ∧ n = m) ∧ isPagebit data b m = true := by
  rw [isPagebit_pagebits hm hn]
  by_cases h : b ∈ bs ∧ n = m <;> simp [h]

theorem isPagebit_putWord {a w : Nat} (hm : m < 1024) (ha : a + 4 ≤ 2048) :
    isPagebit (data.putWord a 4 w) b m = isPagebit data b m :=
  bit_of_bytes hm fun i h1 _ => Bytes.putWord_of_outside (by omega)

/-- Two memories with the same page `n` and the same bits for it. -/
structure SameAt (data data' : Bytes) (n : Nat) : Prop where
  bytes : ∀ i, i < 131072 → page data' n i = page data n i
  bit : ∀ b, isPagebit data' b n = isPagebit data b n

theorem SameAt.trans {data'' : Bytes} (h : SameAt data data' n) (h' : SameAt data' data'' n) : SameAt data data'' n :=
  ⟨fun i hi => (h'.bytes i hi).trans (h.bytes i hi), fun b => (h'.bit b).trans (h.bit b)⟩

/-- Words of the system page that are in no bitmap. -/
theorem sameAt_putWord {a w : Nat} (hn : n ∈ userPages) (ha : a + 4 ≤ 2048) : SameAt data (data.putWord a 4 w) n := by
  refine ⟨fun i _ => ?_, fun b => isPagebit_putWord (mem_userPages.mp hn).2 ha⟩
  rw [(samePages_putWord ha).page hn]

/-! ## Well-formed categories -/

/-- A page is as its first 131072 bytes are. -/
theorem PageRep.of_lt {id : Nat} {p p' : Bytes} {L : Layout} (h : PageRep id p L)
    (hp : ∀ i, i < 131072 → p' i = p i) : PageRep id p' L := by
  refine h.congr fun i hi => hp i ?_
  have h1 := h.bckt_le
  rcases hi with h2 | h2 | h2 | ⟨x, hx, h2⟩ | h2
  · omega
  · omega
  · omega
  · have := h.place hx
    omega
  · omega

/-- Every user page of the category is well-formed, and none is an error page. -/
structure Fits (c : Category) (L : Nat → Layout) : Prop where
  rep : ∀ n ∈ userPages, PageRep c.id.toNat (page c.data n) (L n)
  err : ∀ n ∈ userPages, isPagebit c.data .err n = false

namespace Fits

variable {c : Category} {L : Nat → Layout}

/-- One page changes, and keeps what is behind its end. -/
theorem store {L' : Layout} (h : Fits c L) (hn : n ∈ userPages) (hp : PageRep c.id.toNat p L')
    (hfar : ∀ i, 131072 ≤ i → p i = page c.data n i) :
    Fits { c with data := withPage c.data n p } (Function.update L n L') := by
  refine ⟨fun m hm => ?_, fun m hm => ?_⟩
  · by_cases heq : m = n
    · subst heq
      rwa [page_withPage_self, Function.update_self]
    · rw [Function.update_of_ne heq]
      exact (h.rep m hm).of_lt fun i hi => page_withPage_of_ne heq hfar hi
  · rw [isPagebit_withPage (mem_userPages.mp hm).2 hn]
    exact h.err m hm

end Fits

end NetworkBfd.Smmr.Memory
