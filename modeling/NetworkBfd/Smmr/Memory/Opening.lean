import NetworkBfd.Smmr.Memory.Reuse

/-!
# Opening a category again

`create_tree_unsafe` attaches the root record of the index, an item of its length whose first word is
`SMMR_TREEROOT_ID`, and allocates one where it finds none. `Opened` are the states of a category file that started empty
and was opened. From then on tree operations access it (`TreeAccess`), its statistics are rebuilt and it is opened
again, in any order. In each state all items but the root record have the length of a node block (`Rooted`), so every
open attaches the record of the first one and changes nothing (`Opened.root_record`).
-/

namespace NetworkBfd.Smmr.Memory

open Lib

/-- `SMMR_TREEROOT_ID`. -/
@[simp] def smmrTreerootId : Nat := 0xDEADBEAF

/-- `sizeof(ipcshm_tree_instance_itm_t)`: the signature, `rooti` and `newnodei`. -/
@[simp] def sizeofTreeInstanceItm : Nat := 16

/-- `sizeof(node_instance_t)`. -/
@[simp] def sizeofNodeInstance : Nat := 64

/-- `create_tree_unsafe` on one category: the file, and the root record `inst->itm[n]` unless it is null. -/
def createTree (c : Category) : Category × Option Nat :=
  match attach c sizeofTreeInstanceItm smmrTreerootId with
  | some instItm => ({ c with data := c.data.putWord instItm 4 smmrTreerootId }, some instItm)
  | none =>
    match shmalloc c sizeofTreeInstanceItm with
    | (c, some b) => ({ c with data := c.data.putWord b.pointer 4 smmrTreerootId }, some b.pointer)
    | (c, none) => (c, none)

/-- `rooti` of the root record at `r`. -/
def rooti (c : Category) (r : Nat) : NodeInstanceOffset :=
  ⟨BitVec.ofNat 8 (c.data.word (r + 4) 1), BitVec.ofNat 16 (c.data.word (r + 5) 2),
    BitVec.ofNat 24 (c.data.word (r + 7) 3)⟩

/-- One access of a tree operation to the category, through the root record at `r`: a node block is allocated, a block
other than the root record is freed (the pointer may be stale), or bytes of node blocks in use and of `rooti` and
`newnodei` are written. -/
inductive TreeAccess (r : Nat) (c : Category) : Category → Prop
  | shmalloc : TreeAccess r c (shmalloc c sizeofNodeInstance).1
  | shmfree {b : Block} (hb : mmposBcktInit ≤ b.offset ∧ b.offset < pageSize) (hr : b.pointer ≠ r) :
    TreeAccess r c (shmfree c b.pointer)
  | write {data : Bytes} (hw : ∀ i, data i ≠ c.data i → (∃ b ∈ live c, b.pointer ≠ r ∧ b.Owns c i) ∨
      r + 4 ≤ i ∧ i < r + sizeofTreeInstanceItm) : TreeAccess r c { c with data := data }

/-- The states of a category file that started empty and was opened, with what every `create_tree_unsafe` attached. -/
inductive Opened (id : BitVec 32) (filesize k : Nat) : Category → List (Option Nat) → Prop
  | first {c : Category} {r : Option Nat} (hc : createTree (rebuildPagesArea k ⟨id, filesize, fun _ => 0⟩) = (c, r)) :
    Opened id filesize k c [r]
  | access {c c' : Category} {R : List (Option Nat)} {r : Nat} (h : Opened id filesize k c R) (hr : some r ∈ R)
    (ha : TreeAccess r c c') : Opened id filesize k c' R
  | rebuildPageStatics {c : Category} {R : List (Option Nat)} (h : Opened id filesize k c R) :
    Opened id filesize k (rebuildPageStatics c) R
  | rebuildPagesArea {c : Category} {R : List (Option Nat)} (h : Opened id filesize k c R) :
    Opened id filesize k (rebuildPagesArea k c) R
  | createTree {c c' : Category} {R : List (Option Nat)} {r : Option Nat} (h : Opened id filesize k c R)
    (hc : createTree c = (c', r)) : Opened id filesize k c' (r :: R)

/-! ## One root record among node blocks -/

/-- The item at `x` on page `n` is the root record, and every other item is as long as a node block. -/
structure Rooted (c : Category) (L : Nat → Layout) (n x : Nat) : Prop where
  fits : Fits c L
  user : n ∈ userPages
  used : x ∈ (L n).used
  long : len (page c.data n) x = 48
  signed : (page c.data n).word (x + 16) 4 = smmrTreerootId
  nodes : ∀ m ∈ userPages, ∀ y ∈ (L m).blocks, m = n ∧ y = x ∨ len (page c.data m) y = 96

variable {c c' : Category} {data p' : Bytes} {L : Nat → Layout} {L' : Layout} {m n x : Nat}

namespace Rooted

/-- The root record is the only item of its length. -/
theorem only (h : Rooted c L n x) (hm : m ∈ userPages) {y : Nat} (hy : y ∈ (L m).used)
    (hlen : len (page c.data m) y = 48) : m = n ∧ y = x := by
  rcases h.nodes m hm y ((h.fits.rep m hm).mem_used hy) with h1 | h1
  · exact h1
  · omega

/-- `attach` finds the root record. -/
theorem attach_eq (h : Rooted c L n x) :
    attach c sizeofTreeInstanceItm smmrTreerootId = some (mmposUsrpage n + x + sizeofMemitemHead) := by
  have hx := (h.fits.rep n h.user).place ((h.fits.rep n h.user).mem_used h.used)
  have hitems : ∀ m ∈ userPages, (visited (page c.data m) mmsigUsed mmposMinOfst mmposUsedRoot).1 = 0 :: (L m).used :=
    fun m hm => (h.fits.rep m hm).items_used (by decide)
  rw [attach, if_neg (by decide)]
  cases hfind : userPages.findSome? _ with
  | none =>
    have hnone := List.findSome?_eq_none_iff.mp hfind n h.user
    simp only [Option.map_eq_none_iff, hitems n h.user] at hnone
    have hmiss := List.find?_eq_none.mp hnone x (List.mem_cons_of_mem 0 h.used)
    refine absurd ?_ hmiss
    rw [decide_eq_true_eq]
    exact ⟨by simp only [mmposUsedRoot]; omega, h.long, h.signed⟩
  | some r =>
    obtain ⟨m, hm, hsome⟩ := List.exists_of_findSome?_eq_some hfind
    simp only [hitems m hm] at hsome
    obtain ⟨y, hy, rfl⟩ := Option.map_eq_some_iff.mp hsome
    have hmem := List.mem_of_find?_eq_some hy
    have hhit := List.find?_some hy
    rw [decide_eq_true_eq] at hhit
    obtain ⟨hne, hlen, -⟩ := hhit
    obtain ⟨rfl, rfl⟩ := h.only hm ((List.mem_cons.mp hmem).resolve_left hne) hlen
    rfl

/-- `create_tree_unsafe` attaches the root record, and changes nothing. -/
theorem createTree_eq (h : Rooted c L n x) : createTree c = (c, some (mmposUsrpage n + x + sizeofMemitemHead)) := by
  have hsigned : c.data.word (mmposUsrpage n + x + sizeofMemitemHead) 4 = smmrTreerootId :=
    (word_flat c.data n x 16 4).trans h.signed
  rw [createTree, h.attach_eq]
  simp only []
  rw [← hsigned, Bytes.putWord_word]

/-- The length and the first word of the root record stay, and no item of another length appears. -/
theorem of_kept {M : Nat → Layout} (h : Rooted c L n x) (hf : Fits c' M) (hused : x ∈ (M n).used)
    (hkept : ∀ i, x + 12 ≤ i → i < x + 20 → page c'.data n i = page c.data n i)
    (hnodes : ∀ m ∈ userPages, ∀ y ∈ (M m).blocks,
      y ∈ (L m).blocks ∧ len (page c'.data m) y = len (page c.data m) y ∨ len (page c'.data m) y = 96) :
    Rooted c' M n x where
  fits := hf
  user := h.user
  used := hused
  long := (len_congr fun i h1 h2 => hkept i h1 (by omega)).trans h.long
  signed := (Bytes.word_congr fun i h1 h2 => hkept i (by omega) (by omega)).trans h.signed
  nodes m hm y hy := by
    rcases hnodes m hm y hy with ⟨h1, h2⟩ | h1
    · rw [h2]
      exact h.nodes m hm y h1
    · exact .inr h1

/-- Page `m` changes. -/
theorem store (h : Rooted c L n x) (hm : m ∈ userPages)
    (hf : Fits { c with data := withPage c.data m p' } (Function.update L m L'))
    (hfar : ∀ i, 131072 ≤ i → p' i = page c.data m i)
    (hkept : ∀ y ∈ (L m).blocks, ∀ i, y + 12 ≤ i → i < y + len (page c.data m) y → p' i = page c.data m i)
    (hused : m = n → x ∈ L'.used) (hblocks : ∀ y ∈ L'.blocks, y ∈ (L m).blocks ∨ len p' y = 96) :
    Rooted { c with data := withPage c.data m p' } (Function.update L m L') n x := by
  have hx := (h.fits.rep n h.user).place ((h.fits.rep n h.user).mem_used h.used)
  refine h.of_kept hf ?_ (fun i h1 h2 => ?_) fun k hk y hy => ?_
  · by_cases heq : n = m
    · rw [heq, Function.update_self]
      exact hused heq.symm
    · rw [Function.update_of_ne heq]
      exact h.used
  · by_cases heq : n = m
    · subst heq
      simp only [page_withPage_self]
      exact hkept x ((h.fits.rep n h.user).mem_used h.used) i h1 (by have := h.long; omega)
    · exact page_withPage_of_ne heq hfar (by omega)
  · by_cases heq : k = m
    · subst heq
      simp only [page_withPage_self]
      rw [Function.update_self] at hy
      rcases hblocks y hy with h1 | h1
      · have := (h.fits.rep k hk).place h1
        exact .inl ⟨h1, len_congr fun i h2 h3 => hkept y h1 i h2 (by omega)⟩
      · exact .inr h1
    · rw [Function.update_of_ne heq] at hy
      have := (h.fits.rep k hk).place hy
      exact .inl ⟨hy, len_congr fun i h2 h3 => page_withPage_of_ne heq hfar (by omega)⟩

/-- A node block is allocated. -/
theorem shmalloc (h : Rooted c L n x) : ∃ M, Rooted (shmalloc c sizeofNodeInstance).1 M n x := by
  rcases h.fits.shmalloc_spec sizeofNodeInstance with ⟨h1, -⟩ | ⟨-, ⟨bmp, m⟩, hq, -, p', L', y, h1, hand⟩
  · rw [h1]
    exact ⟨L, h⟩
  · have hm := (mem_attempts.mp hq).2
    rw [h1]
    refine ⟨_, h.store hm (h.fits.store hm hand.rep hand.far) hand.far hand.kept ?_ fun z hz => ?_⟩
    · rintro rfl
      rw [hand.used]
      exact List.mem_append_left _ h.used
    · rcases hand.source with ⟨l₁, l₂, -, -, hblocks, -⟩ | ⟨-, hlen, -, hblocks, -⟩
      · rw [hblocks] at hz
        exact .inl hz
      · rw [hblocks] at hz
        rcases List.mem_append.mp hz with hz | hz
        · exact .inl hz
        · rw [List.mem_singleton.mp hz]
          exact .inr hlen

/-- A block other than the root record is freed. -/
theorem shmfree {b : Block} (h : Rooted c L n x) (hb : mmposBcktInit ≤ b.offset ∧ b.offset < pageSize)
    (hr : b.pointer ≠ mmposUsrpage n + x + sizeofMemitemHead) : ∃ M, Rooted (shmfree c b.pointer) M n x := by
  by_cases hu : b.pageid ∈ userPages ∧ b.offset ∈ (L b.pageid).used
  · obtain ⟨hm, hu⟩ := hu
    obtain ⟨l₁, l₂, hl⟩ := List.append_of_mem hu
    obtain ⟨p', hfree, hfar, hkept, hfits⟩ := h.fits.shmfree_spec hm hl
    rw [Block.pointer, hfree]
    refine ⟨_, h.store hm hfits hfar hkept ?_ fun y hy => .inl hy⟩
    intro heq
    have hused := h.used
    rw [← heq, hl] at hused
    rcases List.mem_append.mp hused with h1 | h1
    · exact List.mem_append_left _ h1
    · rcases List.mem_cons.mp h1 with h1 | h1
      · refine absurd ?_ hr
        rw [Block.pointer, heq, h1]
      · exact List.mem_append_right _ h1
  · rw [Block.pointer, h.fits.shmfree_unused hb hu]
    exact ⟨L, h⟩

/-- The block of the root record. -/
theorem mem_live (h : Rooted c L n x) : ⟨c.id.setWidth 16, n, x⟩ ∈ live c := h.fits.mem_live.mpr ⟨rfl, h.user, h.used⟩

/-- Bytes of node blocks, and of the root record behind its signature, are written. -/
theorem write (h : Rooted c L n x)
    (hw : ∀ i, data i ≠ c.data i → (∃ b ∈ live c, b.pointer ≠ mmposUsrpage n + x + sizeofMemitemHead ∧ b.Owns c i) ∨
      mmposUsrpage n + x + sizeofMemitemHead + 4 ≤ i ∧
        i < mmposUsrpage n + x + sizeofMemitemHead + sizeofTreeInstanceItm) :
    Rooted { c with data := data } L n x := by
  have hx := (h.fits.rep n h.user).place ((h.fits.rep n h.user).mem_used h.used)
  have hlong := h.long
  have hown : ∀ i, data i ≠ c.data i → ∃ b ∈ live c, b.Owns c i := by
    intro i hi
    rcases hw i hi with ⟨b, hb, -, hbi⟩ | hi
    · exact ⟨b, hb, hbi⟩
    · refine ⟨_, h.mem_live, ?_⟩
      simp only [Block.Owns, Block.pointer, Block.length, sizeofMemitemHead, mmsizHfSize, sizeofTreeInstanceItm] at hi ⊢
      omega
  have hlen : ∀ m ∈ userPages, ∀ y ∈ (L m).blocks, ∀ i, y + 12 ≤ i → i < y + 16 → page data m i = page c.data m i :=
    fun m hm y hy i h1 h2 => h.fits.control_write hown hm (.inr (.inr (.inr (.inl ⟨y, hy, .inl (by omega)⟩))))
  refine h.of_kept (h.fits.write hown) h.used (fun i h1 h2 => ?_) fun m hm y hy => .inl ⟨hy, len_congr (hlen m hm y hy)⟩
  by_cases hi : i < x + 16
  · exact hlen n h.user x ((h.fits.rep n h.user).mem_used h.used) i h1 hi
  · -- the signature is in no other block
    by_contra hne
    rcases hw (mmposUsrpage n + i) hne with ⟨b, hb, hr, hbi⟩ | h3
    · have hapart := h.fits.apart hb h.mem_live (by
        rintro rfl
        exact hr rfl)
      simp only [Block.Apart, Block.start, Block.Owns, Block.pointer, Block.length, sizeofMemitemHead, mmsizHfSize]
        at hapart hbi hlong
      omega
    · simp only [sizeofMemitemHead] at h3
      omega

/-- Every page is rebuilt. -/
theorem rebuilt (h : Rooted c L n x) (hr : ∀ n ∈ userPages, RebuiltAt c.id.toNat c.data data n (L n)) :
    Rooted { c with data := data } (fun n => (L n).rebuilt) n x := by
  have hx := (h.fits.rep n h.user).place ((h.fits.rep n h.user).mem_used h.used)
  refine h.of_kept (h.fits.of_rebuiltAt hr) ?_ (fun i h1 h2 => ?_) fun m hm y hy => ?_
  · rw [Layout.rebuilt, if_neg (List.ne_nil_of_mem h.used)]
    exact h.used
  · exact (hr n h.user).kept (List.ne_nil_of_mem h.used) i (by omega) (by omega) (by omega)
  · rw [Layout.rebuilt] at hy
    split at hy
    · exact absurd hy List.not_mem_nil
    · rename_i hne
      have := (h.fits.rep m hm).place hy
      exact .inl ⟨hy, len_congr fun i h2 h3 => (hr m hm).kept hne i (by omega) (by omega) (by omega)⟩

end Rooted

/-! ## The first open -/

/-- There is nothing to attach in an empty category. -/
theorem Fits.attach_empty {size itemid : Nat} (h : Fits c fun _ => Layout.empty) : attach c size itemid = none := by
  rw [attach]
  split
  · rfl
  · refine List.findSome?_eq_none_iff.mpr fun n hn => ?_
    simp only [(h.rep n hn).items_used (by decide : mmposMinOfst ≤ 36), Layout.empty, Option.map_eq_none_iff]
    refine List.find?_eq_none.mpr fun y hy => ?_
    rw [List.mem_singleton.mp hy]
    simp

/-- The only item is signed. -/
theorem Fits.signed (h : Fits c L) (hn : n ∈ userPages) (hu : x ∈ (L n).used) (hlong : len (page c.data n) x = 48)
    (hnodes : ∀ m ∈ userPages, ∀ y ∈ (L m).blocks, m = n ∧ y = x) :
    Rooted { c with data := c.data.putWord (mmposUsrpage n + x + sizeofMemitemHead) 4 smmrTreerootId } L n x := by
  have hown : ∀ i, c.data.putWord (mmposUsrpage n + x + sizeofMemitemHead) 4 smmrTreerootId i ≠ c.data i →
      ∃ b ∈ live c, b.Owns c i := by
    intro i hi
    refine ⟨⟨c.id.setWidth 16, n, x⟩, h.mem_live.mpr ⟨rfl, hn, hu⟩, ?_⟩
    by_contra hout
    refine hi (Bytes.putWord_of_outside ?_)
    simp only [Block.Owns, Block.pointer, Block.length, sizeofMemitemHead, mmsizHfSize] at hout ⊢
    omega
  have hlen : ∀ m ∈ userPages, ∀ y ∈ (L m).blocks, ∀ i, y + 12 ≤ i → i < y + 16 →
      page (c.data.putWord (mmposUsrpage n + x + sizeofMemitemHead) 4 smmrTreerootId) m i = page c.data m i :=
    fun m hm y hy i h1 h2 => h.control_write hown hm (.inr (.inr (.inr (.inl ⟨y, hy, .inl (by omega)⟩))))
  have hsig : (page (c.data.putWord (mmposUsrpage n + x + sizeofMemitemHead) 4 smmrTreerootId) n).word (x + 16) 4 =
      smmrTreerootId := by
    rw [← word_flat, sizeofMemitemHead, Bytes.word_putWord_self]
    exact Nat.mod_eq_of_lt (by decide)
  exact ⟨h.write hown, hn, hu, (len_congr (hlen n hn x ((h.rep n hn).mem_used hu))).trans hlong, hsig,
    fun m hm y hy => .inl (hnodes m hm y hy)⟩

/-- The first `create_tree_unsafe` allocates the root record. -/
theorem Rooted.first {id : BitVec 32} {filesize k : Nat} :
    ∃ c L n x, createTree (Memory.rebuildPagesArea k ⟨id, filesize, fun _ => 0⟩) =
      (c, some (mmposUsrpage n + x + sizeofMemitemHead)) ∧ Rooted c L n x := by
  have hempty := @emptyAt_fresh ⟨id, filesize, fun _ => 0⟩ (fun n _ => Reachable.zero_signature n) k
  have hfits := @fits_fresh ⟨id, filesize, fun _ => 0⟩ (fun n _ => Reachable.zero_signature n) k
  generalize Memory.rebuildPagesArea k ⟨id, filesize, fun _ => 0⟩ = c at hempty hfits
  have hone : 1 ∈ userPages := mem_userPages.mpr ⟨by decide, by decide⟩
  have hsome : (Memory.shmalloc c sizeofTreeInstanceItm).2 ≠ none :=
    hfits.shmalloc_of_empty (by decide) hone rfl fun b hb => by
      rw [(hempty 1 hone).bit]
      exact decide_eq_true hb
  rcases hfits.shmalloc_spec sizeofTreeInstanceItm with ⟨h1, -⟩ | ⟨-, ⟨bmp, n⟩, hq, -, p', L', x, h1, hand⟩
  · rw [h1] at hsome
    exact absurd rfl hsome
  · have hn := (mem_attempts.mp hq).2
    have hfits' := hfits.store hn hand.rep hand.far
    have hnew : L'.used = [x] ∧ L'.blocks = [x] ∧ len p' x = 48 := by
      rcases hand.source with ⟨l₁, l₂, hfree, -⟩ | ⟨-, hlen, -, hblocks, -⟩
      · exact absurd hfree (by simp [Layout.empty])
      · exact ⟨hand.used, hblocks, hlen⟩
    obtain ⟨hused, hblocks, hlen⟩ := hnew
    have hsigned := @Fits.signed _ _ n x hfits' hn (by
      rw [Function.update_self, hused]
      exact List.mem_singleton_self x) (by
      rw [← hlen]
      simp only [page_withPage_self]) fun m hm y hy => by
      by_cases heq : m = n
      · rw [heq, Function.update_self, hblocks] at hy
        exact ⟨heq, List.mem_singleton.mp hy⟩
      · rw [Function.update_of_ne heq] at hy
        exact absurd hy List.not_mem_nil
    rw [createTree, hfits.attach_empty, h1]
    exact ⟨_, _, n, x, rfl, hsigned⟩

/-! ## Runs -/

theorem Rooted.rebuildPageStatics (h : Rooted c L n x) :
    Rooted (rebuildPageStatics c) (fun n => (L n).rebuilt) n x :=
  h.rebuilt h.fits.rebuildPageStatics_spec

theorem Rooted.rebuildPagesArea (h : Rooted c L n x) (k : Nat) :
    Rooted (rebuildPagesArea k c) (fun n => (L n).rebuilt) n x :=
  h.rebuilt (h.fits.rebuildPagesArea_spec k)

theorem Rooted.access (h : Rooted c L n x) (ha : TreeAccess (mmposUsrpage n + x + sizeofMemitemHead) c c') :
    ∃ M, Rooted c' M n x := by
  cases ha with
  | shmalloc => exact h.shmalloc
  | shmfree hb hr => exact h.shmfree hb hr
  | write hw => exact ⟨L, h.write hw⟩

namespace Opened

variable {id : BitVec 32} {filesize k : Nat} {R : List (Option Nat)}

/-- In every state there is one root record, the one that all opens attached. -/
theorem rooted (h : Opened id filesize k c R) :
    ∃ L n x, Rooted c L n x ∧ ∀ r ∈ R, r = some (mmposUsrpage n + x + sizeofMemitemHead) := by
  induction h with
  | first hc =>
    obtain ⟨c', L, n, x, hc', hrooted⟩ := @Rooted.first id filesize k
    rw [hc'] at hc
    cases hc
    exact ⟨L, n, x, hrooted, fun r hr => List.mem_singleton.mp hr⟩
  | access h hr ha ih =>
    obtain ⟨L, n, x, hrooted, hR⟩ := ih
    cases hR _ hr
    obtain ⟨M, hrooted'⟩ := hrooted.access ha
    exact ⟨M, n, x, hrooted', hR⟩
  | rebuildPageStatics h ih =>
    obtain ⟨L, n, x, hrooted, hR⟩ := ih
    exact ⟨_, n, x, hrooted.rebuildPageStatics, hR⟩
  | rebuildPagesArea h ih =>
    obtain ⟨L, n, x, hrooted, hR⟩ := ih
    exact ⟨_, n, x, hrooted.rebuildPagesArea k, hR⟩
  | createTree h hc ih =>
    obtain ⟨L, n, x, hrooted, hR⟩ := ih
    rw [hrooted.createTree_eq] at hc
    cases hc
    refine ⟨L, n, x, hrooted, fun r hr => ?_⟩
    rcases List.mem_cons.mp hr with rfl | hr
    · rfl
    · exact hR r hr

/-- A further open attaches the block that all opens attached, with its `rooti`, allocates nothing, marks no page, and
keeps the blocks in use. -/
theorem root_record (h : Opened id filesize k c R) : ∃ b ∈ live c, (∀ r ∈ R, r = some b.pointer) ∧
    Memory.createTree c = (c, some b.pointer) ∧
    Memory.createTree (Memory.rebuildPagesArea k c) = (Memory.rebuildPagesArea k c, some b.pointer) ∧
    rooti (Memory.rebuildPagesArea k c) b.pointer = rooti c b.pointer ∧
    (∀ n ∈ userPages, isPagebit (Memory.rebuildPagesArea k c).data .err n = false) ∧
    live (Memory.rebuildPagesArea k c) = live c ∧ Keeps (live c) c (Memory.rebuildPagesArea k c) := by
  obtain ⟨L, n, x, hrooted, hR⟩ := h.rooted
  have hrooted' := hrooted.rebuildPagesArea k
  obtain ⟨hlive, hkeeps⟩ := hrooted.fits.rebuilt_live (hrooted.fits.rebuildPagesArea_spec k)
  refine ⟨⟨c.id.setWidth 16, n, x⟩, hrooted.mem_live, hR, hrooted.createTree_eq, hrooted'.createTree_eq, ?_,
    hrooted'.fits.err, hlive, hkeeps⟩
  have hbytes := (hkeeps _ hrooted.mem_live).2
  have hlong := hrooted.long
  simp only [Block.Owns, Block.pointer, Block.length, sizeofMemitemHead, mmsizHfSize] at hbytes
  have hword : ∀ j w, j + w ≤ 16 → (Memory.rebuildPagesArea k c).data.word (mmposUsrpage n + x + 16 + j) w =
      c.data.word (mmposUsrpage n + x + 16 + j) w := fun j w hj =>
    Bytes.word_congr fun i h1 h2 => hbytes i (by omega)
  simp only [rooti, Block.pointer, sizeofMemitemHead]
  rw [hword 4 1 (by decide), hword 5 2 (by decide), hword 7 3 (by decide)]

/-- A file opened, accessed and opened again. -/
theorem root_record_twice : ∃ c r b, Opened 0 134217728 0 c [some r] ∧
    b ∈ live (Memory.shmalloc c sizeofNodeInstance).1 ∧
    r = b.pointer ∧ Memory.createTree (Memory.rebuildPagesArea 0 (Memory.shmalloc c sizeofNodeInstance).1) =
      (Memory.rebuildPagesArea 0 (Memory.shmalloc c sizeofNodeInstance).1, some b.pointer) := by
  obtain ⟨c, L, n, x, hc, -⟩ := @Rooted.first 0 134217728 0
  have hopen := Opened.first hc
  have haccess := hopen.access (List.mem_singleton_self _) TreeAccess.shmalloc
  obtain ⟨b, hb, hR, -, hagain, -⟩ := Opened.root_record haccess
  exact ⟨c, _, b, hopen, hb, Option.some.inj (hR _ (List.mem_singleton_self _)), hagain⟩

end Opened

end NetworkBfd.Smmr.Memory
