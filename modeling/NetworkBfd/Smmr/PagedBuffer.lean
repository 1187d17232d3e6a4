import NetworkBfd.Lib.Heap
import NetworkBfd.Lib.Loops
import NetworkBfd.Lib.Yields
import NetworkBfd.Smmr.Basic

/-!
# The paged buffer

`pagedbuffer_append` puts a string behind those that are there, and doubles the block until it has room. The loop that
doubles it ends whatever the sizes are (`grow_ends`), and refuses only what is longer than half of the address space
(`grow_spec`). A buffer `Holds` the bytes of the strings it took. An append of a string takes it too or changes nothing
(`append_spec`), so the buffer holds exactly the accepted strings of a run (`appendAll_spec`), and nothing of it is left
when it is removed (`remove_appendAll`).
-/

namespace NetworkBfd.Smmr

open Lib

abbrev SizeT := BitVec 64

/-- `paged_buffer_t`. -/
structure PagedBuffer where
  data : Nat
  endOffset : SizeT
  allocatedSize : SizeT

namespace PagedBuffer

/-- A buffer and the heap that it is in. -/
structure BufferState where
  heap : Heap
  phdl : PagedBuffer

/-! ## Doubling the size -/

/-- `tmp_size`, or that the loop returned `RET_NG`. -/
inductive Growth
  | size (tmp : SizeT)
  | overflow

/-- A round of the loop of `pagedbuffer_append`. -/
def growStep (need : SizeT) : Growth → Option Growth
  | .overflow => none
  | .size tmp =>
    if tmp < need then
      let tmp := if tmp = 0 then 4096 else tmp
      let chk := tmp <<< 1
      some (if chk < tmp then .overflow else .size chk)
    else none

/-- The loop of `pagedbuffer_append`. -/
def grow (need size : SizeT) : Except Fault Growth :=
  match runLoop (growStep need) 65 (.size size) with
  | some g => .ok g
  | none => .error .fuel

/-! ## The functions -/

/-- `pagedbuffer_create`, with the address that `malloc` gives for the data. -/
def pagedbufferCreate (heap : Heap) (q : heap.Fresh) : BufferState :=
  ⟨heap.alloc q ⟨4096, fun _ => 0⟩, ⟨q, 0, 4096⟩⟩

/-- `pagedbuffer_remove`. -/
def pagedbufferRemove (s : BufferState) : Except Fault Heap :=
  if s.heap.covers s.phdl.data 0 0 then .ok (s.heap.free s.phdl.data) else .error .segv

def pagedbufferCurrentSize (s : BufferState) : SizeT := s.phdl.endOffset

/-- What `pagedbuffer_dup` copies, if its `malloc` does not fail. -/
def pagedbufferDup (s : BufferState) : Except Fault (List Byte) :=
  if s.heap.covers s.phdl.data 0 s.phdl.endOffset.toNat then
    .ok (s.heap.read s.phdl.data 0 s.phdl.endOffset.toNat)
  else .error .segv

/-- The end of `pagedbuffer_append`: the data behind what is there. -/
def copyBehind (data : List Byte) (s : BufferState) : Except Fault (Ret × BufferState) :=
  if s.heap.covers s.phdl.data s.phdl.endOffset.toNat data.length then
    .ok (.ok, ⟨s.heap.write s.phdl.data s.phdl.endOffset.toNat data,
      { s.phdl with endOffset := s.phdl.endOffset + BitVec.ofNat 64 data.length }⟩)
  else .error .segv

/-- `pagedbuffer_append` of data outside of the buffer. -/
def pagedbufferAppend (r : Reallocation) (data : List Byte) (s : BufferState) : Except Fault (Ret × BufferState) := do
  let need := s.phdl.endOffset + BitVec.ofNat 64 data.length
  if s.phdl.allocatedSize < need then
    match ← grow need s.phdl.allocatedSize with
    | .overflow => return (.ng, s)
    | .size tmp =>
      if s.heap.covers s.phdl.data 0 0 then
        match s.heap.realloc r s.phdl.data tmp.toNat with
        | none => return (.ng, s)
        | some (p, heap) => copyBehind data ⟨heap, { s.phdl with data := p, allocatedSize := tmp }⟩
      else .error .segv
  else copyBehind data s

/-- A call of `pagedbuffer_append`: its string, and what `realloc` decides if it is asked. -/
structure AppendCall where
  data : List Byte
  decides : Reallocation

def appendAll : List AppendCall → BufferState → Except Fault (List Ret × BufferState)
  | [], s => .ok ([], s)
  | c :: cs, s => do
    let (ret, s) ← pagedbufferAppend c.decides c.data s
    let (rets, s) ← appendAll cs s
    return (ret :: rets, s)

/-! ## The loop -/

section Loop

variable {need size : SizeT} {g g' : Growth}

/-- How many rounds there can be. -/
def Growth.rounds : Growth → Nat
  | .size tmp => roomToDouble tmp
  | .overflow => 0

theorem growStep_rounds (h : growStep need g = some g') : g'.rounds < g.rounds := by
  cases g with
  | overflow => cases h
  | size tmp =>
    simp only [growStep] at h
    split at h
    · obtain rfl := Option.some.inj h
      by_cases h0 : tmp = 0
      · subst h0
        decide
      · rw [if_neg h0]
        split
        · exact roomToDouble_pos h0
        · rename_i hlt
          exact roomToDouble_shiftLeft h0 hlt
    · cases h

/-- The loop ends, whatever is needed and whatever the size was. -/
theorem grow_ends (need size : SizeT) : ∃ g, grow need size = .ok g := by
  have hround : ∀ s s', True → growStep need s = some s' → True ∧ s'.rounds < s.rounds :=
    fun _ _ _ h => ⟨trivial, growStep_rounds h⟩
  have hlt : (Growth.size size).rounds < 65 := Nat.lt_succ_of_le (Nat.sub_le 64 _)
  obtain ⟨g, hg⟩ := runLoop_ends hround 65 (.size size) trivial hlt
  exact ⟨g, by rw [grow, hg]⟩

/-- What the loop keeps: the size is a power of two and less than twice what is needed, if it is not the old one. -/
def Grown (need size : SizeT) : Growth → Prop
  | .size tmp => (∃ j, tmp.toNat = 2 ^ j) ∧ (tmp = size ∨ tmp.toNat < 2 * need.toNat)
  | .overflow => 2 ^ 63 < need.toNat

theorem growStep_grown (hg : Grown need size g) (h : growStep need g = some g') : Grown need size g' := by
  cases g with
  | overflow => cases h
  | size tmp =>
    obtain ⟨⟨j, hj⟩, -⟩ := hg
    have h0 : tmp ≠ 0 := by
      rintro rfl
      exact absurd hj.symm (Nat.two_pow_pos j).ne'
    simp only [growStep, if_neg h0] at h
    split at h
    · rename_i hneed
      obtain rfl := Option.some.inj h
      rw [BitVec.lt_def] at hneed
      split
      · rename_i hover
        rw [shiftLeft_one_lt_iff] at hover
        change 2 ^ 63 < need.toNat
        omega
      · rename_i hover
        have hdouble := toNat_shiftLeft_one_of_le hover
        refine ⟨⟨j + 1, ?_⟩, .inr ?_⟩
        · rw [hdouble, hj, Nat.pow_succ']
        · omega
    · cases h

theorem grow_spec (hsize : ∃ j, size.toNat = 2 ^ j) :
    ∃ g, grow need size = .ok g ∧ Grown need size g ∧ ∀ tmp, g = .size tmp → need ≤ tmp := by
  obtain ⟨g, hg⟩ := grow_ends need size
  refine ⟨g, hg, ?_⟩
  unfold grow at hg
  split at hg
  · rename_i g' hrun
    obtain rfl := Except.ok.inj hg
    obtain ⟨hgrown, hend⟩ := runLoop_inv (fun _ _ => growStep_grown) 65 (show Grown need size (.size size) from
      ⟨hsize, .inl rfl⟩) hrun
    refine ⟨hgrown, ?_⟩
    rintro tmp rfl
    by_contra hlt
    rw [growStep, if_pos (BitVec.not_le.mp hlt)] at hend
    cases hend
  · cases hg

end Loop

/-! ## One append -/

/-- The buffer is full of `log`, in a block of its own beside `rest`. -/
structure Holds (rest : Heap) (log : List Byte) (s : BufferState) : Prop where
  block : ∃ b, s.heap s.phdl.data = some b ∧ b.size = s.phdl.allocatedSize.toNat
  content : s.heap.read s.phdl.data 0 log.length = log
  ends : s.phdl.endOffset.toNat = log.length
  fits : log.length ≤ s.phdl.allocatedSize.toNat
  doubled : ∃ j, s.phdl.allocatedSize.toNat = 2 ^ j
  beside : s.heap.free s.phdl.data = rest

/-- The buffer cannot take the bytes up to `need`: no size that the doubling reaches is large enough, or `realloc` has
no block of the first one that is. -/
def NoRoom (r : Reallocation) (need : Nat) (s : BufferState) : Prop :=
  s.phdl.allocatedSize.toNat < need ∧
    (2 ^ 63 < need ∨ ∃ j, need ≤ 2 ^ j ∧ 2 ^ j < 2 * need ∧ s.heap.realloc r s.phdl.data (2 ^ j) = none)

theorem not_noRoom {r : Reallocation} {s : BufferState} {need j : Nat} {tmp : SizeT} (hj : tmp.toNat = 2 ^ j)
    (hle : need ≤ tmp.toNat) (hlt : tmp.toNat < 2 * need) (hrun : s.heap.realloc r s.phdl.data tmp.toNat ≠ none) :
    ¬ NoRoom r need s := by
  have hbound := tmp.isLt
  rw [hj] at hle hlt hrun hbound
  rintro ⟨-, hbig | ⟨i, hi, hi', hnone⟩⟩
  · have h63 := (Nat.pow_lt_pow_iff_right (by decide)).mp (Nat.lt_of_lt_of_le hbig hle)
    have h64 := (Nat.pow_lt_pow_iff_right (by decide)).mp hbound
    omega
  · obtain rfl := eq_of_pow_between hle hlt hi hi'
    exact hrun hnone

namespace Holds

variable {rest : Heap} {log data : List Byte} {s : BufferState} {r : Reallocation}

theorem create (heap : Heap) (q : heap.Fresh) : Holds heap [] (pagedbufferCreate heap q) where
  block := ⟨_, Heap.alloc_self _ _ _, rfl⟩
  content := Heap.read_of_block (Heap.alloc_self _ _ _)
  ends := rfl
  fits := Nat.zero_le _
  doubled := ⟨12, rfl⟩
  beside := Heap.free_alloc q.2

theorem endOffset_le (h : Holds rest log s) : s.phdl.endOffset ≤ s.phdl.allocatedSize := by
  rw [BitVec.le_def, h.ends]
  exact h.fits

theorem dup (h : Holds rest log s) : pagedbufferDup s = .ok log := by
  obtain ⟨b, hb, hsize⟩ := h.block
  have hfits := h.fits
  rw [pagedbufferDup, h.ends, if_pos ((Heap.covers_iff hb).mpr (by omega)), h.content]

theorem remove (h : Holds rest log s) : pagedbufferRemove s = .ok rest := by
  obtain ⟨b, hb, -⟩ := h.block
  rw [pagedbufferRemove, if_pos ((Heap.covers_iff hb).mpr (Nat.zero_le _)), h.beside]

/-- `need_size` does not wrap. -/
theorem need_eq (h : Holds rest log s) (hlen : log.length + data.length < 2 ^ 64) :
    (s.phdl.endOffset + BitVec.ofNat 64 data.length).toNat = log.length + data.length := by
  rw [BitVec.toNat_add, BitVec.toNat_ofNat, h.ends, Nat.add_mod_mod, Nat.mod_eq_of_lt hlen]

/-- A larger block with the same bytes. -/
theorem moved (h : Holds rest log s) {p : Nat} {heap : Heap} {tmp : SizeT}
    (hrun : s.heap.realloc r s.phdl.data tmp.toNat = some (p, heap)) (hle : s.phdl.allocatedSize.toNat ≤ tmp.toNat)
    (hdouble : ∃ j, tmp.toNat = 2 ^ j) : Holds rest log ⟨heap, { s.phdl with data := p, allocatedSize := tmp }⟩ := by
  obtain ⟨b, hb, hsize⟩ := h.block
  obtain ⟨b', hb', hsize', hread⟩ := Heap.realloc_spec hb hrun
  have hfits := h.fits
  refine ⟨⟨b', hb', hsize'⟩, ?_, h.ends, Nat.le_trans hfits hle, hdouble, ?_⟩
  · exact (hread _ (by omega)).trans h.content
  · exact (Heap.free_realloc hb hrun).trans h.beside

/-- The string behind the others, if there is room for it. -/
theorem copied (h : Holds rest log s) (hroom : log.length + data.length ≤ s.phdl.allocatedSize.toNat) :
    ∃ s', copyBehind data s = .ok (.ok, s') ∧ Holds rest (log ++ data) s' ∧
      s'.phdl.allocatedSize = s.phdl.allocatedSize := by
  obtain ⟨b, hb, hsize⟩ := h.block
  have hcovers : s.heap.covers s.phdl.data s.phdl.endOffset.toNat data.length = true := by
    rw [Heap.covers_iff hb, h.ends, hsize]
    exact hroom
  have hlt := s.phdl.allocatedSize.isLt
  refine ⟨_, if_pos hcovers, ⟨⟨_, Heap.write_self hb, hsize⟩, ?_, ?_, ?_, h.doubled, ?_⟩, rfl⟩
  · rw [List.length_append, h.ends, Heap.read_write_append hb, h.content]
  · rw [List.length_append]
    exact h.need_eq (by omega)
  · rw [List.length_append]
    exact hroom
  · exact Heap.free_write.trans h.beside

/-- An append takes the string, or changes nothing. -/
theorem append_spec (h : Holds rest log s) (hlen : log.length + data.length < 2 ^ 64) :
    ∃ ret s', pagedbufferAppend r data s = .ok (ret, s') ∧
      (ret = .ok ∧ ¬ NoRoom r (log.length + data.length) s ∧ Holds rest (log ++ data) s' ∧
          (s'.phdl.allocatedSize = s.phdl.allocatedSize ∨ s'.phdl.allocatedSize.toNat < 2 * (log ++ data).length) ∨
        ret = .ng ∧ NoRoom r (log.length + data.length) s ∧ s' = s) := by
  have hneed := h.need_eq hlen
  obtain ⟨b, hb, -⟩ := h.block
  have hlive : s.heap.covers s.phdl.data 0 0 = true := (Heap.covers_iff hb).mpr (Nat.zero_le _)
  unfold pagedbufferAppend
  generalize hn : s.phdl.endOffset + BitVec.ofNat 64 data.length = need at hneed
  simp only [BitVec.lt_def, hneed, if_pos hlive]
  split
  · rename_i hfull
    obtain ⟨g, hgrow, hgrown, hroom⟩ := @grow_spec need _ h.doubled
    rw [hgrow, ok_bind]
    cases g with
    | overflow => exact ⟨.ng, s, rfl, .inr ⟨rfl, ⟨hfull, .inl (hneed ▸ hgrown)⟩, rfl⟩⟩
    | size tmp =>
      obtain ⟨⟨j, hj⟩, htwice⟩ := hgrown
      have hle := hroom tmp rfl
      rw [BitVec.le_def, hneed] at hle
      have htwice' : tmp.toNat < 2 * (log.length + data.length) := by
        rcases htwice with rfl | htwice
        · omega
        · rwa [hneed] at htwice
      dsimp only
      cases hrun : s.heap.realloc r s.phdl.data tmp.toNat with
      | none =>
        rw [hj] at hle htwice' hrun
        exact ⟨.ng, s, rfl, .inr ⟨rfl, ⟨hfull, .inr ⟨j, hle, htwice', hrun⟩⟩, rfl⟩⟩
      | some moved =>
        obtain ⟨p, heap⟩ := moved
        obtain ⟨s', hcopy, hholds, hsize'⟩ := (h.moved hrun (by omega) ⟨j, hj⟩).copied hle
        refine ⟨.ok, s', hcopy, .inl ⟨rfl, ?_, hholds, .inr ?_⟩⟩
        · exact not_noRoom hj hle htwice' (hrun ▸ Option.some_ne_none _)
        · rw [hsize', List.length_append]
          exact htwice'
  · rename_i hroom
    obtain ⟨s', hcopy, hholds, hsize'⟩ := h.copied (Nat.le_of_not_lt hroom)
    exact ⟨.ok, s', hcopy, .inl ⟨rfl, fun hno => hroom hno.1, hholds, .inl hsize'⟩⟩

/-- An append is refused exactly if there is no room. -/
theorem append_refused_iff (h : Holds rest log s) (hlen : log.length + data.length < 2 ^ 64) :
    (∃ s', pagedbufferAppend r data s = .ok (.ng, s')) ↔ NoRoom r (log.length + data.length) s := by
  obtain ⟨ret, s', hrun, hstep⟩ := h.append_spec (r := r) hlen
  rcases hstep with ⟨rfl, hroom, -⟩ | ⟨rfl, hno, -⟩
  · refine iff_of_false ?_ hroom
    rintro ⟨t, ht⟩
    cases hrun.symm.trans ht
  · exact iff_of_true ⟨s', hrun⟩ hno

end Holds

/-! ## Runs -/

/-- The strings whose append returned `RET_OK`, one behind the other. -/
def accepted (calls : List AppendCall) (rets : List Ret) : List Byte :=
  ((calls.zip rets).filter fun x => x.2 = .ok).flatMap fun x => x.1.data

def totalLength (calls : List AppendCall) : Nat := (calls.map fun c => c.data.length).sum

/-- The block is no larger than the first one, or at most twice as large as what it holds. -/
def Tight (s : BufferState) : Prop := s.phdl.allocatedSize.toNat ≤ max 4096 (2 * s.phdl.endOffset.toNat)

section Runs

variable {rest : Heap} {c : AppendCall} {cs : List AppendCall} {ret : Ret} {rets : List Ret} {s s' t : BufferState}

theorem totalLength_cons : totalLength (c :: cs) = c.data.length + totalLength cs := by
  rw [totalLength, List.map_cons, List.sum_cons, totalLength]

@[simp] theorem accepted_nil : accepted [] rets = [] := rfl

theorem accepted_cons : accepted (c :: cs) (ret :: rets) =
    if ret = .ok then c.data ++ accepted cs rets else accepted cs rets := by
  cases ret <;> rfl

theorem length_accepted_le : ∀ (calls : List AppendCall) (rets : List Ret),
    (accepted calls rets).length ≤ totalLength calls
  | [], _ => Nat.le_refl 0
  | _ :: _, [] => Nat.zero_le _
  | c :: cs, ret :: rets => by
    have ih := length_accepted_le cs rets
    rw [accepted_cons, totalLength_cons]
    split
    · rw [List.length_append]
      omega
    · omega

theorem appendAll_cons (h : pagedbufferAppend c.decides c.data s = .ok (ret, s'))
    (hs : appendAll cs s' = .ok (rets, t)) : appendAll (c :: cs) s = .ok (ret :: rets, t) := by
  rw [appendAll, h, ok_bind]
  simp only [hs]
  rfl

theorem Tight.grown {log : List Byte} (ht : Tight s) (h : Holds rest log s')
    (hle : s.phdl.endOffset.toNat ≤ log.length)
    (hsize : s'.phdl.allocatedSize = s.phdl.allocatedSize ∨ s'.phdl.allocatedSize.toNat < 2 * log.length) :
    Tight s' := by
  rw [Tight] at ht
  rw [Tight, h.ends]
  rcases hsize with heq | hlt
  · rw [heq]
    omega
  · omega

/-- A run keeps what the buffer holds, and takes the strings behind it. -/
theorem appendAll_spec : ∀ (calls : List AppendCall) {log : List Byte} {s : BufferState}, Holds rest log s → Tight s →
    log.length + totalLength calls < 2 ^ 64 → ∃ rets s', appendAll calls s = .ok (rets, s') ∧
      rets.length = calls.length ∧ Holds rest (log ++ accepted calls rets) s' ∧ Tight s'
  | [], log, s, h, ht, _ => by
    refine ⟨[], s, rfl, rfl, ?_, ht⟩
    rwa [accepted_nil, List.append_nil]
  | c :: cs, log, s, h, ht, hlen => by
    rw [totalLength_cons] at hlen
    have hfirst : log.length + c.data.length < 2 ^ 64 := by omega
    obtain ⟨ret, s₁, hrun, hstep⟩ := h.append_spec (r := c.decides) hfirst
    rcases hstep with ⟨rfl, -, h₁, hsize⟩ | ⟨rfl, -, rfl⟩
    · have hends : s.phdl.endOffset.toNat ≤ (log ++ c.data).length := by
        rw [h.ends, List.length_append]
        exact Nat.le_add_right _ _
      have hlen₁ : (log ++ c.data).length + totalLength cs < 2 ^ 64 := by
        rw [List.length_append]
        omega
      obtain ⟨rets, s', hall, hcount, h', ht'⟩ := appendAll_spec cs h₁ (ht.grown h₁ hends hsize) hlen₁
      refine ⟨.ok :: rets, s', appendAll_cons hrun hall, congrArg (· + 1) hcount, ?_, ht'⟩
      rwa [accepted_cons, if_pos rfl, ← List.append_assoc]
    · obtain ⟨rets, s', hall, hcount, h', ht'⟩ := appendAll_spec cs h ht (by omega)
      exact ⟨.ng :: rets, s', appendAll_cons hrun hall, congrArg (· + 1) hcount, h', ht'⟩

end Runs

section Created

variable (heap : Heap) (q : heap.Fresh) (calls : List AppendCall)

theorem created_spec (hlen : totalLength calls < 2 ^ 64) : ∃ rets s,
    appendAll calls (pagedbufferCreate heap q) = .ok (rets, s) ∧ rets.length = calls.length ∧
      Holds heap (accepted calls rets) s ∧ Tight s :=
  appendAll_spec calls (Holds.create heap q) (Nat.le_max_left _ _) (by rwa [List.length_nil, Nat.zero_add])

/-- The size is that of the strings, and the block is the first one or at most twice as large. -/
theorem size_appendAll (hlen : totalLength calls < 2 ^ 64) : ∃ rets s,
    appendAll calls (pagedbufferCreate heap q) = .ok (rets, s) ∧
      (pagedbufferCurrentSize s).toNat = (accepted calls rets).length ∧
      s.phdl.allocatedSize.toNat ≤ max 4096 (2 * (accepted calls rets).length) := by
  obtain ⟨rets, s, hrun, -, h, ht⟩ := created_spec heap q calls hlen
  exact ⟨rets, s, hrun, h.ends, h.ends ▸ ht⟩

/-- Four strings of eight bytes. -/
example : ((appendAll (List.replicate 4 ⟨List.replicate 8 48, default⟩)
    (pagedbufferCreate (fun _ => none) ⟨1, rfl⟩)).toOption.map fun x => pagedbufferCurrentSize x.2) = some 32 := by
  decide

/-- A buffer that is removed leaves nothing behind. -/
theorem remove_appendAll (hlen : totalLength calls < 2 ^ 64) : ∃ rets s,
    appendAll calls (pagedbufferCreate heap q) = .ok (rets, s) ∧ pagedbufferRemove s = .ok heap := by
  obtain ⟨rets, s, hrun, -, h, -⟩ := created_spec heap q calls hlen
  exact ⟨rets, s, hrun, h.remove⟩

/-- The buffer is the concatenation of the strings that it took, after any run. -/
theorem appendAll_concatenates (hlen : totalLength calls < 2 ^ 64) : ∃ rets s,
    appendAll calls (pagedbufferCreate heap q) = .ok (rets, s) ∧ rets.length = calls.length ∧
      s.phdl.endOffset ≤ s.phdl.allocatedSize ∧ pagedbufferDup s = .ok (accepted calls rets) ∧
      (∀ need, ∃ g, grow need s.phdl.allocatedSize = .ok g) ∧
      ∀ c : AppendCall, totalLength (calls ++ [c]) < 2 ^ 64 → ∃ ret s',
        pagedbufferAppend c.decides c.data s = .ok (ret, s') ∧ (ret = .ok ∨ ret = .ng ∧ s' = s) := by
  obtain ⟨rets, s, hrun, hcount, h, -⟩ := created_spec heap q calls hlen
  refine ⟨rets, s, hrun, hcount, h.endOffset_le, h.dup, fun need => grow_ends need _, fun c hc => ?_⟩
  have hle := length_accepted_le calls rets
  rw [totalLength, List.map_append, List.sum_append, List.map_singleton, List.sum_singleton, ← totalLength] at hc
  have hnext : (accepted calls rets).length + c.data.length < 2 ^ 64 := by omega
  obtain ⟨ret, s', happend, hstep⟩ := h.append_spec (r := c.decides) hnext
  rcases hstep with ⟨hok, -⟩ | ⟨hng, -, hs⟩
  · exact ⟨ret, s', happend, .inl hok⟩
  · exact ⟨ret, s', happend, .inr ⟨hng, hs⟩⟩

end Created

/-- A `realloc` that enlarges a block where it is. -/
def stays : Reallocation := ⟨fun _ p _ => some (p, fun _ => 0), fun h => .inl (Prod.mk.inj (Option.some.inj h)).1.symm⟩

/-- One byte, a page that `realloc` has no block for, and the page again. -/
def retried : List AppendCall := [⟨[48], default⟩, ⟨List.replicate 4096 49, default⟩, ⟨List.replicate 4096 50, stays⟩]

theorem appendAll_concatenates_retried : ∃ s, appendAll retried (pagedbufferCreate (fun _ => none) ⟨1, rfl⟩) =
    .ok ([.ok, .ng, .ok], s) ∧ pagedbufferDup s = .ok (48 :: List.replicate 4096 50) := by
  have hlen : totalLength retried < 2 ^ 64 := by decide +kernel
  obtain ⟨rets, s, hrun, -, -, hdup, -⟩ := appendAll_concatenates (fun _ => none) ⟨1, rfl⟩ retried hlen
  have hrets : (appendAll retried (pagedbufferCreate (fun _ => none) ⟨1, rfl⟩)).toOption.map Prod.fst =
      some [.ok, .ng, .ok] := by decide +kernel
  rw [hrun] at hrets
  obtain rfl : rets = [.ok, .ng, .ok] := Option.some.inj hrets
  refine ⟨s, hrun, hdup.trans ?_⟩
  rw [retried, accepted_cons, accepted_cons, accepted_cons, if_pos rfl, if_neg (by decide), if_pos rfl,
    accepted_nil, List.append_nil, List.singleton_append]

end PagedBuffer

end NetworkBfd.Smmr
