import NetworkBfd.Lib.LittleEndian

/-!
# Byte memory

A memory has a byte at every address. `read` and `write` move byte strings, `word` and `putWord` little-endian
numbers, and `bit` and `setBits` the bits of a bitmap that starts at an address. For each of them there is the lemma
that reads back what was written, and the frame lemma that says what stays. A `Patch` writes the same bytes into every
memory, so that a second time changes nothing (`Patch.idempotent`).
-/

namespace NetworkBfd.Lib

abbrev Bytes := Nat → BitVec 8

namespace Bytes

variable {m m' : Bytes} {a b n : Nat} {bs : List (BitVec 8)}

/-- The `n` bytes from `a` on. -/
def read (m : Bytes) (a : Nat) : Nat → List (BitVec 8)
  | 0 => []
  | n + 1 => m a :: read m (a + 1) n

/-- `bs` at `a`. -/
def write (m : Bytes) (a : Nat) (bs : List (BitVec 8)) : Bytes := fun i =>
  if a ≤ i then (bs[i - a]?).getD (m i) else m i

/-! ## Byte strings -/

@[simp] theorem length_read (m : Bytes) : ∀ n a : Nat, (read m a n).length = n
  | 0, _ => rfl
  | n + 1, a => by rw [read, List.length_cons, length_read m n]

theorem getElem?_read (m : Bytes) : ∀ n a i : Nat, (read m a n)[i]? = if i < n then some (m (a + i)) else none
  | 0, a, i => by simp [read]
  | n + 1, a, 0 => by simp [read]
  | n + 1, a, i + 1 => by
    rw [read, List.getElem?_cons_succ, getElem?_read m n, Nat.add_right_comm]
    simp [Nat.add_assoc]

theorem read_congr (h : ∀ i, a ≤ i → i < a + n → m' i = m i) : read m' a n = read m a n := by
  apply List.ext_getElem?
  intro i
  rw [getElem?_read, getElem?_read]
  split
  · rw [h (a + i) (by omega) (by omega)]
  · rfl

theorem read_append (m : Bytes) (a n k : Nat) : read m a (n + k) = read m a n ++ read m (a + n) k := by
  induction n generalizing a with
  | zero => simp [read]
  | succ n ih =>
    rw [Nat.add_right_comm, read, ih, read, List.cons_append]
    congr 3
    omega

/-- A byte outside of what is written. -/
theorem write_of_outside {i : Nat} (h : i < a ∨ a + bs.length ≤ i) : write m a bs i = m i := by
  unfold write
  split
  · rw [List.getElem?_eq_none (by omega), Option.getD_none]
  · rfl

theorem write_of_inside {i : Nat} (h : i < bs.length) : write m a bs (a + i) = bs[i] := by
  rw [write, if_pos (Nat.le_add_right a i), Nat.add_sub_cancel_left, List.getElem?_eq_getElem h, Option.getD_some]

@[simp] theorem read_write_self (m : Bytes) (a : Nat) (bs : List (BitVec 8)) :
    read (write m a bs) a bs.length = bs := by
  apply List.ext_getElem?
  intro i
  rw [getElem?_read]
  split
  · rename_i h
    rw [write_of_inside h, List.getElem?_eq_getElem h]
  · rename_i h
    rw [List.getElem?_eq_none (by omega)]

/-- What is read can be written back. -/
theorem write_read (m : Bytes) (a n : Nat) : write m a (read m a n) = m := by
  funext i
  by_cases h : a ≤ i ∧ i < a + n
  · obtain ⟨j, rfl⟩ := Nat.exists_eq_add_of_le h.1
    rw [write, if_pos h.1, Nat.add_sub_cancel_left, getElem?_read, if_pos (by omega), Option.getD_some]
  · refine write_of_outside ?_
    rw [length_read]
    omega

/-- Bytes beside what is written. -/
theorem read_write_of_disjoint (h : b + n ≤ a ∨ a + bs.length ≤ b) : read (write m a bs) b n = read m b n :=
  read_congr fun i h1 h2 => write_of_outside (by omega)

/-- Two strings written one behind the other. -/
theorem write_write (m : Bytes) (a : Nat) (bs cs : List (BitVec 8)) :
    write (write m a bs) (a + bs.length) cs = write m a (bs ++ cs) := by
  funext i
  by_cases ha : a ≤ i
  · by_cases hbs : i < a + bs.length
    · rw [write_of_outside (.inl hbs), write, write, if_pos ha, if_pos ha, List.getElem?_append_left (by omega)]
    · rw [write, write, write, if_pos (by omega), if_pos ha, if_pos ha, List.getElem?_append_right (by omega),
        List.getElem?_eq_none (by omega : bs.length ≤ i - a), Option.getD_none, Nat.sub_sub]
  · rw [write_of_outside (.inl (by omega)), write_of_outside (.inl (by omega)), write_of_outside (.inl (by omega))]

/-! ## Words -/

/-- The `n` bytes at `a` as a number, least first. -/
def word (m : Bytes) (a n : Nat) : Nat := ofBytes (read m a n)

/-- The number `v` in the `n` bytes at `a`. -/
def putWord (m : Bytes) (a n v : Nat) : Bytes := write m a (toBytes n v)

theorem word_lt (m : Bytes) (a n : Nat) : word m a n < 256 ^ n := by
  have h := ofBytes_lt (read m a n)
  rwa [length_read] at h

theorem word_congr (h : ∀ i, a ≤ i → i < a + n → m' i = m i) : word m' a n = word m a n :=
  congrArg ofBytes (read_congr h)

theorem word_putWord_self (m : Bytes) (a n v : Nat) : word (putWord m a n v) a n = v % 256 ^ n := by
  have h := read_write_self m a (toBytes n v)
  rw [length_toBytes] at h
  rw [word, putWord, h, ofBytes_toBytes]

theorem putWord_word (m : Bytes) (a n : Nat) : putWord m a n (word m a n) = m := by
  have h := toBytes_ofBytes (read m a n)
  rw [length_read] at h
  rw [putWord, word, h, write_read]

/-- The bytes of a word are those of an equal one. -/
theorem byte_of_word {i : Nat} (h : word m' a n = word m a n) (h1 : a ≤ i) (h2 : i < a + n) : m' i = m i := by
  have hread : read m' a n = read m a n := by
    rw [← toBytes_ofBytes (read m' a n), ← toBytes_ofBytes (read m a n), length_read, length_read]
    exact congrArg (toBytes n) h
  have hget := congrArg (fun l => l[i - a]?) hread
  simp only [getElem?_read] at hget
  rwa [if_pos (by omega), if_pos (by omega), Nat.add_sub_cancel' h1, Option.some_inj] at hget

theorem putWord_of_outside {v i : Nat} (h : i < a ∨ a + n ≤ i) : putWord m a n v i = m i :=
  write_of_outside (by rwa [length_toBytes])

theorem word_putWord_of_disjoint {k v : Nat} (h : b + k ≤ a ∨ a + n ≤ b) : word (putWord m a n v) b k = word m b k :=
  word_congr fun i h1 h2 => putWord_of_outside (by omega)

/-! ## Patches -/

/-- A change that puts the same bytes into every memory, and leaves the others. -/
def Patch (f : Bytes → Bytes) : Prop := ∀ i, (∀ m, f m i = m i) ∨ ∃ v, ∀ m, f m i = v

theorem patch_write (a : Nat) (bs : List (BitVec 8)) : Patch fun m => write m a bs := by
  intro i
  by_cases h : i < a ∨ a + bs.length ≤ i
  · exact .inl fun m => write_of_outside h
  · right
    obtain ⟨j, rfl⟩ := Nat.exists_eq_add_of_le (by omega : a ≤ i)
    exact ⟨bs.get ⟨j, by omega⟩, fun m => write_of_inside (by omega)⟩

theorem patch_putWord (a n v : Nat) : Patch fun m => putWord m a n v := patch_write a (toBytes n v)

namespace Patch

variable {f g : Bytes → Bytes}

theorem comp (hg : Patch g) (hf : Patch f) : Patch fun m => g (f m) := by
  intro i
  rcases hg i with h | ⟨v, h⟩
  · rcases hf i with h' | ⟨v, h'⟩
    · exact .inl fun m => (h (f m)).trans (h' m)
    · exact .inr ⟨v, fun m => (h (f m)).trans (h' m)⟩
  · exact .inr ⟨v, fun m => h (f m)⟩

theorem idempotent (hf : Patch f) (m : Bytes) : f (f m) = f m := by
  funext i
  rcases hf i with h | ⟨v, h⟩
  · exact h (f m)
  · exact (h (f m)).trans (h m).symm

/-- A byte of the result depends on the same byte only. -/
theorem congr {i : Nat} (hf : Patch f) (h : m' i = m i) : f m' i = f m i := by
  rcases hf i with h' | ⟨v, h'⟩
  · rw [h', h', h]
  · rw [h', h']

end Patch

/-! ## Bitmaps -/

/-- Bit `p` of the bitmap at `a`. -/
def bit (m : Bytes) (a p : Nat) : Bool := (m (a + p / 8)).getLsbD (p % 8)

/-- Bit `p` of the bitmap at `a` is set to `v`. -/
def setBit (m : Bytes) (a p : Nat) (v : Bool) : Bytes :=
  let x := m (a + p / 8)
  write m (a + p / 8) [if v then x ||| (1#8 <<< (p % 8)) else x &&& ~~~(1#8 <<< (p % 8))]

/-- The `n` bits from `p` on, one after the other. -/
def setBits (m : Bytes) (a p : Nat) (v : Bool) : Nat → Bytes
  | 0 => m
  | n + 1 => setBits (setBit m a p v) a (p + 1) v n

theorem bit_congr {p : Nat} (h : m' (a + p / 8) = m (a + p / 8)) : bit m' a p = bit m a p := by rw [bit, bit, h]

theorem getLsbD_mask {x : BitVec 8} {v : Bool} {i j : Nat} (hi : i < 8) :
    (if v then x ||| (1#8 <<< j) else x &&& ~~~(1#8 <<< j)).getLsbD i = if j = i then v else x.getLsbD i := by
  cases v with
  | true =>
    by_cases hj : j = i
    · subst hj
      simp [hi]
    · rw [if_neg hj, if_pos rfl, BitVec.getLsbD_or, BitVec.getLsbD_shiftLeft, BitVec.getLsbD_one]
      have hne : decide (i < j) = true ∨ decide (i - j = 0) = false := by simp; omega
      rcases hne with hne | hne <;> simp [hne]
  | false =>
    by_cases hj : j = i
    · subst hj
      simp [hi]
    · rw [if_neg hj, if_neg Bool.false_ne_true, BitVec.getLsbD_and, BitVec.getLsbD_not, BitVec.getLsbD_shiftLeft,
        BitVec.getLsbD_one]
      have hne : decide (i < j) = true ∨ decide (i - j = 0) = false := by simp; omega
      rcases hne with hne | hne <;> simp [hne, hi]

theorem bit_setBit (m : Bytes) (a p q : Nat) (v : Bool) :
    bit (setBit m a p v) a q = if p = q then v else bit m a q := by
  by_cases hb : q / 8 = p / 8
  · have h0 : a + q / 8 = a + p / 8 + 0 := by omega
    rw [bit, setBit, h0, write_of_inside (by simp), List.getElem_cons_zero, getLsbD_mask (Nat.mod_lt _ (by decide)),
      bit, hb]
    congr 1
    rw [eq_iff_iff]
    omega
  · rw [if_neg (by rintro rfl; exact hb rfl)]
    exact bit_congr (write_of_outside (by simp; omega))

/-- The other bits, wherever they are. -/
theorem getLsbD_setBit {p i j : Nat} {v : Bool} (h : i ≠ a + p / 8 ∨ j ≠ p % 8) (hj : j < 8) :
    (setBit m a p v i).getLsbD j = (m i).getLsbD j := by
  by_cases hi : i = a + p / 8
  · subst hi
    have hself : ∀ x, write m (a + p / 8) [x] (a + p / 8) = x := fun x => @write_of_inside m (a + p / 8) [x] 0 (by simp)
    rw [setBit, hself, getLsbD_mask hj, if_neg (by omega)]
  · rw [setBit, write_of_outside (by simp; omega)]

theorem setBit_of_outside {p i : Nat} {v : Bool} (h : i ≠ a + p / 8) : setBit m a p v i = m i :=
  write_of_outside (by simp; omega)

theorem bit_setBits (a q : Nat) (v : Bool) : ∀ (n : Nat) (m : Bytes) (p : Nat),
    bit (setBits m a p v n) a q = if p ≤ q ∧ q < p + n then v else bit m a q
  | 0, m, p => by rw [setBits, if_neg (by omega)]
  | n + 1, m, p => by
    rw [setBits, bit_setBits a q v n, bit_setBit]
    split_ifs <;> first | rfl | omega

/-- A byte outside of the bits that are set. -/
theorem setBits_of_outside {i : Nat} (v : Bool) : ∀ (n : Nat) (m : Bytes) (p : Nat),
    i < a + p / 8 ∨ a + (p + n + 7) / 8 ≤ i → setBits m a p v n i = m i
  | 0, _, _, _ => rfl
  | n + 1, m, p, h => by
    rw [setBits, setBits_of_outside v n _ _ (by omega), setBit_of_outside (by omega)]

end Bytes

end NetworkBfd.Lib
