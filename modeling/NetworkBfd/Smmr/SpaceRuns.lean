import NetworkBfd.Lib.Loops
import NetworkBfd.Smmr.Filling

/-!
# Inserting and freeing, any number of times

A `Space` is a set of data files with the items that live in them. Every insertion of a run stays in its file and away
from the other items (`run_safe`), as long as no step needs the append path (`Fragmented`) or frees an item by a
truncated offset (`Misaddressed`). The invariant is that the live items own disjoint runs of taken pages (`Inv`).
-/

namespace NetworkBfd.Smmr

open Lib Lib.Bytes

/-- An item with the place where it is. -/
structure Live where
  item : Item
  placement : Placement

namespace Live

/-- The node that refers to it. -/
def node (l : Live) : NodeKey := l.placement.resultnode (safeHash l.item.key)

/-- Its pages, as `pageno` of its offset has them. -/
def run (l : Live) : PageRun :=
  l.item.run l.placement.field ((l.placement.offset - sizeofDbTableHeader) / ipcDatafileAligned)

end Live

/-- What `store` and `search` do to the files: an insertion, or the freeing of a live item. -/
inductive SpaceOp
  | insert (it : Item)
  | free (serial : Nat)

/-- The files, and the live items by their serial numbers. -/
structure Space where
  files : Datafiles
  live : Nat → Option Live
  serial : Nat

namespace Space

/-- Files that `init_datafiles_from_file` just made, where `mapped` says so. -/
def fresh (mapped : Nat → Bool) : Space := ⟨fun k => if mapped k then some initDatafile else none, fun _ => none, 0⟩

def step (b : Build) (s : Space) : SpaceOp → Space
  | .insert it =>
    match insertItem b it s.files with
    | (some p, files) => ⟨files, Function.update s.live s.serial (some ⟨it, p⟩), s.serial + 1⟩
    | (none, files) => { s with files := files }
  | .free n =>
    match s.live n with
    | none => s
    | some l =>
      match changeFreeToDatafile b l.node s.files with
      | (.ok, files) => { s with files := files, live := Function.update s.live n none }
      | (_, files) => { s with files := files }

/-- The insertion of the step, if it succeeds, writes behind the header, within the file, and on pages that no live
item of the file has. -/
def SafeInsert (b : Build) (s : Space) : SpaceOp → Prop
  | .insert it => ∀ p files, insertItem b it s.files = (some p, files) →
    (∀ w ∈ p.writes, sizeofDbTableHeader ≤ w.1 ∧ w.1 + w.2 ≤ ipcDatafileTtlsize) ∧
    ∀ n l, s.live n = some l → (Live.run ⟨it, p⟩).Apart l.run
  | .free _ => True

/-- The offset of a live item does not fit a node, and what the node refers to instead looks like an item. -/
def Misaddressed (s : Space) (n : Nat) : Prop :=
  ∃ l f, s.live n = some l ∧ 2 ^ 24 ≤ l.placement.offset ∧ s.files l.placement.field = some f ∧
    sizeofDbTableHeader < l.node.dataOffset.toNat ∧ itemValid f l.node.dataOffset.toNat = true

/-- A step that reaches neither of the two. -/
def Regular (b : Build) (s : Space) : SpaceOp → Prop
  | .insert it => ¬ Fragmented b s.files it
  | .free n => ¬ s.Misaddressed n

end Space

/-- Items of at most `2 ^ 20` bytes. -/
def SpaceOp.Small : SpaceOp → Prop
  | .insert it => it.key.length + it.val.length ≤ 2 ^ 20
  | .free _ => True

/-! ## The invariant -/

/-- Where a live item is. -/
structure LiveAt (b : Build) (files : Datafiles) (l : Live) (page : Nat) : Prop where
  short : l.item.Short
  field : l.placement.field < ipcDatafileMax b
  offset : l.placement.offset = pageOffset page
  page_pos : 1 ≤ page
  page_le : page + l.item.pages ≤ ipcDatafilePagecnt
  holds : ItemIn files l.placement.field page l.item

theorem LiveAt.run_eq {b : Build} {files : Datafiles} {l : Live} {page : Nat} (h : LiveAt b files l page) :
    l.run = l.item.run l.placement.field page := by
  unfold Live.run
  rw [h.offset, pageOffset, Nat.add_sub_cancel_left, Nat.mul_div_cancel_left _ (by decide)]

/-- What an insertion leaves of a live item. -/
theorem LiveAt.inserted {b : Build} {files files' : Datafiles} {it : Item} {l : Live} {page k page' : Nat}
    (h : LiveAt b files l page)
    (hs : it.Short) (hins : Inserted b files files' it k page')
    (hapart : (it.run k page').Apart (l.item.run l.placement.field page)) : LiveAt b files' l page :=
  { h with holds := hins.keeps hs h.short h.holds hapart }

namespace Space

/-- The live items are where their placements say, on pages of their own. -/
structure Inv (b : Build) (s : Space) : Prop where
  items : ∀ n l, s.live n = some l → ∃ page, LiveAt b s.files l page
  owned : Owned (pageUsed s.files) (fun n => (s.live n).isSome = true) fun n => ((s.live n).map Live.run).getD ⟨0, 0, 0⟩
  serial : ∀ n, s.serial ≤ n → s.live n = none

variable {b : Build} {s : Space} {it : Item}

theorem fresh_inv (b : Build) (mapped : Nat → Bool) : Inv b (fresh mapped) :=
  ⟨fun _ _ h => (by cases h), ⟨fun _ h => (by cases h), fun _ _ h => (by cases h)⟩, fun _ _ => rfl⟩

theorem Inv.apart (h : Inv b s) {n : Nat} {l : Live} (hl : s.live n = some l) {r : PageRun}
    (hfree : FreeRun (pageUsed s.files r.field) r.page r.count) (hpos : 0 < r.count) : r.Apart l.run := by
  obtain ⟨page, hat⟩ := h.items n l hl
  have hrun : ((s.live n).map Live.run).getD ⟨0, 0, 0⟩ = l.run := by
    rw [hl]
    rfl
  rw [← hrun]
  refine h.owned.apart_of_free hfree hpos (by rw [hl]; rfl) ?_
  rw [hrun, hat.run_eq]
  exact hat.short.aligned_eq.2.2.2

/-! ## Insertions -/

theorem insert_inv (h : Inv b s) (hs : it.Short) (hfrag : ¬ Fragmented b s.files it) :
    Inv b (s.step b (.insert it)) ∧ s.SafeInsert b (.insert it) := by
  obtain ⟨ha, -, -, hpos⟩ := hs.aligned_eq
  rcases insertItem_spec hs hfrag with ⟨k, page, writes, files', hrun, hins, -, hwrites⟩ | ⟨files', hrun, huntouched, -⟩
  · have hnew : LiveAt b files' ⟨it, k, pageOffset page, writes⟩ page :=
      ⟨hs, hins.field, rfl, hins.page_pos, hins.page_le, hins.holds⟩
    have happart : ∀ n l, s.live n = some l → (it.run k page).Apart l.run := fun n l hl =>
      @Inv.apart b s h n l hl (it.run k page) hins.free hpos
    have hne : ∀ n l, s.live n = some l → n ≠ s.serial := by
      rintro n l hl rfl
      rw [h.serial _ (Nat.le_refl _)] at hl
      cases hl
    simp only [step, SafeInsert, hrun]
    refine ⟨⟨fun n l hl => ?_, ?_, fun n hn => ?_⟩, ?_⟩
    · dsimp only at hl
      by_cases hn : n = s.serial
      · subst hn
        rw [Function.update_self] at hl
        obtain rfl := Option.some.inj hl
        exact ⟨page, hnew⟩
      · rw [Function.update_of_ne hn] at hl
        obtain ⟨page', hat⟩ := h.items n l hl
        refine ⟨page', hat.inserted hs hins ?_⟩
        rw [← hat.run_eq]
        exact happart n l hl
    · refine h.owned.place (show ¬ (s.live s.serial).isSome = true by simp [h.serial s.serial (Nat.le_refl _)])
        (fun n hn => ?_) (fun n hn => ?_) ?_ (fun n hn => ?_) ?_ ?_
      · dsimp only at hn
        by_cases hns : n = s.serial
        · exact .inl hns
        · rw [Function.update_of_ne hns] at hn
          exact .inr hn
      · obtain ⟨l, hl⟩ := Option.isSome_iff_exists.mp hn
        dsimp only
        rw [Function.update_of_ne (hne n l hl)]
      · dsimp only
        rw [Function.update_self, Option.map_some, Option.getD_some, hnew.run_eq]
        exact hpos
      · obtain ⟨l, hl⟩ := Option.isSome_iff_exists.mp hn
        obtain ⟨page', hat⟩ := h.items n l hl
        rw [hl, Option.map_some, Option.getD_some, hat.run_eq]
        exact hat.short.aligned_eq.2.2.2
      · dsimp only
        rw [Function.update_self, Option.map_some, Option.getD_some, hnew.run_eq]
        exact hins.free
      · intro j q
        simp only [Function.update_self, Option.map_some, Option.getD_some, hnew.run_eq]
        exact hins.used j q
    · dsimp only at hn ⊢
      rw [Function.update_of_ne (by omega)]
      exact h.serial n (by omega)
    · intro p files hp
      obtain ⟨hp, -⟩ := Prod.mk.inj hp
      obtain rfl := Option.some.inj hp
      refine ⟨fun w hw => ?_, fun n l hl => ?_⟩
      · obtain ⟨h1, h2⟩ := hwrites w hw
        have hend := hins.page_le
        simp only [pageOffset, sizeofDbTableHeader, ipcDatafileAligned, ipcDatafilePagecnt, ipcDatafileTtlsize]
          at h1 h2 ha hend ⊢
        omega
      · rw [hnew.run_eq]
        exact happart n l hl
  · simp only [step, SafeInsert, hrun]
    refine ⟨⟨fun n l hl => ?_, ?_, h.serial⟩, fun p files hp => (by cases hp)⟩
    · obtain ⟨page, hat⟩ := h.items n l hl
      exact ⟨page, { hat with holds := huntouched.keeps hat.holds }⟩
    · rw [huntouched.used]
      exact h.owned

/-! ## Freeing -/

/-- A node that does not reach its item, and no other, is refused. -/
theorem changeFree_refused {n : Nat} {l : Live} {page : Nat} (hl : s.live n = some l) (hat : LiveAt b s.files l page)
    (hfar : 2 ^ 24 ≤ l.placement.offset) (hmis : ¬ s.Misaddressed n) :
    changeFreeToDatafile b l.node s.files = (.ng, s.files) := by
  obtain ⟨f, hf, -⟩ := hat.holds
  have hfield : l.node.dataField.toNat = l.placement.field := toNat_dataField hat.field
  have hhigh : ¬ ipcDatafileTtlsize ≤ l.node.dataOffset.toNat := by
    have := l.node.dataOffset.isLt
    simp only [ipcDatafileTtlsize]
    omega
  simp only [changeFreeToDatafile, hfield, Nat.not_le.mpr hat.field, hhigh, if_false, hf]
  split
  · rfl
  · rename_i hlow
    have hinvalid : ¬ itemValid f l.node.dataOffset.toNat = true := fun hv =>
      hmis ⟨l, f, hl, hfar, hf, Nat.lt_of_not_le hlow, hv⟩
    rw [changeFreeRound, if_neg hinvalid]
    exact Prod.ext rfl (Function.update_eq_self_iff.mpr hf.symm)

theorem free_inv (h : Inv b s) {n : Nat} (hmis : ¬ s.Misaddressed n) : Inv b (s.step b (.free n)) := by
  simp only [step]
  cases hl : s.live n with
  | none => exact h
  | some l =>
    obtain ⟨page, hat⟩ := h.items n l hl
    rcases Nat.lt_or_ge l.placement.offset (2 ^ 24) with hnear | hfar
    · obtain ⟨files', hrun, hrel⟩ := @changeFreeToDatafile_spec b s.files l.item l.placement.field page l.node hat.holds
        hat.short hat.field hat.page_pos hat.page_le (toNat_dataField hat.field)
        ((toNat_dataOffset hnear).trans hat.offset)
      have hrunl : ((s.live n).map Live.run).getD ⟨0, 0, 0⟩ = l.item.run l.placement.field page := by
        rw [hl, Option.map_some, Option.getD_some, hat.run_eq]
      simp only [hrun]
      refine ⟨fun m k hm => ?_, ?_, fun m hm => ?_⟩
      · dsimp only at hm
        have hmn : m ≠ n := by
          rintro rfl
          rw [Function.update_self] at hm
          cases hm
        rw [Function.update_of_ne hmn] at hm
        obtain ⟨page', hat'⟩ := h.items m k hm
        exact ⟨page', { hat' with holds := hrel.keeps hat'.holds }⟩
      · refine h.owned.free (show (s.live n).isSome = true by rw [hl]; rfl) (fun m hm => ?_) (fun m hm => ?_) ?_
        · dsimp only at hm
          have hmn : m ≠ n := by
            rintro rfl
            rw [Function.update_self] at hm
            cases hm
          rw [Function.update_of_ne hmn] at hm
          exact ⟨hmn, hm⟩
        · dsimp only at hm
          have hmn : m ≠ n := by
            rintro rfl
            rw [Function.update_self] at hm
            cases hm
          dsimp only
          rw [Function.update_of_ne hmn]
        · intro j q
          simp only [hrunl]
          exact hrel.used j q
      · dsimp only
        by_cases hmn : m = n
        · rw [hmn, Function.update_self]
        · rw [Function.update_of_ne hmn]
          exact h.serial m hm
    · simp only [changeFree_refused hl hat hfar hmis]
      exact h

/-! ## Runs -/

theorem Small.short {op : SpaceOp} (h : op.Small) : ∀ it, op = .insert it → it.Short := by
  rintro it rfl
  simp only [SpaceOp.Small] at h
  simp only [Item.Short, sizeofDataitm, ipcDatafileAligned]
  omega

/-- One regular step. -/
theorem step_inv (h : Inv b s) {op : SpaceOp} (hsmall : op.Small) (hreg : s.Regular b op) :
    Inv b (s.step b op) ∧ s.SafeInsert b op := by
  cases op with
  | insert it => exact insert_inv h (Small.short hsmall it rfl) hreg
  | free n => exact ⟨free_inv h hreg, trivial⟩

def run (b : Build) (s : Space) (ops : List SpaceOp) : Space := ops.foldl (step b) s

theorem run_inv : ∀ (ops : List SpaceOp) {s : Space}, Inv b s → (∀ op ∈ ops, op.Small) →
    (∀ before op after, ops = before ++ op :: after → (s.run b before).Regular b op) → Inv b (s.run b ops)
  | [], _, h, _, _ => h
  | op :: ops, s, h, hsmall, hreg => by
    have h₁ := (step_inv h (hsmall op (List.mem_cons_self ..)) (hreg [] op ops rfl)).1
    refine run_inv ops h₁ (fun o ho => hsmall o (List.mem_cons_of_mem _ ho)) fun before o after heq => ?_
    exact hreg (op :: before) o after (by rw [heq]; rfl)

/-- In every run of regular steps on fresh data files, every insertion that succeeds stays within its file and on pages
that no other live item has. -/
theorem run_safe (b : Build) (mapped : Nat → Bool) (ops : List SpaceOp) (hsmall : ∀ op ∈ ops, op.Small)
    (hreg : ∀ before op after, ops = before ++ op :: after → ((fresh mapped).run b before).Regular b op) :
    ∀ before op after, ops = before ++ op :: after → ((fresh mapped).run b before).SafeInsert b op := by
  rintro before op after rfl
  have hinv : Inv b ((fresh mapped).run b before) := by
    refine run_inv before (fresh_inv b mapped) (fun o ho => hsmall o (List.mem_append_left _ ho)) ?_
    intro before' o after' heq
    exact hreg before' o (after' ++ op :: after) (by rw [heq, List.append_assoc]; rfl)
  exact (step_inv hinv (hsmall op (List.mem_append_right _ (List.mem_cons_self ..))) (hreg before op after rfl)).2

/-- An item of one page. -/
def small : Item := ⟨[1], [2], 0, Item.keylen_one_lt, by decide⟩

theorem small_regular {s : Space} : s.Regular b (.insert small) := fun hfrag => absurd (by decide) hfrag.1

/-- Two items come into a single fresh file, the first is freed, and a third one comes. -/
def reuse : List SpaceOp := [.insert small, .insert small, .free 0, .insert small]

/-- The third item is placed while the second lives, on pages of its own. -/
theorem run_safe_reuse : ∃ s p files l, s = (fresh fun k => k == 0).run .test [.insert small, .insert small, .free 0] ∧
    s.live 0 = none ∧ s.live 1 = some l ∧ insertItem .test small s.files = (some p, files) ∧
    (Live.run ⟨small, p⟩).Apart l.run := by
  generalize hs : (fresh fun k => k == 0).run .test [.insert small, .insert small, .free 0] = s
  have hrun : (s.live 0).isNone = true ∧ (s.live 1).isSome = true ∧
      (insertItem .test small s.files).1.isSome = true := by
    subst hs
    decide +kernel
  obtain ⟨hfreed, hlive, hplaced⟩ := hrun
  obtain ⟨l, hl⟩ := Option.isSome_iff_exists.mp hlive
  obtain ⟨p, hp⟩ := Option.isSome_iff_exists.mp hplaced
  have hnear : ¬ ((fresh fun k => k == 0).run .test [.insert small, .insert small]).Misaddressed 0 := by
    rintro ⟨l, f, hl, hfar, -⟩
    have hoffset : (((fresh fun k => k == 0).run .test [.insert small, .insert small]).live 0).map
        (fun l => l.placement.offset) = some (pageOffset 1) := by decide +kernel
    rw [hl] at hoffset
    have hpage : l.placement.offset = pageOffset 1 := Option.some.inj hoffset
    rw [hpage] at hfar
    exact absurd hfar (by decide)
  have hsafe := run_safe .test (fun k => k == 0) reuse (fun op hop => ?_)
    (forall_split_cons small_regular (forall_split_cons small_regular (forall_split_cons hnear
      (forall_split_cons small_regular forall_split_nil)))) [.insert small, .insert small, .free 0]
      (.insert small) [] rfl
  · rw [hs] at hsafe
    exact ⟨s, p, _, l, rfl, Option.isNone_iff_eq_none.mp hfreed, hl, Prod.ext hp rfl,
      (hsafe p _ (Prod.ext hp rfl)).2 1 l hl⟩
  · have hsmall : (SpaceOp.insert small).Small := show 2 ≤ 2 ^ 20 by decide
    simp only [reuse, List.mem_cons, List.not_mem_nil, or_false] at hop
    rcases hop with rfl | rfl | rfl | rfl
    · exact hsmall
    · exact hsmall
    · trivial
    · exact hsmall

/-! ## An offset that does not fit -/

/-- With a single file, an item goes to the first pages that are free. -/
theorem insert_first {files : Datafiles} {f : Bytes} {p : Nat} (honly : ∀ k, k ≠ 0 → files k = none)
    (hf : files 0 = some f) (hs : it.Short) (hroom : it.aligned < remainLength f) (hp : 1 ≤ p)
    (hend : p + it.pages ≤ ipcDatafilePagecnt) (hfree : FreeRun (taken f) p it.pages)
    (hbelow : ∀ q, 1 ≤ q → q < p → taken f q = true) :
    ∃ writes f' files', insertItem b it files = (some ⟨0, pageOffset p, writes⟩, files') ∧ files' 0 = some f' ∧
      (∀ k, k ≠ 0 → files' k = none) ∧ Placed f f' p it := by
  have hpos := hs.aligned_eq.2.2.2
  have hmax : 0 < ipcDatafileMax b := by cases b <;> decide
  obtain ⟨p', f', writes, hround, hplaced⟩ : ∃ p' f' writes,
      freepageRound 0 f it = (some ⟨0, pageOffset p', writes⟩, f') ∧ Placed f f' p' it := by
    rcases freepageRound_spec 0 f hs with ⟨p', f', writes, hround, hplaced, -⟩ | ⟨f', -, ⟨-, hle⟩ | ⟨-, hnone⟩⟩
    · exact ⟨p', f', writes, hround, hplaced⟩
    · exact absurd hroom (Nat.not_lt.mpr hle)
    · exact absurd hfree (hnone p hp hend)
  obtain rfl : p' = p := Option.some.inj (hplaced.first.unique (isFirstRun_of_taken hpos hp hend hfree hbelow))
  obtain ⟨r, files', hrun, hout, hcase⟩ := @tryFiles_spec freepageRound it (distid b it) files (nodup_distid b it)
  have hother : ∀ n, n ≠ 0 → PassedOver freepageRound it n (files n) (files' n) → files' n = none := by
    rintro n hn (heq | ⟨g, hg, -⟩)
    · rw [heq, honly n hn]
    · rw [honly n hn] at hg
      cases hg
  rcases hcase with ⟨n, g, q, g', hn, hg, hround', rfl, hg', hpass⟩ | ⟨-, hall⟩
  · have hn0 : n = 0 := by
      by_contra hne
      rw [honly n hne] at hg
      cases hg
    subst hn0
    obtain rfl := Option.some.inj (hf.symm.trans hg)
    obtain ⟨hq, rfl⟩ := Prod.mk.inj (hround'.symm.trans hround)
    refine ⟨writes, g', files', ?_, hg', fun k hk => hother k hk (hpass k hk), hplaced⟩
    rw [insertItem, insertToDatafileAtFreepage, hrun, hq]
  · have hnone := (hall 0 (mem_distid.mpr hmax)).2 f hf
    rw [hround] at hnone
    cases hnone

/-- An item of `2 ^ 20` bytes with its header takes 8192 pages. -/
theorem pages_of_length (hit : it.key.length + it.val.length = 1048552) :
    it.Short ∧ it.aligned = 2 ^ 20 ∧ it.pages = 8192 := by
  have hs : it.Short := by
    rw [Item.Short, hit]
    decide
  have ha : it.aligned = 2 ^ 20 := by
    rw [Item.aligned, hs.length_eq, Nat.add_assoc, hit]
    decide
  refine ⟨hs, ha, ?_⟩
  rw [Item.pages, ha]
  decide

/-- A single file with `n` items of 8192 pages in a row. -/
structure Filled (it : Item) (s : Space) (n : Nat) : Prop where
  only : ∀ k, k ≠ 0 → s.files k = none
  file : ∃ f, s.files 0 = some f ∧ (∀ q, taken f q = decide (1 ≤ q ∧ q < 1 + 8192 * n)) ∧
    remainLength f = 134086528 - 2 ^ 20 * n ∧ ∀ i, i < n → HoldsItem f (pageOffset (1 + 8192 * i)) it
  live : ∀ i, i < n → ∃ w, s.live i = some ⟨it, 0, pageOffset (1 + 8192 * i), w⟩
  serial : s.serial = n

theorem fresh_filled (it : Item) : Filled it (fresh fun k => k == 0) 0 := by
  refine ⟨fun k hk => ?_, ⟨initDatafile, rfl, fun q => ?_, ?_, fun i hi => absurd hi (Nat.not_lt_zero i)⟩,
    fun i hi => absurd hi (Nat.not_lt_zero i), rfl⟩
  · simp only [fresh, beq_eq_false_iff_ne.mpr hk, Bool.false_eq_true, if_false]
  · exact (fillsTo_initDatafile.taken q).trans (decide_eq_decide.mpr (by omega))
  · exact fillsTo_initDatafile.remain.trans (by decide)

theorem step_filled (hit : it.key.length + it.val.length = 1048552) {n : Nat} (h : Filled it s n) (hn : n ≤ 100) :
    Filled it (s.step b (.insert it)) (n + 1) := by
  obtain ⟨honly, ⟨f, hf, htaken, hremain, hholds⟩, hlive, hserial⟩ := h
  obtain ⟨hs, ha, hpages⟩ := pages_of_length hit
  obtain ⟨w, f', files', hrun, hf', honly', hplaced⟩ := @insert_first b it s.files f (1 + 8192 * n) honly hf hs
    (by rw [ha, hremain]; omega) (by omega)
    (by rw [hpages]; simp only [ipcDatafilePagecnt, ipcDatafileTtlsize, sizeofDbTableHeader, ipcDatafileAligned]; omega)
    (fun q h1 _ => by rw [htaken, decide_eq_false (by omega)])
    (fun q h1 h2 => by rw [htaken, decide_eq_true (by omega)])
  simp only [step, hrun]
  refine ⟨honly', ⟨f', hf', fun q => ?_, ?_, fun i hi => ?_⟩, fun i hi => ?_, by rw [hserial]⟩
  · rw [hplaced.taken, htaken, hpages]
    split
    · exact (decide_eq_true (by omega)).symm
    · exact decide_eq_decide.mpr (by omega)
  · rw [hplaced.remain, hremain, ha]
    omega
  · rcases Nat.lt_or_eq_of_le (Nat.le_of_lt_succ hi) with hlt | rfl
    · have hend := @Item.Short.bytes_le it (1 + 8192 * i) hs
      rw [hpages] at hend
      refine (hholds i hlt).congr fun j h1 h2 => hplaced.others j ?_ (.inl ?_)
      · exact Nat.le_trans (Nat.le_add_right _ _) h1
      · simp only [pageOffset, sizeofDbTableHeader, ipcDatafileAligned] at h2 hend ⊢
        omega
    · exact hplaced.holds
  · dsimp only
    rcases Nat.lt_or_eq_of_le (Nat.le_of_lt_succ hi) with hlt | rfl
    · rw [Function.update_of_ne (by omega)]
      exact hlive i hlt
    · rw [hserial, Function.update_self]
      exact ⟨w, rfl⟩

theorem run_filled (hit : it.key.length + it.val.length = 1048552) : ∀ (m : Nat) {s : Space} {n : Nat},
    Filled it s n → n + m ≤ 101 → Filled it (s.run b (List.replicate m (.insert it))) (n + m)
  | 0, _, _, h, _ => h
  | m + 1, s, n, h, hm => by
    rw [List.replicate_succ, Nat.add_comm m, ← Nat.add_assoc]
    exact run_filled hit m (step_filled hit h (by omega)) (by omega)

/-- Seventeen items, of which the last is freed, and one more. -/
def tooFar (it : Item) : List SpaceOp := List.replicate 17 (.insert it) ++ [.free 16, .insert it]

/-- The seventeenth item lies `2 ^ 24` bytes behind the first, so the pages of the first are given back and used again
while it lives. -/
theorem overlaps_of_length (hit : it.key.length + it.val.length = 1048552) :
    ¬ ∀ before op after, tooFar it = before ++ op :: after →
      ((fresh fun k => k == 0).run .test before).SafeInsert .test op := by
  obtain ⟨hs, ha, hpages⟩ := pages_of_length hit
  intro hsafe
  obtain ⟨s, hs₁, hfilled⟩ : ∃ s, (fresh fun k => k == 0).run .test (List.replicate 17 (.insert it)) = s ∧
      Filled it s (0 + 17) :=
    ⟨_, rfl, run_filled hit 17 (fresh_filled it) (by decide)⟩
  have hsafe' := hsafe (List.replicate 17 (.insert it) ++ [.free 16]) (.insert it) [] rfl
  have happ : (fresh fun k => k == 0).run .test (List.replicate 17 (.insert it) ++ [.free 16]) =
      s.run .test [.free 16] := by
    rw [← hs₁]
    exact List.foldl_append
  rw [happ] at hsafe'
  obtain ⟨honly, ⟨f, hf, htaken, hremain, hholds⟩, hlive, -⟩ := hfilled
  obtain ⟨w, hl⟩ := hlive 16 (by decide)
  obtain ⟨w₀, hl₀⟩ := hlive 0 (by decide)
  -- the node of the seventeenth item refers to the first
  have hnode : (Live.node ⟨it, 0, pageOffset (1 + 8192 * 16), w⟩).dataOffset.toNat = pageOffset 1 := by
    simp only [Live.node, Placement.resultnode, BitVec.toNat_ofNat]
    decide
  have hfield : (Live.node ⟨it, 0, pageOffset (1 + 8192 * 16), w⟩).dataField.toNat = 0 := rfl
  have hvalid := (hholds 0 (by decide)).valid hs
  obtain ⟨f', hround, hfreed⟩ := changeFreeRound_spec (hholds 0 (by decide)) hs (by rw [hpages]; decide)
  have hremain' : remainLength f' = 134086528 - 2 ^ 20 * 17 + 2 ^ 27 := by
    have hfst : f' = (changeFreeRound f (pageOffset 1)).2 := (congrArg Prod.snd hround).symm
    have halign : alignedSize (itemLengthField f (pageOffset 1)) = 2 ^ 20 := by
      rw [(hholds 0 (by decide)).length]
      exact ha
    rw [hfst, changeFreeRound, if_pos hvalid]
    simp only [remainLength_setRemainLength, remainLength_setPages, halign, hremain]
    decide
  have hfree : changeFreeToDatafile .test (Live.node ⟨it, 0, pageOffset (1 + 8192 * 16), w⟩) s.files =
      (.ok, Function.update s.files 0 (some f')) := by
    have h1 : ¬ ipcDatafileMax .test ≤ 0 := by decide
    have h2 : ¬ ipcDatafileTtlsize ≤ pageOffset 1 := by decide
    have h3 : ¬ pageOffset 1 ≤ sizeofDbTableHeader := by decide
    have hround' : changeFreeRound f (pageOffset 1) = (.ok, f') := hround
    simp only [changeFreeToDatafile, hnode, hfield, h1, h2, h3, if_false, hf, hround']
  have hstep : (s.run .test [.free 16]) =
      ⟨Function.update s.files 0 (some f'), Function.update s.live 16 none, s.serial⟩ := by
    simp only [run, List.foldl_cons, List.foldl_nil, step, hl, hfree]
  rw [hstep] at hsafe'
  -- and its pages are the first ones that are free now
  obtain ⟨w', f'', files'', hrun, -⟩ := @insert_first .test it (Function.update s.files 0 (some f')) f' 1
    (fun k hk => by rw [Function.update_of_ne hk, honly k hk]) (Function.update_self ..) hs
    (by rw [ha, hremain']; decide) (Nat.le_refl _) (by rw [hpages]; decide)
    (fun q h1 h2 => by rw [hfreed.taken, if_pos ⟨h1, h2⟩]) (fun q h1 h2 => by omega)
  obtain ⟨-, hapart⟩ := hsafe' _ _ hrun
  have hlive₀ : Function.update s.live 16 none 0 = some ⟨it, 0, pageOffset (1 + 8192 * 0), w₀⟩ := by
    rw [Function.update_of_ne (by decide)]
    exact hl₀
  rcases hapart 0 _ hlive₀ rfl with hle | hle
  · simp only [Live.run, Item.run, hpages] at hle
    exact absurd hle (by decide)
  · simp only [Live.run, Item.run, hpages] at hle
    exact absurd hle (by decide)

/-- An item of `2 ^ 20` bytes with its header. -/
def big : Item where
  key := [1]
  val := List.replicate 1048551 0
  expire := 0
  keylen_lt := Item.keylen_one_lt
  vallen_lt := by
    rw [List.length_replicate]
    decide

theorem length_big : big.key.length + big.val.length = 1048552 := by
  have h : big.val.length = 1048551 := @List.length_replicate _ 1048551 0
  rw [h]
  rfl

/-- Small items, and an insertion that is not safe. -/
theorem tooFar_overlaps : (∀ op ∈ tooFar big, op.Small) ∧
    ¬ ∀ before op after, tooFar big = before ++ op :: after →
      ((fresh fun k => k == 0).run .test before).SafeInsert .test op := by
  refine ⟨fun op hop => ?_, overlaps_of_length length_big⟩
  have hbig : (SpaceOp.insert big).Small := Nat.le_trans (Nat.le_of_eq length_big) (by decide)
  rcases List.mem_append.mp hop with hop | hop
  · rw [List.eq_of_mem_replicate hop]
    exact hbig
  · simp only [List.mem_cons, List.not_mem_nil, or_false] at hop
    rcases hop with rfl | rfl
    · trivial
    · exact hbig

end Space

end NetworkBfd.Smmr
