import Mathlib.Logic.Relation
import NetworkBfd.Smmr.Memory.Opening
import NetworkBfd.Smmr.Tree.Access

/-!
# The tree operations on the file of their category

What an operation asks of its category is a list of calls (`Asks`): blocks are allocated and freed, node blocks and the
root record are written. The guarded operations ask for nothing else, and only of live blocks (`addTreeGuarded_reaches`,
`removeTreeGuarded_reaches`). A file that answers the calls (`Answers`) is accessed as `TreeAccess` says, and its node
blocks stay those of the tree (`Rooted.accesses`); so an open file stays open under the operations (`Opened.addTree`,
`Opened.removeTree`).
-/

namespace NetworkBfd.Smmr

open Lib

/-- A call of a tree operation to its category. -/
inductive TreeCall
  | shmalloc (answer : Option NodeInstanceOffset)
  | shmfree (nodei : NodeInstanceOffset)
  | node (nodei : NodeInstanceOffset)
  | root

namespace CategoryTree

/-- From `s` to `s'` by the calls of the list, all of them to live blocks. -/
inductive Asks : CategoryTree → List TreeCall → CategoryTree → Prop
  | nil {s : CategoryTree} : Asks s [] s
  | shmalloc {s s₁ s' : CategoryTree} {ref : NodeInstanceOffset} {notnull : Bool} {E : List TreeCall}
    (hs : s.shmalloc = .ok (ref, notnull, s₁)) (h : Asks s₁ E s') :
    Asks s (.shmalloc (if notnull then some ref else none) :: E) s'
  | shmfree {s s' : CategoryTree} {nodei : NodeInstanceOffset} {E : List TreeCall} (hl : nodei.addr ∈ s.live)
    (h : Asks (s.shmfree nodei) E s') : Asks s (.shmfree nodei :: E) s'
  | node {s s' : CategoryTree} {nodei : NodeInstanceOffset} {f : NodeInstance → NodeInstance} {E : List TreeCall}
    (hl : nodei.addr ∈ s.live) (h : Asks (s.modify nodei f) E s') : Asks s (.node nodei :: E) s'
  | root {s s₁ s' : CategoryTree} {E : List TreeCall} (hl : s₁.live = s.live) (hm : s₁.mem = s.mem)
    (ha : s₁.answers = s.answers) (h : Asks s₁ E s') : Asks s (.root :: E) s'

/-- `s'` is reached from `s` by some calls. -/
def Reaches (s s' : CategoryTree) : Prop := ∃ E, Asks s E s'

variable {s s₁ s₂ s' : CategoryTree} {ref nodei : NodeInstanceOffset} {pos fuel : Nat}

theorem Asks.append {E F : List TreeCall} (h : Asks s E s₁) (h' : Asks s₁ F s') : Asks s (E ++ F) s' := by
  induction h with
  | nil => exact h'
  | shmalloc hs _ ih => exact .shmalloc hs (ih h')
  | shmfree hl _ ih => exact .shmfree hl (ih h')
  | node hl _ ih => exact .node hl (ih h')
  | root hl hm ha _ ih => exact .root hl hm ha (ih h')

namespace Reaches

theorem refl (s : CategoryTree) : Reaches s s := ⟨[], .nil⟩

theorem trans (h : Reaches s s₁) (h' : Reaches s₁ s') : Reaches s s' := by
  obtain ⟨E, hE⟩ := h
  obtain ⟨F, hF⟩ := h'
  exact ⟨E ++ F, hE.append hF⟩

theorem root (hl : s₁.live = s.live) (hm : s₁.mem = s.mem) (ha : s₁.answers = s.answers) : Reaches s s₁ :=
  ⟨[.root], .root hl hm ha .nil⟩

theorem modify (hl : nodei.addr ∈ s.live) (f : NodeInstance → NodeInstance) : Reaches s (s.modify nodei f) :=
  ⟨[.node nodei], .node hl .nil⟩

theorem shmfree (hl : nodei.addr ∈ s.live) : Reaches s (s.shmfree nodei) := ⟨[.shmfree nodei], .shmfree hl .nil⟩

end Reaches

/-! ## The guarded operations -/

/-- A run that fails is not followed. -/
abbrev Anyway (_ : Fault) : Prop := True

/-- What is read does not matter. -/
theorem yields_any {α : Type} (m : Except Fault α) : Yields Anyway m fun _ => True := by
  cases m with
  | ok a => trivial
  | error e => trivial

theorem check_yields (p : Prop) [Decidable p] : Yields Anyway (check p) fun _ => p := by
  rw [check]
  split
  · assumption
  · trivial

/-- A block that is handed out is live. -/
theorem shmalloc_live {notnull : Bool} (hs : s.shmalloc = .ok (ref, notnull, s')) :
    s'.live = if notnull then insert ref.addr s.live else s.live := by
  unfold CategoryTree.shmalloc at hs
  split at hs
  · split at hs
    · cases hs
      rfl
    · cases hs
  · cases hs
    rfl
  · cases hs

theorem shmalloc_reaches (s : CategoryTree) : Yields Anyway s.shmalloc fun r =>
    Reaches s r.2.2 ∧ r.2.2.live = if r.2.1 then insert r.1.addr s.live else s.live := by
  cases hs : s.shmalloc with
  | error e => trivial
  | ok r => exact ⟨⟨_, .shmalloc hs .nil⟩, shmalloc_live hs⟩

/-- A block that is read is live. -/
theorem fetch_yields (s : CategoryTree) (ref : NodeInstanceOffset) :
    Yields Anyway (s.fetch ref) fun _ => ref.addr ∈ s.live :=
  (check_yields _).bind fun _ h => h

theorem edit_reaches (p : Nat → Prop) [DecidablePred p] (f : NodeInstance → NodeInstance) :
    Yields Anyway (s.edit ref p f) fun s' => Reaches s s' ∧ s'.live = s.live :=
  (check_yields _).bind fun _ h => ⟨Reaches.modify h.1 f, rfl⟩

theorem splitNodeGuarded_reaches (nodei : NodeInstanceOffset) (pos : Nat) :
    Yields Anyway (s.splitNodeGuarded nodei pos) (Reaches s) := by
  refine (check_yields _).bind fun _ h => ?_
  rw [splitNode]
  split
  · exact Reaches.refl s
  · refine (shmalloc_reaches s).bind ?_
    rintro ⟨ref, notnull, s₁⟩ ⟨h₁, hlive⟩
    cases notnull with
    | false => trivial
    | true =>
      simp only [if_true] at hlive ⊢
      have hold : nodei.addr ∈ s₁.live := hlive ▸ Finset.mem_insert_of_mem h.1
      have hnew : ref.addr ∈ s₁.live := hlive ▸ Finset.mem_insert_self ref.addr s.live
      generalize NodeInstance.splitPair (s₁.refnode nodei) (s₁.refnode ref) pos s₁.currentItem s₁.newnodei = x
      obtain ⟨node, nodetmp, up⟩ := x
      have h₂ : Reaches s₁ (s₁.modify nodei fun _ => node) := Reaches.modify hold _
      have h₃ : Reaches (s₁.modify nodei fun _ => node) ((s₁.modify nodei fun _ => node).modify ref fun _ => nodetmp) :=
        Reaches.modify (show ref.addr ∈ (s₁.modify nodei fun _ => node).live from hnew) _
      exact h₁.trans (h₂.trans (h₃.trans (Reaches.root rfl rfl rfl)))

theorem insertGuarded_reaches : ∀ (fuel : Nat) (s : CategoryTree) (nodei : NodeInstanceOffset),
    Yields Anyway (insertGuarded fuel s nodei) (Reaches s)
  | 0, _, _ => trivial
  | fuel + 1, s, nodei => by
    rw [insertGuarded]
    split
    · exact Reaches.root rfl rfl rfl
    · refine (yields_any _).bind fun node _ => ?_
      dsimp only
      split
      · exact Reaches.root rfl rfl rfl
      · refine (yields_any _).bind fun child _ => (insertGuarded_reaches fuel s child).bind fun s₁ h₁ => ?_
        split
        · exact h₁
        · refine (yields_any _).bind fun node₁ _ => ?_
          split
          · exact (edit_reaches _ _).bind fun s₂ h₂ => h₁.trans (h₂.1.trans (Reaches.root rfl rfl rfl))
          · exact (splitNodeGuarded_reaches _ _).bind fun s₂ h₂ => h₁.trans (h₂.trans (Reaches.root rfl rfl rfl))

theorem callocNewNode_reaches (s : CategoryTree) : Yields Anyway s.callocNewNode fun r => Reaches s r.2 := by
  refine (shmalloc_reaches s).bind ?_
  rintro ⟨ref, notnull, s₁⟩ ⟨h₁, hlive⟩
  cases notnull with
  | false => exact h₁
  | true =>
    simp only [if_true, yields_ok] at h₁ hlive ⊢
    have hnew : ref.addr ∈ s₁.live := hlive ▸ Finset.mem_insert_self ref.addr s.live
    exact h₁.trans (Reaches.modify hnew _)

/-- `add_tree_safe` makes calls to live blocks only. -/
theorem addTreeGuarded_reaches (s : CategoryTree) (itm : NodeKey) :
    Yields Anyway (s.addTreeGuarded itm) (Reaches s) := by
  have hset : Reaches s { s with currentItem := itm } := Reaches.root rfl rfl rfl
  refine (insertGuarded_reaches _ _ _).bind fun s₁ h₁ => ?_
  have h₁' := hset.trans h₁
  split
  · exact h₁'
  · refine (callocNewNode_reaches s₁).bind ?_
    rintro ⟨rooti, s₂⟩ h₂
    exact h₁'.trans (h₂.trans (Reaches.root rfl rfl rfl))

theorem moverightGuarded_reaches (nodei : NodeInstanceOffset) (pos : Nat) :
    Yields Anyway (s.moverightGuarded nodei pos) (Reaches s) := by
  refine (yields_any _).bind fun node _ => (yields_any _).bind fun righti _ => (yields_any _).bind fun lefti _ =>
    (yields_any _).bind fun separator _ => (yields_any _).bind fun left _ => (yields_any _).bind fun last _ =>
      (yields_any _).bind fun up _ => ?_
  refine (edit_reaches _ _).bind fun s₁ h₁ => (edit_reaches _ _).bind fun s₂ h₂ => ?_
  exact (edit_reaches _ _).mono fun s₃ h₃ => h₁.1.trans (h₂.1.trans h₃.1)

theorem moveleftGuarded_reaches (nodei : NodeInstanceOffset) (pos : Nat) :
    Yields Anyway (s.moveleftGuarded nodei pos) (Reaches s) := by
  refine (yields_any _).bind fun node _ => (yields_any _).bind fun righti _ => (yields_any _).bind fun lefti _ =>
    (yields_any _).bind fun separator _ => (yields_any _).bind fun right _ => (yields_any _).bind fun first _ =>
      (yields_any _).bind fun up _ => ?_
  refine (edit_reaches _ _).bind fun s₁ h₁ => (edit_reaches _ _).bind fun s₂ h₂ => ?_
  exact (edit_reaches _ _).mono fun s₃ h₃ => h₁.1.trans (h₂.1.trans h₃.1)

theorem trgtGuarded_reaches (nodei : NodeInstanceOffset) (pos : Nat) :
    Yields Anyway (s.trgtGuarded nodei pos) fun s' => Reaches s s' ∧ s'.live = s.live := by
  refine (edit_reaches _ _).bind fun s₁ h₁ => (yields_any _).bind fun node _ => ?_
  exact ⟨h₁.1.trans (Reaches.root rfl rfl rfl), h₁.2⟩

theorem combineGuarded_reaches (nodei : NodeInstanceOffset) (pos : Nat) :
    Yields Anyway (s.combineGuarded nodei pos) (Reaches s) := by
  refine (yields_any _).bind fun node _ => (yields_any _).bind fun righti _ => (yields_any _).bind fun lefti _ =>
    (yields_any _).bind fun separator _ => (fetch_yields s righti).bind fun right hlive =>
      (yields_any _).bind fun first _ => ?_
  refine (edit_reaches _ _).bind fun s₁ h₁ => (trgtGuarded_reaches nodei (pos - 1)).bind fun s₂ h₂ => ?_
  exact h₁.1.trans (h₂.1.trans (Reaches.shmfree (by rwa [h₂.2, h₁.2])))

theorem restoreGuarded_reaches (nodei : NodeInstanceOffset) (pos : Nat) :
    Yields Anyway (s.restoreGuarded nodei pos) (Reaches s) := by
  have hset : Reaches s { s with undersize := false } := Reaches.root rfl rfl rfl
  rw [restoreGuarded]
  split
  · exact Reaches.refl s
  refine (yields_any _).bind fun node _ => ?_
  split
  · refine (yields_any _).bind fun lefti _ => (yields_any _).bind fun left _ => ?_
    split
    · exact (moverightGuarded_reaches _ _).mono fun s₁ h₁ => hset.trans h₁
    · exact (combineGuarded_reaches _ _).mono fun s₁ h₁ => hset.trans h₁
  · refine (yields_any _).bind fun righti _ => (yields_any _).bind fun right _ => ?_
    split
    · exact (moveleftGuarded_reaches _ _).mono fun s₁ h₁ => hset.trans h₁
    · exact (combineGuarded_reaches _ _).mono fun s₁ h₁ => hset.trans h₁

theorem removeGuarded_reaches : ∀ (fuel : Nat) (s : CategoryTree) (nodei : NodeInstanceOffset),
    Yields Anyway (removeGuarded fuel s nodei) (Reaches s)
  | 0, _, _ => trivial
  | fuel + 1, s, nodei => by
    have hrestore : ∀ {s₁ : CategoryTree} (pos : Nat), Reaches s s₁ →
        Yields Anyway (if s₁.undersize then s₁.restoreGuarded nodei pos else .ok s₁) (Reaches s) := by
      intro s₁ pos h₁
      split
      · exact (restoreGuarded_reaches nodei pos).mono fun s₂ h₂ => h₁.trans h₂
      · exact h₁
    rw [removeGuarded]
    split
    · exact Reaches.refl s
    refine (yields_any _).bind fun node _ => ?_
    have hset : Reaches s { s with deleted := true } := Reaches.root rfl rfl rfl
    dsimp only
    split
    · refine (yields_any _).bind fun tmpnodei _ => ?_
      split
      · refine (yields_any _).bind fun tmpnode _ => (yields_any _).bind fun key _ => ?_
        refine (edit_reaches _ _).bind fun s₁ h₁ => (yields_any _).bind fun node₁ _ => ?_
        have hkey : Reaches s₁ { s₁ with currentItem := key } := Reaches.root rfl rfl rfl
        refine (yields_any _).bind fun child _ => (removeGuarded_reaches fuel _ child).bind fun s₂ h₂ => ?_
        exact hrestore _ (hset.trans (h₁.1.trans (hkey.trans h₂)))
      · exact (trgtGuarded_reaches _ _).mono fun s₁ h₁ => hset.trans h₁.1
    · refine (yields_any _).bind fun child _ => (removeGuarded_reaches fuel s child).bind fun s₁ h₁ => ?_
      exact hrestore _ h₁

/-- `remove_tree_safe` makes calls to live blocks only. -/
theorem removeTreeGuarded_reaches (s : CategoryTree) (itm : NodeKey) :
    Yields Anyway (s.removeTreeGuarded itm) (Reaches s) := by
  have hset : Reaches s { s with deleted := false, undersize := false, currentItem := itm } := Reaches.root rfl rfl rfl
  refine (removeGuarded_reaches _ _ _).bind fun s₁ h₁ => ?_
  have h₁' := hset.trans h₁
  split
  · refine (fetch_yields s₁ s₁.rooti).bind fun rootnode hlive => ?_
    split
    · refine (yields_any _).bind fun child _ => ?_
      have h₂ : Reaches s₁ { s₁ with rooti := child } := Reaches.root rfl rfl rfl
      exact h₁'.trans (h₂.trans (Reaches.shmfree hlive))
    · exact h₁'
  · exact h₁'

end CategoryTree

/-! ## The file -/

namespace Memory

open CategoryTree (Asks)

/-- From `c` to `c'` as the file answers the calls of the list, with the root record at `r`. -/
inductive Answers (r : Nat) : Category → List TreeCall → Category → Prop
  | nil {c : Category} : Answers r c [] c
  | shmalloc {c c' : Category} {answer : Option NodeInstanceOffset} {E : List TreeCall}
    (ha : answer.map NodeInstanceOffset.addr = (shmalloc c sizeofNodeInstance).2.map Block.start)
    (h : Answers r (shmalloc c sizeofNodeInstance).1 E c') : Answers r c (.shmalloc answer :: E) c'
  | shmfree {c c' : Category} {nodei : NodeInstanceOffset} {E : List TreeCall}
    (h : Answers r (shmfree c (nodei.addr + sizeofMemitemHead)) E c') : Answers r c (.shmfree nodei :: E) c'
  | node {c c' : Category} {nodei : NodeInstanceOffset} {data : Bytes} {E : List TreeCall}
    (hw : ∀ i, data i ≠ c.data i → nodei.addr + sizeofMemitemHead ≤ i ∧
      i < nodei.addr + sizeofMemitemHead + sizeofNodeInstance)
    (h : Answers r { c with data := data } E c') : Answers r c (.node nodei :: E) c'
  | root {c c' : Category} {data : Bytes} {E : List TreeCall}
    (hw : ∀ i, data i ≠ c.data i → r + 4 ≤ i ∧ i < r + sizeofTreeInstanceItm)
    (h : Answers r { c with data := data } E c') : Answers r c (.root :: E) c'

/-- The blocks in use but the root record are those of the tree. -/
def Mapped (c : Category) (r : Nat) (s : CategoryTree) : Prop :=
  ∀ a, a ∈ s.live ↔ ∃ b ∈ live c, b.pointer ≠ r ∧ b.start = a

variable {c c' : Category} {data : Bytes} {L : Nat → Layout} {b b' : Block} {n x r : Nat} {s s' : CategoryTree}

/-- Two blocks do not start at one place. -/
theorem Fits.start_inj (h : Fits c L) (hb : b ∈ live c) (hb' : b' ∈ live c) (heq : b.start = b'.start) : b = b' := by
  by_contra hne
  obtain ⟨-, hn, hu⟩ := h.mem_live.mp hb
  obtain ⟨-, hn', hu'⟩ := h.mem_live.mp hb'
  have hlen := (h.rep _ hn).place ((h.rep _ hn).mem_used hu)
  have hlen' := (h.rep _ hn').place ((h.rep _ hn').mem_used hu')
  have hapart := h.apart hb hb' hne
  simp only [Block.Apart, Block.length] at hapart
  omega

theorem pointer_eq (b : Block) : b.pointer = b.start + sizeofMemitemHead := rfl

/-- Writes to blocks in use leave the blocks in use. -/
theorem Fits.live_write (h : Fits c L) (hf : Fits { c with data := data } L) :
    live { c with data := data } = live c := by
  ext b
  rw [hf.mem_live, h.mem_live]

namespace Rooted

variable (h : Rooted c L n x)
include h

theorem mapped_shmalloc {ref : NodeInstanceOffset} {notnull : Bool}
    (hm : Mapped c (mmposUsrpage n + x + sizeofMemitemHead) s) (hs : s.shmalloc = .ok (ref, notnull, s'))
    (ha : (if notnull then some ref else none).map NodeInstanceOffset.addr =
      (Memory.shmalloc c sizeofNodeInstance).2.map Block.start) :
    Mapped (Memory.shmalloc c sizeofNodeInstance).1 (mmposUsrpage n + x + sizeofMemitemHead) s' := by
  have hlive := CategoryTree.shmalloc_live hs
  cases hc : (Memory.shmalloc c sizeofNodeInstance).2 with
  | none =>
    rw [hc] at ha
    cases notnull with
    | true => cases ha
    | false =>
      rw [h.fits.shmalloc_none hc]
      intro a
      rw [hlive]
      exact hm a
  | some b =>
    rw [hc] at ha
    cases notnull with
    | false => cases ha
    | true =>
      have href : ref.addr = b.start := Option.some.inj ha
      obtain ⟨⟨L', hfits⟩, -, hnot, hnew, -⟩ := h.fits.shmalloc_some hc
      have hb : b.pointer ≠ mmposUsrpage n + x + sizeofMemitemHead := by
        intro heq
        have hroot := h.mem_live
        refine hnot (hfits.start_inj (hnew ▸ Set.mem_insert b _) (hnew ▸ Set.mem_insert_of_mem b hroot) ?_ ▸ hroot)
        exact Nat.add_right_cancel heq
      intro a
      rw [hlive, if_pos rfl, Finset.mem_insert, hm a, hnew, href]
      constructor
      · rintro (rfl | ⟨d, hd, h1⟩)
        · exact ⟨b, Set.mem_insert b _, hb, rfl⟩
        · exact ⟨d, Set.mem_insert_of_mem b hd, h1⟩
      · rintro ⟨d, hd, hdne, rfl⟩
        rcases Set.mem_insert_iff.mp hd with rfl | hd
        · exact .inl rfl
        · exact .inr ⟨d, hd, hdne, rfl⟩

theorem mapped_shmfree {nodei : NodeInstanceOffset} (hm : Mapped c (mmposUsrpage n + x + sizeofMemitemHead) s)
    (hl : nodei.addr ∈ s.live) : TreeAccess (mmposUsrpage n + x + sizeofMemitemHead) c
        (Memory.shmfree c (nodei.addr + sizeofMemitemHead)) ∧
      Mapped (Memory.shmfree c (nodei.addr + sizeofMemitemHead)) (mmposUsrpage n + x + sizeofMemitemHead)
        (s.shmfree nodei) := by
  obtain ⟨b, hb, hne, hstart⟩ := (hm _).mp hl
  obtain ⟨-, hn, hu⟩ := h.fits.mem_live.mp hb
  have hplace := (h.fits.rep _ hn).place ((h.fits.rep _ hn).mem_used hu)
  obtain ⟨-, -, hfree, -⟩ := h.fits.shmfree_live hb
  rw [← hstart, ← pointer_eq]
  refine ⟨.shmfree (by simp only [mmposBcktInit, pageSize]; omega) hne, fun a => ?_⟩
  simp only [CategoryTree.shmfree, Finset.mem_erase, hfree, hm a, ← hstart]
  constructor
  · rintro ⟨ha, d, hd, hdne, rfl⟩
    refine ⟨d, ⟨hd, ?_⟩, hdne, rfl⟩
    rintro rfl
    exact ha rfl
  · rintro ⟨d, ⟨hd, hdb⟩, hdne, rfl⟩
    exact ⟨fun heq => hdb (h.fits.start_inj hd hb heq), d, hd, hdne, rfl⟩

theorem mapped_node {nodei : NodeInstanceOffset} (hm : Mapped c (mmposUsrpage n + x + sizeofMemitemHead) s)
    (hl : nodei.addr ∈ s.live) (hw : ∀ i, data i ≠ c.data i → nodei.addr + sizeofMemitemHead ≤ i ∧
      i < nodei.addr + sizeofMemitemHead + sizeofNodeInstance) :
    TreeAccess (mmposUsrpage n + x + sizeofMemitemHead) c { c with data := data } ∧
      live { c with data := data } = live c := by
  obtain ⟨b, hb, hne, hstart⟩ := (hm _).mp hl
  obtain ⟨hid, hn, hu⟩ := h.fits.mem_live.mp hb
  -- any block but the root record is as long as a node
  have hlen : b.length c = 96 := by
    rcases h.nodes _ hn _ ((h.fits.rep _ hn).mem_used hu) with ⟨hpage, hoff⟩ | hlen
    · refine absurd ?_ hne
      rw [Block.pointer, hpage, hoff]
    · exact hlen
  have hown : ∀ i, data i ≠ c.data i → (∃ b ∈ live c, b.pointer ≠ mmposUsrpage n + x + sizeofMemitemHead ∧ b.Owns c i) ∨
      mmposUsrpage n + x + sizeofMemitemHead + 4 ≤ i ∧
        i < mmposUsrpage n + x + sizeofMemitemHead + sizeofTreeInstanceItm := by
    refine fun i hi => .inl ⟨b, hb, hne, ?_⟩
    have hi' := hw i hi
    simp only [← hstart, ← pointer_eq, sizeofNodeInstance] at hi'
    simp only [Block.Owns, mmsizHfSize, hlen]
    omega
  exact ⟨.write hown, h.fits.live_write (h.write hown).fits⟩

theorem mapped_root (hw : ∀ i, data i ≠ c.data i → mmposUsrpage n + x + sizeofMemitemHead + 4 ≤ i ∧
      i < mmposUsrpage n + x + sizeofMemitemHead + sizeofTreeInstanceItm) :
    TreeAccess (mmposUsrpage n + x + sizeofMemitemHead) c { c with data := data } ∧
      live { c with data := data } = live c := by
  have hown : ∀ i, data i ≠ c.data i → (∃ b ∈ live c, b.pointer ≠ mmposUsrpage n + x + sizeofMemitemHead ∧ b.Owns c i) ∨
      mmposUsrpage n + x + sizeofMemitemHead + 4 ≤ i ∧
        i < mmposUsrpage n + x + sizeofMemitemHead + sizeofTreeInstanceItm := fun i hi => .inr (hw i hi)
  exact ⟨.write hown, h.fits.live_write (h.write hown).fits⟩

end Rooted

/-- A file that answers the calls of a tree operation is accessed as `TreeAccess` says, and its node blocks stay those
of the tree. -/
theorem Rooted.accesses {E : List TreeCall} (h : Rooted c L n x)
    (hm : Mapped c (mmposUsrpage n + x + sizeofMemitemHead) s) (he : Asks s E s')
    (ha : Answers (mmposUsrpage n + x + sizeofMemitemHead) c E c') :
    Relation.ReflTransGen (TreeAccess (mmposUsrpage n + x + sizeofMemitemHead)) c c' ∧
      Mapped c' (mmposUsrpage n + x + sizeofMemitemHead) s' := by
  induction he generalizing c L with
  | nil =>
    cases ha
    exact ⟨.refl, hm⟩
  | shmalloc hs _ ih =>
    cases ha with
    | shmalloc hans hrest =>
      obtain ⟨M, hM⟩ := h.shmalloc
      obtain ⟨hpath, hm'⟩ := ih hM (h.mapped_shmalloc hm hs hans) hrest
      exact ⟨.head .shmalloc hpath, hm'⟩
  | shmfree hl _ ih =>
    cases ha with
    | shmfree hrest =>
      obtain ⟨hacc, hm₁⟩ := h.mapped_shmfree hm hl
      obtain ⟨M, hM⟩ := h.access hacc
      obtain ⟨hpath, hm'⟩ := ih hM hm₁ hrest
      exact ⟨.head hacc hpath, hm'⟩
  | node hl _ ih =>
    cases ha with
    | node hw hrest =>
      obtain ⟨hacc, hlive⟩ := h.mapped_node hm hl hw
      obtain ⟨M, hM⟩ := h.access hacc
      obtain ⟨hpath, hm'⟩ := ih hM (fun a => by rw [hlive]; exact hm a) hrest
      exact ⟨.head hacc hpath, hm'⟩
  | root hl _ _ _ ih =>
    cases ha with
    | root hw hrest =>
      obtain ⟨hacc, hlive⟩ := h.mapped_root hw
      obtain ⟨M, hM⟩ := h.access hacc
      obtain ⟨hpath, hm'⟩ := ih hM (fun a => by rw [hlive, hl]; exact hm a) hrest
      exact ⟨.head hacc hpath, hm'⟩

namespace Opened

variable {id : BitVec 32} {filesize k m : Nat} {R : List (Option Nat)} {t : KeyTree m}

/-- An open file stays open as it answers the calls of a tree operation. -/
theorem answers {E : List TreeCall} (h : Opened id filesize k c R) (hr : some r ∈ R) (hm : Mapped c r s)
    (he : Asks s E s') (ha : Answers r c E c') : Opened id filesize k c' R ∧ Mapped c' r s' := by
  obtain ⟨L, n, x, hrooted, hR⟩ := h.rooted
  cases hR _ hr
  obtain ⟨hpath, hm'⟩ := hrooted.accesses hm he ha
  refine ⟨?_, hm'⟩
  clear ha hm'
  induction hpath with
  | refl => exact h
  | tail _ hacc ih => exact ih.access hr hacc

/-- `add_tree_safe` on an open file. -/
theorem addTree (h : Opened id filesize k c R) (hr : some r ∈ R) (hm : Mapped c r s) (ht : s.Holds m t)
    (hb : ∀ q ∈ s.answers, q.isBlock = true) {itm : NodeKey} (hrun : s.addTree itm = .ok s') :
    ∃ E, Asks s E s' ∧ ∀ c', Answers r c E c' → Opened id filesize k c' R ∧ Mapped c' r s' := by
  have hreach := s.addTreeGuarded_reaches itm
  rw [CategoryTree.addTreeGuarded_eq ht hb, hrun] at hreach
  obtain ⟨E, hE⟩ := hreach
  exact ⟨E, hE, fun c' ha => h.answers hr hm hE ha⟩

/-- `remove_tree_safe` on an open file. -/
theorem removeTree (h : Opened id filesize k c R) (hr : some r ∈ R) (hm : Mapped c r s) (ht : s.Holds m t)
    {itm : NodeKey} (hrun : s.removeTree itm = .ok s') :
    ∃ E, Asks s E s' ∧ ∀ c', Answers r c E c' → Opened id filesize k c' R ∧ Mapped c' r s' := by
  have hreach := s.removeTreeGuarded_reaches itm
  rw [CategoryTree.removeTreeGuarded_eq ht, hrun] at hreach
  obtain ⟨E, hE⟩ := hreach
  exact ⟨E, hE, fun c' ha => h.answers hr hm hE ha⟩

end Opened

end Memory
end NetworkBfd.Smmr
