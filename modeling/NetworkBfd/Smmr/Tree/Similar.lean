import NetworkBfd.Lib.Yields
import NetworkBfd.Smmr.Tree.Guarded

/-!
# States that mean the same

Two states of a category that differ in what freed blocks hold, and in what live blocks hold beyond their counts
(`Similar`). The guarded operations take them to such states again and return the same results.
-/

namespace NetworkBfd.Smmr

open Lib

/-! ## States that mean the same -/

/-- The same block, with whatever contents. -/
def ShmAnswer.SameRef : ShmAnswer → ShmAnswer → Prop
  | .block ref _, .block ref' _ => ref' = ref
  | .null ref, .null ref' => ref' = ref
  | _, _ => False

namespace CategoryTree

/-- The states agree on everything but the contents of blocks that are not live or among `hidden`, and on what live
blocks hold beyond their counts. -/
structure Similar (hidden : List Nat) (s s' : CategoryTree) : Prop where
  views : ∀ a ∈ s.live, a ∉ hidden → (s'.mem a).view = (s.mem a).view
  live : s'.live = s.live
  answers : List.Forall₂ ShmAnswer.SameRef s.answers s'.answers
  rooti : s'.rooti = s.rooti
  newnodei : s'.newnodei = s.newnodei
  currentItem : s'.currentItem = s.currentItem
  done : s'.done = s.done
  deleted : s'.deleted = s.deleted
  undersize : s'.undersize = s.undersize

variable {s s' : CategoryTree} {hidden : List Nat} {ref nodei : NodeInstanceOffset} {pos : Nat}

theorem check_bind {α : Type} {p : Prop} [Decidable p] (hp : p) (m : Unit → Except Fault α) :
    (check p >>= m) = m () := by
  rw [check, if_pos hp]
  rfl

/-- What is read is the same. -/
theorem Similar.fetch (h : Similar [] s s') (ref : NodeInstanceOffset) : s'.fetch ref = s.fetch ref := by
  unfold CategoryTree.fetch
  by_cases hlive : ref.addr ∈ s.live
  · rw [check_bind hlive, check_bind (by rw [h.live]; exact hlive), refnode, refnode,
      h.views _ hlive List.not_mem_nil]
  · rw [check, check, if_neg hlive, if_neg (by rw [h.live]; exact hlive)]
    rfl

theorem Similar.modify (h : Similar hidden s s') (ref : NodeInstanceOffset) {f g : NodeInstance → NodeInstance}
    (hf : (g (s'.mem ref.addr)).view = (f (s.mem ref.addr)).view) :
    Similar (hidden.filter (· ≠ ref.addr)) (s.modify ref f) (s'.modify ref g) := by
  refine { h with views := fun a ha hn => ?_ }
  simp only [CategoryTree.modify]
  by_cases hr : a = ref.addr
  · subst hr
    rw [Function.update_self, Function.update_self]
    exact hf
  · rw [Function.update_of_ne hr, Function.update_of_ne hr]
    exact h.views a ha fun hmem => hn (List.mem_filter.mpr ⟨hmem, by simpa using hr⟩)

/-- A write that sees the meaning of the block only. -/
theorem Similar.edit {p : Nat → Prop} [DecidablePred p] {f f' : NodeInstance → NodeInstance} (h : Similar [] s s')
    (hf : ∀ nd nd', nd'.view = nd.view → p nd.count → (f' nd').view = (f nd).view) :
    Agree (Similar []) (s.edit ref p f) (s'.edit ref p f') := by
  unfold CategoryTree.edit
  by_cases hlive : ref.addr ∈ s.live
  · have hview : (s'.refnode ref).view = (s.refnode ref).view := h.views _ hlive List.not_mem_nil
    have hcount := NodeInstance.count_view hview
    by_cases hp : p (s.refnode ref).count
    · rw [check_bind ⟨hlive, hp⟩, check_bind ⟨by rw [h.live]; exact hlive, by rw [hcount]; exact hp⟩]
      exact h.modify ref (hf _ _ hview hp)
    · rw [check, check, if_neg fun hn => hp hn.2, if_neg fun hn => hp (by rw [← hcount]; exact hn.2)]
      exact agree_error _
  · rw [check, check, if_neg fun hn => hlive hn.1, if_neg fun hn => hlive (by rw [← h.live]; exact hn.1)]
    exact agree_error _

/-- `shmalloc` answers both alike. The block is live then, with contents that need not agree. -/
theorem Similar.shmalloc (h : Similar [] s s') : Agree (fun r r' => r'.1 = r.1 ∧ r'.2.1 = r.2.1 ∧
    if r.2.1 then r.1.addr ∉ s.live ∧ (∀ a ∈ s.live, r.2.2.mem a = s.mem a ∧ r'.2.2.mem a = s'.mem a) ∧
      Similar [r.1.addr] r.2.2 r'.2.2
    else Similar [] r.2.2 r'.2.2) s.shmalloc s'.shmalloc := by
  have hans := h.answers
  unfold CategoryTree.shmalloc
  cases hs : s.answers with
  | nil =>
    rw [hs] at hans
    rw [List.forall₂_nil_left_iff.mp hans]
    exact agree_error _
  | cons q rest =>
    rw [hs] at hans
    obtain ⟨q', rest', hq, hrest, hs'⟩ := List.forall₂_cons_left_iff.mp hans
    rw [hs']
    cases q with
    | null ref =>
      cases q' with
      | null ref' =>
        obtain rfl : ref' = ref := hq
        exact ⟨rfl, rfl, { h with answers := hrest }⟩
      | block ref' junk => exact hq.elim
    | block ref junk =>
      cases q' with
      | null ref' => exact hq.elim
      | block ref' junk' =>
        obtain rfl : ref' = ref := hq
        dsimp only
        by_cases hfresh : s.Fresh ref'
        · have hfresh' : s'.Fresh ref' := by
            obtain ⟨h1, h2, h3, h4⟩ := hfresh
            exact ⟨h1, h2, h3, by rw [h.live]; exact h4⟩
          rw [if_pos hfresh, if_pos hfresh']
          have hnew := hfresh.2.2.2
          refine ⟨rfl, rfl, hnew, fun a ha => ?_, { h with
            views := fun a ha hn => ?_
            live := ?_
            answers := hrest }⟩
          · have hne : a ≠ ref'.addr := fun e => hnew (e ▸ ha)
            exact ⟨Function.update_of_ne hne _ _, Function.update_of_ne hne _ _⟩
          · have hne : a ≠ ref'.addr := fun e => hn (by rw [e]; exact List.mem_singleton_self _)
            simp only [Function.update_of_ne hne]
            exact h.views a ((Finset.mem_insert.mp ha).resolve_left hne) List.not_mem_nil
          · simp only [h.live]
        · have hfresh' : ¬ s'.Fresh ref' := by
            rintro ⟨h1, h2, h3, h4⟩
            exact hfresh ⟨h1, h2, h3, by rw [← h.live]; exact h4⟩
          rw [if_neg hfresh, if_neg hfresh']
          exact agree_error _

/-! ## The operations on such states -/

theorem splitNodeGuarded_agree (h : Similar [] s s') (nodei : NodeInstanceOffset) (pos : Nat) :
    Agree (Similar []) (s.splitNodeGuarded nodei pos) (s'.splitNodeGuarded nodei pos) := by
  unfold splitNodeGuarded
  by_cases hok : nodei.addr ∈ s.live ∧ (s.refnode nodei).count = treeNodecount ∧ pos ≤ treeNodecount
  · obtain ⟨hlive, hcount, hpos⟩ := id hok
    have hview : (s'.refnode nodei).view = (s.refnode nodei).view := h.views _ hlive List.not_mem_nil
    rw [check_bind hok, check_bind ⟨by rw [h.live]; exact hlive, by rw [NodeInstance.count_view hview, hcount], hpos⟩,
      splitNode, splitNode]
    by_cases hempty : nodei.isEmpty = true
    · rw [if_pos hempty, if_pos hempty]
      exact agree_ok h
    rw [if_neg hempty, if_neg hempty]
    refine h.shmalloc.bind ?_
    rintro ⟨newref, notnull, s₁⟩ ⟨newref', notnull', s₁'⟩ ⟨hr, hn, hs⟩
    dsimp only at hr hn hs
    subst hr hn
    cases notnull' with
    | false => exact agree_error _
    | true =>
      rw [if_pos rfl] at hs
      obtain ⟨hfresh, hsame, hs⟩ := hs
      simp only [if_true]
      -- the old block holds what it held
      have hview₁ : (s₁'.refnode nodei).view = (s₁.refnode nodei).view := by
        rw [refnode, refnode, (hsame _ hlive).1, (hsame _ hlive).2]
        exact hview
      have hcount₁ : (s₁.refnode nodei).count = treeNodecount := by
        rw [refnode, (hsame _ hlive).1]
        exact hcount
      obtain ⟨h1, h2, h3⟩ := @NodeInstance.view_splitPair (s₁.refnode nodei) (s₁'.refnode nodei) pos s₁.currentItem
        s₁.newnodei (s₁.refnode newref') (s₁'.refnode newref') hview₁ hcount₁ hpos
      rw [hs.currentItem, hs.newnodei]
      generalize NodeInstance.splitPair (s₁.refnode nodei) (s₁.refnode newref') pos s₁.currentItem s₁.newnodei = x
        at h1 h2 h3 ⊢
      generalize NodeInstance.splitPair (s₁'.refnode nodei) (s₁'.refnode newref') pos s₁.currentItem s₁.newnodei = x'
        at h1 h2 h3 ⊢
      obtain ⟨node, nodetmp, up⟩ := x
      obtain ⟨node', nodetmp', up'⟩ := x'
      dsimp only at h1 h2 h3 ⊢
      have hmod := (hs.modify nodei (f := fun _ => node) (g := fun _ => node') h1).modify newref'
        (f := fun _ => nodetmp) (g := fun _ => nodetmp') h2
      have hnil : (([newref'.addr].filter (· ≠ nodei.addr)).filter (· ≠ newref'.addr)) = [] := by
        refine List.filter_eq_nil_iff.mpr fun a ha => ?_
        obtain rfl := List.mem_singleton.mp (List.mem_of_mem_filter ha)
        simp
      rw [hnil] at hmod
      exact agree_ok { hmod with currentItem := h3, newnodei := rfl }
  · have hok' : ¬ (nodei.addr ∈ s'.live ∧ (s'.refnode nodei).count = treeNodecount ∧ pos ≤ treeNodecount) := by
      rintro ⟨hlive, hcount, hpos⟩
      rw [h.live] at hlive
      have hview : (s'.refnode nodei).view = (s.refnode nodei).view := h.views _ hlive List.not_mem_nil
      exact hok ⟨hlive, by rw [← NodeInstance.count_view hview, hcount], hpos⟩
    rw [check, check, if_neg hok, if_neg hok']
    exact agree_error _

theorem insertGuarded_agree : ∀ (fuel : Nat) {s s' : CategoryTree} (nodei : NodeInstanceOffset), Similar [] s s' →
    Agree (Similar []) (insertGuarded fuel s nodei) (insertGuarded fuel s' nodei)
  | 0, _, _, _, _ => agree_error _
  | fuel + 1, s, s', nodei, h => by
    rw [insertGuarded, insertGuarded]
    by_cases hempty : nodei.isEmpty = true
    · rw [if_pos hempty, if_pos hempty]
      exact agree_ok { h with done := rfl, newnodei := rfl }
    rw [if_neg hempty, if_neg hempty, h.fetch, h.currentItem]
    refine (agree_refl (R := Eq) _ fun _ => rfl).bind ?_
    rintro node _ rfl
    dsimp only
    split
    · exact agree_ok { h with done := rfl, currentItem := rfl }
    refine (agree_refl (R := Eq) _ fun _ => rfl).bind ?_
    rintro child _ rfl
    refine (insertGuarded_agree fuel child h).bind fun s₁ s₁' h₁ => ?_
    rw [h₁.done, h₁.fetch, h₁.currentItem, h₁.newnodei]
    split
    · exact agree_ok h₁
    refine (agree_refl (R := Eq) _ fun _ => rfl).bind ?_
    rintro node' _ rfl
    split
    · refine (h₁.edit fun nd nd' hv hp => ?_).bind fun s₂ s₂' h₂ => agree_ok { h₂ with done := rfl }
      exact NodeInstance.view_addItem hv hp.1 hp.2
    · exact (splitNodeGuarded_agree h₁ _ _).bind fun s₂ s₂' h₂ => agree_ok { h₂ with done := rfl }

theorem callocNewNode_agree (h : Similar [] s s') :
    Agree (fun r r' => r'.1 = r.1 ∧ Similar [] r.2 r'.2) s.callocNewNode s'.callocNewNode := by
  unfold callocNewNode
  refine h.shmalloc.bind ?_
  rintro ⟨ref, notnull, s₁⟩ ⟨ref', notnull', s₁'⟩ ⟨hr, hn, hs⟩
  dsimp only at hr hn hs
  subst hr hn
  cases notnull' with
  | false =>
    rw [if_neg Bool.false_ne_true] at hs
    exact agree_ok ⟨rfl, hs⟩
  | true =>
    rw [if_pos rfl] at hs
    obtain ⟨-, -, hs⟩ := hs
    simp only [if_true]
    rw [hs.currentItem, hs.rooti, hs.newnodei]
    have hmod := hs.modify ref'
      (f := fun nd => ((({ nd with count := 1 } : NodeInstance).setKey 0 s₁.currentItem).setChild 0 s₁.rooti).setChild 1
        s₁.newnodei)
      (g := fun nd => ((({ nd with count := 1 } : NodeInstance).setKey 0 s₁.currentItem).setChild 0 s₁.rooti).setChild 1
        s₁.newnodei) (by
      refine NodeInstance.view_ext ?_ ?_
      · simp [NodeInstance.keyList, NodeInstance.setKey_key]
      · simp [NodeInstance.childList, List.range_succ, NodeInstance.setChild_child])
    rw [List.filter_eq_nil_iff.mpr (by simp)] at hmod
    exact agree_ok ⟨rfl, hmod⟩

/-- An insertion does not depend on what blocks held before, nor on freed ones. -/
theorem addTreeGuarded_agree (h : Similar [] s s') (itm : NodeKey) :
    Agree (Similar []) (s.addTreeGuarded itm) (s'.addTreeGuarded itm) := by
  have hitem : Similar [] { s with currentItem := itm } { s' with currentItem := itm } := { h with currentItem := rfl }
  have hbound : s'.depthBound = s.depthBound := by simp only [depthBound, h.live]
  have hins : ∀ bound rooti, bound = s.depthBound → rooti = s.rooti →
      Agree (Similar []) (insertGuarded s.depthBound { s with currentItem := itm } s.rooti)
        (insertGuarded bound { s' with currentItem := itm } rooti) := by
    rintro _ _ rfl rfl
    exact insertGuarded_agree _ _ hitem
  refine (hins _ _ hbound h.rooti).bind fun s₁ s₁' h₁ => ?_
  rw [h₁.done]
  split
  · exact agree_ok h₁
  refine (callocNewNode_agree h₁).bind ?_
  rintro ⟨ref, s₂⟩ ⟨ref', s₂'⟩ ⟨hr, h₂⟩
  dsimp only at hr
  subst hr
  exact agree_ok { h₂ with rooti := rfl }

theorem moverightGuarded_agree (h : Similar [] s s') (nodei : NodeInstanceOffset) (pos : Nat) :
    Agree (Similar []) (s.moverightGuarded nodei pos) (s'.moverightGuarded nodei pos) := by
  unfold moverightGuarded
  rw [h.fetch]
  refine agree_step _ fun node => agree_step _ fun righti => agree_step _ fun lefti => agree_step _ fun separator => ?_
  rw [h.fetch]
  refine agree_step _ fun left => agree_step _ fun last => agree_step _ fun up => ?_
  refine (h.edit fun nd nd' hv hp => NodeInstance.view_pushFront hv hp).bind fun s₁ s₁' h₁ => ?_
  refine (h₁.edit fun nd nd' hv hp => NodeInstance.view_setKey hv hp.1 hp.2).bind fun s₂ s₂' h₂ => ?_
  exact h₂.edit fun nd nd' hv hp => NodeInstance.view_dropBack hv hp

theorem moveleftGuarded_agree (h : Similar [] s s') (nodei : NodeInstanceOffset) (pos : Nat) :
    Agree (Similar []) (s.moveleftGuarded nodei pos) (s'.moveleftGuarded nodei pos) := by
  unfold moveleftGuarded
  rw [h.fetch]
  refine agree_step _ fun node => agree_step _ fun righti => agree_step _ fun lefti => agree_step _ fun separator => ?_
  rw [h.fetch]
  refine agree_step _ fun right => agree_step _ fun first => agree_step _ fun up => ?_
  refine (h.edit fun nd nd' hv hp => NodeInstance.view_pushBack hv hp).bind fun s₁ s₁' h₁ => ?_
  refine (h₁.edit fun nd nd' hv hp => NodeInstance.view_setKey hv hp.1 hp.2).bind fun s₂ s₂' h₂ => ?_
  exact h₂.edit fun nd nd' hv hp => NodeInstance.view_dropFront hv hp.1 hp.2

theorem trgtGuarded_agree (h : Similar [] s s') (nodei : NodeInstanceOffset) (pos : Nat) :
    Agree (Similar []) (s.trgtGuarded nodei pos) (s'.trgtGuarded nodei pos) := by
  unfold trgtGuarded
  refine (h.edit fun nd nd' hv hp => NodeInstance.view_dropItem hv hp.1 hp.2).bind fun s₁ s₁' h₁ => ?_
  rw [h₁.fetch]
  exact agree_step _ fun node => agree_ok { h₁ with undersize := rfl }

theorem Similar.shmfree (h : Similar [] s s') (nodei : NodeInstanceOffset) :
    Similar [] (s.shmfree nodei) (s'.shmfree nodei) :=
  { h with
    views := fun a ha => h.views a (Finset.mem_of_mem_erase ha)
    live := by simp only [CategoryTree.shmfree, h.live] }

theorem combineGuarded_agree (h : Similar [] s s') (nodei : NodeInstanceOffset) (pos : Nat) :
    Agree (Similar []) (s.combineGuarded nodei pos) (s'.combineGuarded nodei pos) := by
  unfold combineGuarded
  rw [h.fetch]
  refine agree_step _ fun node => agree_step _ fun righti => agree_step _ fun lefti => agree_step _ fun separator => ?_
  rw [h.fetch]
  by_cases hlive : righti.addr ∈ s.live
  · have hview : (s'.refnode righti).view = (s.refnode righti).view := h.views _ hlive List.not_mem_nil
    have hcount := NodeInstance.count_view hview
    refine agree_step _ fun right => agree_step _ fun first => ?_
    dsimp only
    rw [hcount]
    refine (h.edit fun nd nd' hv hp => ?_).bind fun s₁ s₁' h₁ => ?_
    · have hroom : nd.count < treeNodecount := by omega
      have hmerge := NodeInstance.view_appendItems hview
        (NodeInstance.view_pushBack (k := separator) (r := first) hv hroom) (by
        simp only [NodeInstance.pushBack, NodeInstance.setChild_count, NodeInstance.setKey_count]
        omega)
      rwa [hcount] at hmerge
    · exact (trgtGuarded_agree h₁ _ _).bind fun s₂ s₂' h₂ => agree_ok (h₂.shmfree _)
  · rw [CategoryTree.fetch, check, if_neg hlive]
    exact agree_error _

theorem restoreGuarded_agree (h : Similar [] s s') (nodei : NodeInstanceOffset) (pos : Nat) :
    Agree (Similar []) (s.restoreGuarded nodei pos) (s'.restoreGuarded nodei pos) := by
  have hset : Similar [] { s with undersize := false } { s' with undersize := false } := { h with undersize := rfl }
  unfold restoreGuarded
  split
  · exact agree_ok h
  dsimp only
  rw [hset.fetch]
  refine agree_step _ fun node => ?_
  split
  · refine agree_step _ fun lefti => ?_
    rw [hset.fetch]
    refine agree_step _ fun left => ?_
    split
    · exact moverightGuarded_agree hset _ _
    · exact combineGuarded_agree hset _ _
  · refine agree_step _ fun righti => ?_
    rw [hset.fetch]
    refine agree_step _ fun right => ?_
    split
    · exact moveleftGuarded_agree hset _ _
    · exact combineGuarded_agree hset _ _

theorem leftmostGuarded_similar (h : Similar [] s s') :
    ∀ (fuel : Nat) (tmpnodei : NodeInstanceOffset), s'.leftmostGuarded fuel tmpnodei = s.leftmostGuarded fuel tmpnodei
  | 0, _ => rfl
  | fuel + 1, tmpnodei => by
    simp only [leftmostGuarded, h.fetch, leftmostGuarded_similar h fuel]

theorem removeGuarded_agree : ∀ (fuel : Nat) {s s' : CategoryTree} (nodei : NodeInstanceOffset), Similar [] s s' →
    Agree (Similar []) (removeGuarded fuel s nodei) (removeGuarded fuel s' nodei)
  | 0, _, _, _, _ => agree_error _
  | fuel + 1, s, s', nodei, h => by
    -- what is done after the recursion
    have hrestore : ∀ {s₁ s₁' : CategoryTree} (pos : Nat), Similar [] s₁ s₁' →
        Agree (Similar []) (if s₁.undersize then s₁.restoreGuarded nodei pos else .ok s₁)
          (if s₁'.undersize then s₁'.restoreGuarded nodei pos else .ok s₁') := by
      intro s₁ s₁' pos h₁
      rw [h₁.undersize]
      split
      · exact restoreGuarded_agree h₁ _ _
      · exact agree_ok h₁
    rw [removeGuarded, removeGuarded]
    split
    · exact agree_ok h
    rw [h.fetch, h.currentItem]
    refine agree_step _ fun node => ?_
    dsimp only
    split
    · refine agree_step _ fun tmpnodei => ?_
      have hdel : Similar [] { s with deleted := true } { s' with deleted := true, currentItem := s.currentItem } :=
        { h with deleted := rfl, currentItem := rfl }
      split
      · rw [leftmostGuarded_similar hdel]
        refine agree_step _ fun tmpnode => agree_step _ fun key => ?_
        refine (hdel.edit fun nd nd' hv hp => NodeInstance.view_setKey hv hp.1 hp.2).bind fun s₁ s₁' h₁ => ?_
        have hkey : Similar [] { s₁ with currentItem := key } { s₁' with currentItem := key } :=
          { h₁ with currentItem := rfl }
        rw [hkey.fetch]
        refine agree_step _ fun node' => agree_step _ fun child => ?_
        exact (removeGuarded_agree fuel child hkey).bind fun s₂ s₂' h₂ => hrestore _ h₂
      · exact trgtGuarded_agree hdel _ _
    · refine agree_step _ fun child => ?_
      exact (removeGuarded_agree fuel child h).bind fun s₂ s₂' h₂ => hrestore _ h₂

/-- Nor does a removal. -/
theorem removeTreeGuarded_agree (h : Similar [] s s') (itm : NodeKey) :
    Agree (Similar []) (s.removeTreeGuarded itm) (s'.removeTreeGuarded itm) := by
  have hset : Similar [] { s with deleted := false, undersize := false, currentItem := itm }
      { s' with deleted := false, undersize := false, currentItem := itm } :=
    { h with deleted := rfl, undersize := rfl, currentItem := rfl }
  have hbound : s'.depthBound = s.depthBound := by simp only [depthBound, h.live]
  have hrem : ∀ bound rooti, bound = s.depthBound → rooti = s.rooti →
      Agree (Similar [])
        (removeGuarded s.depthBound { s with deleted := false, undersize := false, currentItem := itm } s.rooti)
        (removeGuarded bound { s' with deleted := false, undersize := false, currentItem := itm } rooti) := by
    rintro _ _ rfl rfl
    exact removeGuarded_agree _ _ hset
  refine (hrem _ _ hbound h.rooti).bind fun s₁ s₁' h₁ => ?_
  rw [h₁.deleted, h₁.rooti, h₁.fetch]
  split
  · refine agree_step _ fun rootnode => ?_
    split
    · refine agree_step _ fun child => agree_ok ?_
      have hroot : Similar [] { s₁ with rooti := child } { s₁' with rooti := child, deleted := s₁.deleted } :=
        { h₁ with rooti := rfl, deleted := rfl }
      exact hroot.shmfree _
    · exact agree_ok h₁
  · exact agree_ok h₁

/-! ## Results -/

section Search

variable {σ : Type} {func : NodeKey → σ → Ret × σ}

theorem searchGuarded_similar (h : Similar [] s s') (itm : NodeKey) :
    ∀ (fuel : Nat) (nodei : NodeInstanceOffset) (u : σ),
      s'.searchGuarded itm func fuel nodei u = s.searchGuarded itm func fuel nodei u
  | 0, _, _ => rfl
  | fuel + 1, nodei, u => by
    simp only [searchGuarded, h.fetch, searchGuarded_similar h itm fuel]

theorem searchKeyhashGuarded_similar (h : Similar [] s s') (keyhash : BitVec 32) :
    ∀ (fuel : Nat) (nodei : NodeInstanceOffset) (u : σ),
      s'.searchKeyhashGuarded keyhash func fuel nodei u = s.searchKeyhashGuarded keyhash func fuel nodei u
  | 0, _, _ => rfl
  | fuel + 1, nodei, u => by
    have ih : s'.searchKeyhashGuarded keyhash func fuel = s.searchKeyhashGuarded keyhash func fuel :=
      funext fun n => funext fun u => searchKeyhashGuarded_similar h keyhash fuel n u
    simp only [searchKeyhashGuarded, h.fetch, ih]

end Search

theorem countGuarded_similar (h : Similar [] s s') :
    ∀ (fuel : Nat) (nodei : NodeInstanceOffset), s'.countGuarded fuel nodei = s.countGuarded fuel nodei
  | 0, _ => rfl
  | fuel + 1, nodei => by
    simp only [countGuarded, h.fetch, countGuarded_similar h fuel]

end CategoryTree

end NetworkBfd.Smmr
