import NetworkBfd.Lib.Yields
import NetworkBfd.Smmr.Tree.Rep

/-!
# Insertion

`insertItemRecurcive_spec` says what `_insert_item_recurcive` leaves of the tree below a node: the same node with the
entry in it, or two trees with an entry between them for the caller to place. `addTree_spec` places the last one in a
new root. Blocks are taken from `shmalloc` only (`Grows`), and every write goes to a block of the tree or a new one.
-/

namespace NetworkBfd.Smmr

open Lib KeyTree

/-- `L'` is `L` with `x`, in order. -/
def Adds (x : NodeKey) (L L' : List NodeKey) : Prop :=
  Increasing L' ∧ ∀ y, y ∈ L' ↔ y = x ∨ y ∈ L

theorem Adds.same {x : NodeKey} {L : List NodeKey} (h : Increasing L) (hx : x ∈ L) : Adds x L L :=
  ⟨h, fun _ => ⟨Or.inr, fun hy => hy.elim (fun e => e ▸ hx) id⟩⟩

/-- Adding between smaller and greater entries. -/
theorem Adds.within {x : NodeKey} {A L L' B : List NodeKey} (h : Increasing (A ++ (L ++ B))) (hL : Adds x L L')
    (hA : ∀ a ∈ A, a < x) (hB : ∀ b ∈ B, x < b) : Adds x (A ++ (L ++ B)) (A ++ (L' ++ B)) := by
  refine ⟨h.replace hL.1 (fun y hy => (hL.2 y).mp hy) hA hB, fun y => ?_⟩
  simp only [List.mem_append, hL.2 y]
  tauto

namespace CategoryTree

/-- `shmalloc` fails only where the list of answers breaks its promise. -/
abbrev Contract (e : Fault) : Prop := e = .contract

/-- `s'` is `s` after the blocks `new` were handed out; of the live blocks only those in `own` were written. -/
structure Grows (own new : List Nat) (s s' : CategoryTree) : Prop where
  live : s'.live = s.live ∪ new.toFinset
  fresh : ∀ a ∈ new, a ∉ s.live
  bounded : ∀ a ∈ new, a < pageCnt * pageSize
  nodup : new.Nodup
  frame : ∀ a ∈ s.live, a ∉ own → s'.mem a = s.mem a
  answers : ∀ q ∈ s'.answers, q ∈ s.answers
  rooti : s'.rooti = s.rooti

theorem Grows.refl (own : List Nat) {s s' : CategoryTree} (hm : s'.mem = s.mem) (hl : s'.live = s.live)
    (ha : s'.answers = s.answers) (hr : s'.rooti = s.rooti) : Grows own [] s s' :=
  ⟨by simp [hl], by simp, by simp, by simp, fun a _ _ => by rw [hm], fun q hq => ha ▸ hq, hr⟩

theorem Grows.trans {own own' new new' : List Nat} {s s' s'' : CategoryTree} (h : Grows own new s s')
    (h' : Grows own' new' s' s'') (ho : ∀ a ∈ own', a ∈ own ∨ a ∉ s.live) : Grows own (new' ++ new) s s'' where
  live := by
    rw [h'.live, h.live, List.toFinset_append, Finset.union_assoc, Finset.union_comm new.toFinset]
  fresh := by
    intro a ha hl
    rcases List.mem_append.mp ha with ha | ha
    · exact h'.fresh a ha (by rw [h.live]; exact Finset.mem_union_left _ hl)
    · exact h.fresh a ha hl
  bounded := fun a ha => (List.mem_append.mp ha).elim (h'.bounded a) (h.bounded a)
  nodup := by
    refine List.nodup_append.mpr ⟨h'.nodup, h.nodup, fun a ha b hb e => h'.fresh a ha ?_⟩
    rw [h.live]
    exact Finset.mem_union_right _ (List.mem_toFinset.mpr (e ▸ hb))
  frame := by
    intro a hl ha
    rw [h'.frame a (by rw [h.live]; exact Finset.mem_union_left _ hl), h.frame a hl ha]
    intro ha'
    rcases ho a ha' with h1 | h1
    · exact ha h1
    · exact h1 hl
  answers := fun q hq => h.answers q (h'.answers q hq)
  rooti := h'.rooti.trans h.rooti

theorem Grows.mono {own own' new : List Nat} {s s' : CategoryTree} (h : Grows own new s s')
    (ho : ∀ a ∈ own, a ∈ own') : Grows own' new s s' :=
  { h with frame := fun a hl ha => h.frame a hl fun h' => ha (ho a h') }

/-- What a tree grows by is apart from it, and all of it is live. -/
theorem Grows.owned {own new : List Nat} {s s' : CategoryTree} {n : Nat} {t : KeyTree n} (h : Grows own new s s')
    (ho : s.Owned n t) : (new ++ blocks n t).Nodup ∧ ∀ a ∈ new ++ blocks n t, a ∈ s'.live := by
  refine ⟨List.nodup_append.mpr ⟨h.nodup, ho.nodup, ?_⟩, fun a ha => ?_⟩
  · rintro a ha _ hb rfl
    exact h.fresh a ha (ho.live a hb)
  · rw [h.live, Finset.mem_union, List.mem_toFinset]
    exact (List.mem_append.mp ha).elim Or.inr fun ha => Or.inl (ho.live a ha)

/-- What `shmalloc` does when it does not fail. -/
structure Allocated (s : CategoryTree) (ref : NodeInstanceOffset) (s' : CategoryTree) : Prop where
  isEmpty : ref.isEmpty = false
  fresh : ref.addr ∉ s.live
  grows : Grows [] [ref.addr] s s'
  newnodei : s'.newnodei = s.newnodei
  currentItem : s'.currentItem = s.currentItem

theorem shmalloc_spec {s : CategoryTree} (hb : ∀ q ∈ s.answers, q.isBlock = true) :
    Yields Contract s.shmalloc (fun r => r.2.1 = true ∧ Allocated s r.1 r.2.2) := by
  unfold shmalloc
  split
  · rename_i ref junk rest hans
    split
    · rename_i hf
      obtain ⟨h1, h2, h3, h4⟩ := hf
      refine ⟨rfl, ?_, h4, ⟨?_, by simpa using h4, ?_, by simp, ?_, ?_, rfl⟩, rfl, rfl⟩
      · simp only [NodeInstanceOffset.isEmpty, Bool.and_eq_false_iff, beq_eq_false_iff_ne]
        refine Or.inl (Or.inr fun h => ?_)
        rw [h] at h1
        simp at h1
      · ext a
        simp [or_comm]
      · simp only [List.mem_singleton, forall_eq, NodeInstanceOffset.addr, pageCnt, pageSize] at h2 h3 ⊢
        omega
      · intro a ha _
        exact Function.update_of_ne (fun e : a = ref.addr => h4 (e ▸ ha)) _ _
      · intro q hq
        rw [hans]
        exact List.mem_cons_of_mem _ hq
    · rfl
  · rename_i ref rest hans
    have := hb (.null ref) (by rw [hans]; simp)
    simp [ShmAnswer.isBlock] at this
  · rfl

/-! ## One node -/

section Node

variable {mem mem' : Nat → NodeInstance} {n : Nat} {ref : NodeInstanceOffset} {ks₁ ks₂ : List NodeKey}
  {cs₁ cs₂ : List (KeyTree n)} {c l r : KeyTree n} {k : NodeKey}
  {len : (cs₁ ++ c :: cs₂).length = (ks₁ ++ ks₂).length + 1}

/-- The child `c` became `l`, at the same reference. -/
theorem rep_replace (h : Rep mem (n + 1) (node ref (ks₁ ++ ks₂) (cs₁ ++ c :: cs₂) len))
    (hm : mem' ref.addr = mem ref.addr) (hs : ∀ d, d ∈ cs₁ ∨ d ∈ cs₂ → Rep mem' n d) (hl : Rep mem' n l)
    (hroot : root n l = root n c) :
    Rep mem' (n + 1) (node ref (ks₁ ++ ks₂) (cs₁ ++ l :: cs₂) (by simpa using len)) := by
  obtain ⟨h1, h2, h3, -⟩ := rep_node.mp h
  refine rep_node.mpr ⟨h1, hm ▸ h2, ?_, fun d hd => ?_⟩
  · rw [hm, h3]
    simp [hroot]
  · simp only [List.mem_append, List.mem_cons] at hd
    rcases hd with hd | rfl | hd
    · exact hs d (Or.inl hd)
    · exact hl
    · exact hs d (Or.inr hd)

/-- The child `c` became `l` and `r` with `k` between them, and the node had room. -/
theorem rep_addItem (h : Rep mem (n + 1) (node ref (ks₁ ++ ks₂) (cs₁ ++ c :: cs₂) len))
    (hcs : cs₁.length = ks₁.length) (hc : (ks₁ ++ ks₂).length < 4)
    (hm : mem' ref.addr = (mem ref.addr).addItem ks₁.length k (root n r))
    (hs : ∀ d, d ∈ cs₁ ∨ d ∈ cs₂ → Rep mem' n d) (hl : Rep mem' n l) (hr : Rep mem' n r)
    (hroot : root n l = root n c) :
    Rep mem' (n + 1) (node ref (ks₁ ++ k :: ks₂) (cs₁ ++ l :: r :: cs₂) (by simp at len ⊢; omega)) := by
  obtain ⟨h1, h2, h3, -⟩ := rep_node.mp h
  have hcount : (mem ref.addr).count < 4 := by rw [← NodeInstance.length_keyList, h2]; exact hc
  have h3' : (mem ref.addr).childList = (cs₁ ++ [l]).map (root n) ++ cs₂.map (root n) := by
    rw [h3]
    simp [hroot]
  refine rep_node.mpr ⟨h1, ?_, ?_, fun d hd => ?_⟩
  · rw [hm]
    exact NodeInstance.addItem_keyList h2 hcount
  · rw [hm, NodeInstance.addItem_childList h3' (by simp [hcs]) hcount]
    simp
  · simp only [List.mem_append, List.mem_cons] at hd
    rcases hd with hd | rfl | rfl | hd
    · exact hs d (Or.inl hd)
    · exact hl
    · exact hr
    · exact hs d (Or.inr hd)

/-- An overfull node is dealt out over its old block and a new one. -/
theorem splitNode_spec {s : CategoryTree} {childs : List (KeyTree n)} (hb : ∀ q ∈ s.answers, q.isBlock = true)
    (hne : ref.isEmpty = false) (hlive : ref.addr ∈ s.live) (hk : (s.mem ref.addr).keyList = ks₁ ++ ks₂)
    (h4 : (ks₁ ++ ks₂).length = 4)
    (hr : (s.mem ref.addr).childList.take (ks₁.length + 1) ++
      s.newnodei :: (s.mem ref.addr).childList.drop (ks₁.length + 1) = childs.map (root n))
    (hrep : ∀ d ∈ childs, Rep s.mem n d) (hl : ∀ a ∈ childs.flatMap (blocks n), a ∈ s.live ∧ a ≠ ref.addr)
    (hf : ∀ d ∈ childs, MTree.Filled 2 4 2 n d) :
    Yields Contract (s.splitNode ref ks₁.length) fun s' => ∃ (l r : KeyTree (n + 1)) (new : Nat),
      Grows [ref.addr] [new] s s' ∧ root (n + 1) l = ref ∧ root (n + 1) r = s'.newnodei ∧ Rep s'.mem (n + 1) l ∧
      Rep s'.mem (n + 1) r ∧
      (blocks (n + 1) l ++ blocks (n + 1) r).Perm (new :: ref.addr :: childs.flatMap (blocks n)) ∧
      MTree.Filled 2 4 2 (n + 1) l ∧ MTree.Filled 2 4 2 (n + 1) r ∧
      MTree.toList (n + 1) l ++ s'.currentItem :: MTree.toList (n + 1) r =
        interleave (MTree.toList n) childs (ks₁ ++ s.currentItem :: ks₂) := by
  have hcount : (s.mem ref.addr).count = 4 := by rw [← NodeInstance.length_keyList, hk]; exact h4
  have hchilds : childs.length = 6 := by
    have := congrArg List.length hr
    simp only [List.length_append, List.length_cons, List.length_take, List.length_drop,
      NodeInstance.length_childList, List.length_map, hcount] at this
    simp only [List.length_append] at h4
    omega
  rw [splitNode, if_neg (by simp [hne])]
  refine (shmalloc_spec hb).bind ?_
  rintro ⟨newref, notnull, s₁⟩ ⟨hnn, ha⟩
  obtain rfl : notnull = true := hnn
  replace ha : Allocated s newref s₁ := ha
  have hnew : newref.addr ≠ ref.addr := fun e => ha.fresh (by rw [e]; exact hlive)
  have hmem : s₁.mem ref.addr = s.mem ref.addr := ha.grows.frame _ hlive (by simp)
  simp only [if_true, yields_ok, refnode, hmem, ha.currentItem, ha.newnodei]
  have hlists := NodeInstance.splitPair_lists (s₁.mem newref.addr) hcount ks₁.length
    (by rw [← h4, List.length_append]; omega) s.currentItem s.newnodei
  dsimp only at hlists
  rw [hr, hk, List.take_left, List.drop_left] at hlists
  generalize NodeInstance.splitPair (s.mem ref.addr) (s₁.mem newref.addr) ks₁.length s.currentItem s.newnodei = sp
    at hlists ⊢
  obtain ⟨nodeL, nodeR, up⟩ := sp
  obtain ⟨hkl, hcl, hkr, hcr⟩ := hlists
  simp only at hkl hcl hkr hcr ⊢
  generalize hkeys : ks₁ ++ s.currentItem :: ks₂ = keys at *
  have h5 : keys.length = 5 := by rw [← hkeys]; simp at h4 ⊢; omega
  have hkr5 : nodeR.keyList.length = 2 := by
    have := congrArg List.length hkr
    simp only [List.length_drop, List.length_cons] at this
    omega
  have hkeep : ∀ d ∈ childs, Rep (Function.update (Function.update s₁.mem ref.addr nodeL) newref.addr
      nodeR) n d := by
    intro d hd
    refine (hrep d hd).congr fun a had => ?_
    obtain ⟨hal, har⟩ := hl a (List.mem_flatMap.mpr ⟨d, hd, had⟩)
    rw [Function.update_of_ne (fun e : a = newref.addr => ha.fresh (by rw [← e]; exact hal)), Function.update_of_ne har]
    exact ha.grows.frame a hal (by simp)
  refine ⟨node ref (keys.take 2) (childs.take 3) (by simp [h5, hchilds]),
    node newref nodeR.keyList (childs.drop 3) (by simp only [List.length_drop]; omega), newref.addr,
    ⟨ha.grows.live, ha.grows.fresh, ha.grows.bounded, ha.grows.nodup, ?_, ha.grows.answers, ha.grows.rooti⟩, rfl, rfl,
      ?_, ?_, ?_, ?_, ?_, ?_⟩
  · intro a hal har
    have har' : a ≠ ref.addr := by simpa using har
    have han : a ≠ newref.addr := fun e => ha.fresh (by rw [← e]; exact hal)
    simp only [modify, Function.update_of_ne han, Function.update_of_ne har']
    exact ha.grows.frame a hal (by simp)
  · refine rep_node.mpr ⟨hne, ?_, ?_, fun d hd => hkeep d (List.mem_of_mem_take hd)⟩
    · simpa [modify, Function.update_of_ne hnew.symm] using hkl
    · simpa [modify, Function.update_of_ne hnew.symm, List.map_take] using hcl
  · refine rep_node.mpr ⟨ha.isEmpty, ?_, ?_, fun d hd => hkeep d (List.mem_of_mem_drop hd)⟩
    · simp [modify]
    · simpa [modify, List.map_drop] using hcr
  · rw [blocks_node, blocks_node, List.perm_iff_count]
    intro a
    have : childs.flatMap (blocks n) = (childs.take 3).flatMap (blocks n) ++ (childs.drop 3).flatMap (blocks n) := by
      rw [← List.flatMap_append, List.take_append_drop]
    rw [this]
    simp only [List.cons_append, List.count_append, List.count_cons]
    omega
  · exact ⟨by simp [h5], by simp [h5], fun d hd => hf d (List.mem_of_mem_take hd)⟩
  · exact ⟨hkr5.ge, by simp only; omega, fun d hd => hf d (List.mem_of_mem_drop hd)⟩
  · have hsplit := interleave_split (f := MTree.toList n) (childs.drop 3) nodeR.keyList up (childs.take 3)
      (keys.take 2) (by simp [h5, hchilds])
    rw [List.take_append_drop, ← hkr, List.take_append_drop] at hsplit
    exact hsplit.symm

end Node

/-! ## The recursion -/

/-- What an insertion of `x` leaves of the tree `t` after handing out `new`. -/
inductive Inserted (x : NodeKey) (lo n : Nat) (t : KeyTree n) (new : List Nat) (s : CategoryTree) : Prop
  /-- the entry is in the tree -/
  | kept (t' : KeyTree n) (done : s.done = true) (root_eq : root n t' = root n t) (rep : Rep s.mem n t')
      (perm : (blocks n t').Perm (new ++ blocks n t)) (filled : MTree.Filled 2 4 lo n t')
      (adds : Adds x (MTree.toList n t) (MTree.toList n t'))
  /-- two trees are left, and `current_item` belongs between them -/
  | split (l r : KeyTree n) (done : s.done = false) (root_l : root n l = root n t) (root_r : root n r = s.newnodei)
      (rep_l : Rep s.mem n l) (rep_r : Rep s.mem n r) (perm : (blocks n l ++ blocks n r).Perm (new ++ blocks n t))
      (filled_l : MTree.Filled 2 4 2 n l) (filled_r : MTree.Filled 2 4 2 n r)
      (adds : Adds x (MTree.toList n t) (MTree.toList n l ++ s.currentItem :: MTree.toList n r))

theorem insertItemRecurcive_spec : ∀ {n : Nat} {t : KeyTree n} {lo : Nat} (fuel : Nat) {s : CategoryTree}, n < fuel →
    lo ≤ 2 →
    s.Owned n t → MTree.Filled 2 4 lo n t → Increasing (MTree.toList n t) →
    (∀ q ∈ s.answers, q.isBlock = true) →
    Yields Contract (insertItemRecurcive fuel s (root n t)) fun s' =>
      ∃ new, Grows (blocks n t) new s s' ∧ Inserted s.currentItem lo n t new s'
  | 0, t, lo, fuel + 1, s, _, _, _, _, _, _ => by
    refine ⟨[], Grows.refl _ rfl rfl rfl rfl, ?_⟩
    refine Inserted.split t t rfl rfl rfl trivial trivial (by simp) trivial trivial ⟨?_, fun y => ?_⟩
    · simp [MTree.toList]
    · simp [MTree.toList]
  | n + 1, ⟨ref, keys, childs, len⟩, lo, fuel + 1, s, hfuel, hlo, ho, hf, hs, hb => by
    obtain ⟨ks₁, ks₂, rfl, hpos, hlt, hge⟩ := exists_position s.currentItem keys
    obtain ⟨cs₁, c, cs₂, rfl, h₁, h₂⟩ := exists_zoom len
    have hrep := rep_node.mp ho.rep
    obtain ⟨hne, hk, hr, -⟩ := hrep
    have hroot : root (n + 1) (node ref (ks₁ ++ ks₂) (cs₁ ++ c :: cs₂) len) = ref := rfl
    have hcount : (s.mem ref.addr).count = (ks₁ ++ ks₂).length := by rw [← NodeInstance.length_keyList, hk]
    have htl : MTree.toList (n + 1) (node ref (ks₁ ++ ks₂) (cs₁ ++ c :: cs₂) len) =
        before (MTree.toList n) cs₁ ks₁ ++ (MTree.toList n c ++ after (MTree.toList n) ks₂ cs₂) :=
      interleave_zoom h₁ h₂
    have hs' := hs
    rw [htl] at hs'
    obtain ⟨hsA, hs'', -⟩ := List.pairwise_append.mp hs'
    obtain ⟨hsC, hsB, -⟩ := List.pairwise_append.mp hs''
    rw [insertItemRecurcive, hroot, if_neg (by simp [hne])]
    simp only [findPos_eq, refnode, hk, hpos]
    split
    · -- the entry is in this node
      rename_i hfound
      obtain ⟨hlt', heq⟩ := hfound
      have hx : s.currentItem ∈ ks₂ := by
        rw [compareNodeKeyUnsafe_eq_zero, NodeInstance.key_eq hk (by rw [← hcount]; exact hlt'),
          List.getElem_append_right (le_refl _)] at heq
        rw [← heq]
        exact List.getElem_mem _
      have hmem : s.currentItem ∈ MTree.toList (n + 1) (node ref (ks₁ ++ ks₂) (cs₁ ++ c :: cs₂) len) := by
        rw [htl]
        exact List.mem_append_right _ (List.mem_append_right _ (mem_after_key h₂ hx))
      exact ⟨[], Grows.refl _ rfl rfl rfl rfl, Inserted.kept _ rfl rfl ho.rep (by simp) hf (Adds.same hs hmem)⟩
    · -- the entry belongs below the child `c`
      rename_i hfound
      have hnext : ∀ k ks', ks₂ = k :: ks' → s.currentItem < k := by
        rintro k ks' rfl
        refine lt_of_le_of_ne (hge k ks' rfl) fun e => hfound ⟨by rw [hcount]; simp, ?_⟩
        rw [compareNodeKeyUnsafe_eq_zero, NodeInstance.key_eq hk (by simp),
          List.getElem_append_right (le_refl _)]
        simpa using e.symm
      have hA := route_before hsA hlt
      have hB := route_after hsB hnext
      have hchild : (s.mem ref.addr).child ks₁.length = root n c := by
        rw [NodeInstance.child_eq hr (by simp [h₁])]
        simp [h₁]
      obtain ⟨hoc, haround, hnd⟩ := ho.zoom
      obtain ⟨hflo, hfhi, hfc⟩ := hf
      have hfc' : ∀ d, d ∈ cs₁ ∨ d ∈ cs₂ → MTree.Filled 2 4 2 n d := fun d hd =>
        hfc d (List.mem_append.mpr (hd.imp_right (List.mem_cons_of_mem c)))
      rw [hchild]
      refine (insertItemRecurcive_spec fuel (by omega) (le_refl 2) hoc (hfc c (by simp)) hsC hb).bind ?_
      rintro s' ⟨new, hg, hins⟩
      have hframe : ∀ a ∈ around ref cs₁ cs₂, s'.mem a = s.mem a := fun a ha =>
        hg.frame a (haround a ha).1 (haround a ha).2
      have href := hframe ref.addr (by simp [around])
      have hsib := ho.rep.siblings (fun a ha _ => hframe a ha) hnd
      have hown : ∀ a ∈ blocks n c, a ∈ blocks (n + 1) (node ref (ks₁ ++ ks₂) (cs₁ ++ c :: cs₂) len) := fun a ha =>
        blocks_zoom.mem_iff.mpr (List.mem_append_right _ ha)
      have href_mem : ref.addr ∈ blocks (n + 1) (node ref (ks₁ ++ ks₂) (cs₁ ++ c :: cs₂) len) := by
        rw [blocks_node]
        simp
      cases hins with
      | kept c' hdone hroot' hrep' hperm hfill hadds =>
        rw [if_pos hdone]
        refine ⟨new, hg.mono hown, Inserted.kept (node ref (ks₁ ++ ks₂) (cs₁ ++ c' :: cs₂) (by simpa using len)) hdone
          rfl (rep_replace ho.rep href hsib hrep' hroot') ?_ ⟨hflo, hfhi, ?_⟩ ?_⟩
        · exact blocks_zoom.trans (blocks_replace hperm)
        · intro d hd
          simp only [List.mem_append, List.mem_cons] at hd
          rcases hd with hd | rfl | hd
          · exact hfc' d (Or.inl hd)
          · exact hfill
          · exact hfc' d (Or.inr hd)
        · rw [htl]
          have htl' : MTree.toList (n + 1) (node ref (ks₁ ++ ks₂) (cs₁ ++ c' :: cs₂) (by simpa using len)) = _ :=
            interleave_zoom h₁ h₂
          rw [htl']
          exact hadds.within hs' hA hB
      | split l r hdone hl hr' hrepl hrepr hperm hfl hfr hadds =>
        rw [if_neg (by simp [hdone])]
        have hcount' : (s'.mem ref.addr).count = (ks₁ ++ ks₂).length := by rw [href, hcount]
        have hfc'' : ∀ d ∈ cs₁ ++ l :: r :: cs₂, MTree.Filled 2 4 2 n d := by
          intro d hd
          simp only [List.mem_append, List.mem_cons] at hd
          rcases hd with hd | rfl | rfl | hd
          · exact hfc' d (Or.inl hd)
          · exact hfl
          · exact hfr
          · exact hfc' d (Or.inr hd)
        have hall : (ref.addr :: (cs₁ ++ l :: r :: cs₂).flatMap (blocks n)).Perm
            (new ++ blocks (n + 1) (node ref (ks₁ ++ ks₂) (cs₁ ++ c :: cs₂) len)) :=
          around_two.trans (blocks_replace hperm)
        obtain ⟨hnda, hlva⟩ := hg.owned ho
        have hapart : ∀ a ∈ (cs₁ ++ l :: r :: cs₂).flatMap (blocks n), a ∈ s'.live ∧ a ≠ ref.addr := by
          refine fun a ha => ⟨hlva a (hall.mem_iff.mp (List.mem_cons_of_mem _ ha)), ?_⟩
          rintro rfl
          exact (List.nodup_cons.mp (hall.nodup_iff.mpr hnda)).1 ha
        have hkeep : ∀ d ∈ cs₁ ++ l :: r :: cs₂, Rep s'.mem n d := by
          intro d hd
          simp only [List.mem_append, List.mem_cons] at hd
          rcases hd with hd | rfl | rfl | hd
          · exact hsib d (Or.inl hd)
          · exact hrepl
          · exact hrepr
          · exact hsib d (Or.inr hd)
        have hadds' := hadds.within hs' hA hB
        rw [← htl, ← interleave_zoom_two h₁ h₂] at hadds'
        split
        · -- there is room for the entry
          rename_i hroom
          rw [hcount'] at hroom
          have hmod : (({ s'.addItemToFreeNode ref ks₁.length with done := true } : CategoryTree)).mem =
              Function.update s'.mem ref.addr ((s'.mem ref.addr).addItem ks₁.length s'.currentItem s'.newnodei) := by
            simp [addItemToFreeNode, hne, modify]
          have hkeep' : ∀ d ∈ cs₁ ++ l :: r :: cs₂, Rep (Function.update s'.mem ref.addr
              ((s'.mem ref.addr).addItem ks₁.length s'.currentItem s'.newnodei)) n d := fun d hd =>
            (hkeep d hd).update fun h => (hapart _ (List.mem_flatMap.mpr ⟨d, hd, h⟩)).2 rfl
          have hg' : Grows [ref.addr] [] s' { s'.addItemToFreeNode ref ks₁.length with done := true } := by
            refine ⟨by simp [addItemToFreeNode, hne, modify], by simp, by simp, by simp, ?_, ?_, ?_⟩
            · intro a _ ha
              rw [hmod, Function.update_of_ne (by simpa using ha)]
            · simp [addItemToFreeNode, hne, modify]
            · simp [addItemToFreeNode, hne, modify]
          refine ⟨new, (hg.mono hown).trans hg' (by simp [href_mem]), Inserted.kept
            (node ref (ks₁ ++ s'.currentItem :: ks₂) (cs₁ ++ l :: r :: cs₂) (by simp at len ⊢; omega)) rfl rfl
            (rep_addItem ho.rep h₁ hroom (r := r) ?_ ?_ ?_ ?_ hl) ?_ ⟨?_, ?_, hfc''⟩ hadds'⟩
          · rw [hmod, Function.update_self, href, hr']
          · rw [hmod]
            exact fun d hd => hkeep' d (List.mem_append.mpr (hd.imp_right fun h => .tail l (.tail r h)))
          · rw [hmod]
            exact hkeep' l (by simp)
          · rw [hmod]
            exact hkeep' r (by simp)
          · rw [blocks_node]
            exact hall
          · simp only [List.length_append, List.length_cons] at hflo ⊢
            omega
          · simp only [List.length_append, List.length_cons, treeNodecount] at hroom ⊢
            omega
        · -- the node is full
          rename_i hroom
          rw [hcount'] at hroom
          have hk' : (s'.mem ref.addr).keyList = ks₁ ++ ks₂ := by rw [href, hk]
          have hcl' : (s'.mem ref.addr).childList = (cs₁ ++ [l]).map (root n) ++ cs₂.map (root n) := by
            rw [href, hr]
            simp [hl]
          refine (splitNode_spec (fun q hq => hb q (hg.answers q hq)) hne ?_ hk' ?_ ?_
            hkeep hapart hfc'').bind ?_
          · rw [hg.live]
            exact Finset.mem_union_left _ (haround _ (by simp [around])).1
          · simp only [treeNodecount] at hroom
            simp only at hfhi
            omega
          · rw [hcl', List.take_left' (by simp [h₁]), List.drop_left' (by simp [h₁]), ← hr']
            simp
          · rintro s'' ⟨l', r', new', hg', hrl, hrr, hrepl', hrepr', hperm', hfl', hfr', htl'⟩
            have hg'' : Grows [ref.addr] [new'] s' { s'' with done := false } :=
              ⟨hg'.live, hg'.fresh, hg'.bounded, hg'.nodup, hg'.frame, hg'.answers, hg'.rooti⟩
            refine ⟨new' :: new, (hg.mono hown).trans hg'' (by simp [href_mem]),
              Inserted.split l' r' rfl hrl hrr hrepl' hrepr' ?_ hfl' hfr' ?_⟩
            · exact hperm'.trans (hall.cons new')
            · rw [htl']
              exact hadds'

/-- Two trees and the entry between them go under a new root. -/
theorem callocNewNode_spec {s : CategoryTree} {n : Nat} {l r : KeyTree n} (hb : ∀ q ∈ s.answers, q.isBlock = true)
    (hl : root n l = s.rooti) (hr : root n r = s.newnodei) (hrepl : Rep s.mem n l) (hrepr : Rep s.mem n r)
    (hn : (blocks n l ++ blocks n r).Nodup) (hlive : ∀ a ∈ blocks n l ++ blocks n r, a ∈ s.live)
    (hfl : MTree.Filled 2 4 2 n l) (hfr : MTree.Filled 2 4 2 n r) :
    Yields Contract s.callocNewNode fun p => p.2.Owned (n + 1) (node p.1 [s.currentItem] [l, r] rfl) ∧
      MTree.Filled 2 4 1 (n + 1) (node p.1 [s.currentItem] [l, r] rfl) ∧
      p.1.addr < pageCnt * pageSize ∧ (∀ q ∈ p.2.answers, q ∈ s.answers) ∧ p.2.live = s.live ∪ {p.1.addr} := by
  refine (shmalloc_spec hb).bind ?_
  rintro ⟨ref, notnull, s₁⟩ ⟨hnn, ha⟩
  obtain rfl : notnull = true := hnn
  replace ha : Allocated s ref s₁ := ha
  have hfresh : ∀ a ∈ blocks n l ++ blocks n r, a ≠ ref.addr := fun a hal e => ha.fresh (by rw [← e]; exact hlive a hal)
  have hkeep : ∀ {d : KeyTree n} {nd : NodeInstance}, Rep s.mem n d →
      (∀ a ∈ blocks n d, a ∈ blocks n l ++ blocks n r) → Rep (Function.update s₁.mem ref.addr nd) n d :=
    fun hd hsub => hd.congr fun a hal => by
      rw [Function.update_of_ne (hfresh a (hsub a hal)), ha.grows.frame a (hlive a (hsub a hal)) (by simp)]
  simp only [if_true, yields_ok, ha.currentItem, ha.newnodei, ha.grows.rooti]
  refine ⟨⟨rep_node.mpr ⟨ha.isEmpty, ?_, ?_, ?_⟩, ?_, ?_⟩, ⟨by simp, by simp, ?_⟩,
    ha.grows.bounded _ (by simp), ha.grows.answers, ?_⟩
  · simp [modify, NodeInstance.keyList, NodeInstance.setKey_key]
  · simp [modify, NodeInstance.childList, List.range_succ, NodeInstance.setChild_child, hl, hr]
  · rintro d hd
    simp only [List.mem_cons, List.not_mem_nil, or_false] at hd
    rcases hd with rfl | rfl
    · exact hkeep hrepl fun a hal => List.mem_append_left _ hal
    · exact hkeep hrepr fun a hal => List.mem_append_right _ hal
  · rw [blocks_node]
    refine List.nodup_cons.mpr ⟨fun h => ?_, by simpa using hn⟩
    exact hfresh ref.addr (by simpa using h) rfl
  · intro a hal
    simp only [blocks_node, List.mem_cons, List.flatMap_cons, List.flatMap_nil, List.append_nil] at hal
    simp only [modify, ha.grows.live, Finset.mem_union, List.mem_toFinset, List.mem_singleton]
    exact hal.elim Or.inr fun h => Or.inl (hlive a h)
  · rintro d hd
    simp only [List.mem_cons, List.not_mem_nil, or_false] at hd
    rcases hd with rfl | rfl
    · exact hfl
    · exact hfr
  · simp only [modify, ha.grows.live, List.toFinset_cons, List.toFinset_nil, insert_empty_eq]

/-- `add_tree_safe` adds its entry to the tree of the category, and no block is lost. -/
theorem addTree_spec {s : CategoryTree} {n : Nat} {t : KeyTree n} (h : s.Holds n t)
    (hb : ∀ q ∈ s.answers, q.isBlock = true) (x : NodeKey) :
    Yields Contract (s.addTree x) fun s' => ∃ (n' : Nat) (t' : KeyTree n'), s'.Holds n' t' ∧
      Adds x (MTree.toList n t) (MTree.toList n' t') ∧ (∀ q ∈ s'.answers, q ∈ s.answers) ∧
      (s.live = (blocks n t).toFinset → s'.live = (blocks n' t').toFinset) := by
  have ho : ({ s with currentItem := x } : CategoryTree).Owned n t := ⟨h.owned.rep, h.owned.nodup, h.owned.live⟩
  have hspec := insertItemRecurcive_spec s.depthBound h.owned.lt_depthBound (by omega) ho h.filled
    h.increasing hb
  rw [← h.rooti] at hspec
  refine hspec.bind ?_
  rintro s' ⟨new, hg, hins⟩
  obtain ⟨hn, hlive⟩ := hg.owned ho
  have hbound : ∀ a ∈ new ++ blocks n t, a < pageCnt * pageSize := fun a ha =>
    (List.mem_append.mp ha).elim (hg.bounded a) (h.bounded a)
  have hrooti : s'.rooti = root n t := hg.rooti.trans h.rooti
  cases hins with
  | kept t' hdone hroot hrep hperm hfill hadds =>
    rw [if_pos hdone]
    refine ⟨n, t', ⟨⟨hrep, hperm.nodup_iff.mpr hn, fun a ha => hlive a (hperm.mem_iff.mp ha)⟩,
      fun a ha => hbound a (hperm.mem_iff.mp ha), by rw [hrooti, hroot], hfill, hadds.1⟩, hadds, hg.answers,
      fun hl => ?_⟩
    rw [hg.live, List.toFinset_eq_of_perm _ _ hperm, List.toFinset_append, Finset.union_comm, ← hl]
  | split l r hdone hl hr hrepl hrepr hperm hfl hfr hadds =>
    rw [if_neg (by simp [hdone])]
    refine (callocNewNode_spec (fun q hq => hb q (hg.answers q hq)) (hl.trans hrooti.symm) hr hrepl hrepr
      (hperm.nodup_iff.mpr hn) (fun a ha => hlive a (hperm.mem_iff.mp ha)) hfl hfr).bind ?_
    rintro ⟨ref, s''⟩ ⟨ho', hfill, href, hans, hlive'⟩
    have htl : MTree.toList (n + 1) (node ref [s'.currentItem] [l, r] rfl) =
        MTree.toList n l ++ s'.currentItem :: MTree.toList n r := rfl
    refine ⟨n + 1, _, ⟨⟨ho'.rep, ho'.nodup, ho'.live⟩, fun a ha => ?_, rfl, hfill, by rw [htl]; exact hadds.1⟩,
      by rw [htl]; exact hadds, fun q hq => hg.answers q (hans q hq), fun hl => ?_⟩
    · simp only [blocks_node, List.mem_cons, List.flatMap_cons, List.flatMap_nil, List.append_nil] at ha
      rcases ha with rfl | ha
      · exact href
      · exact hbound a (hperm.mem_iff.mp ha)
    · have htwo : s'.live = (blocks n l ++ blocks n r).toFinset := by
        rw [hg.live, List.toFinset_eq_of_perm _ _ hperm, List.toFinset_append, Finset.union_comm, ← hl]
      rw [hlive', htwo, blocks_node, List.toFinset_cons, List.flatMap_cons, List.flatMap_cons, List.flatMap_nil,
        List.append_nil, Finset.insert_eq, Finset.union_comm]

end CategoryTree
end NetworkBfd.Smmr
