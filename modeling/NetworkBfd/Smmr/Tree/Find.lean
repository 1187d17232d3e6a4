import NetworkBfd.Lib.Visits
import NetworkBfd.Smmr.Tree.Rep

/-!
# Search and count

`searchItemRecurcive_spec`: the search for an entry makes its callback exactly on that entry.
The search for a hash is first a search on the tree that the nodes hold (`treeSearch`,
`searchItemOnlyKeyhashRecurcive_eq`). It visits the entries with that hash, wherever in the tree they are
(`searchItemOnlyKeyhashRecurcive_spec`); `searchItemOnlyKeyhashRecurcive_course` says in which order (`visitOrder`) and
which callbacks can end it.
`countNodeRecursiveUnsafe_spec`: the count is the number of entries, modulo `2 ^ 32`.
-/

namespace NetworkBfd.Smmr

open Lib KeyTree

namespace CategoryTree

variable {σ : Type} {s : CategoryTree}

/-! ## One entry -/

theorem searchItemRecurcive_spec (itm : NodeKey) (func : NodeKey → σ → Ret × σ) (u : σ) : ∀ {n : Nat} {t : KeyTree n}
    {fuel : Nat}, n < fuel → Rep s.mem n t → Increasing (MTree.toList n t) →
    s.searchItemRecurcive itm func fuel (root n t) u =
      .ok (if itm ∈ MTree.toList n t then func itm u else (.ng, u))
  | 0, _, fuel + 1, _, _, _ => by simp [searchItemRecurcive, root, MTree.toList]
  | n + 1, ⟨ref, keys, childs, len⟩, fuel + 1, hfuel, hrep, hs => by
    obtain ⟨ks₁, ks₂, rfl, hpos, hlt, hge⟩ := exists_position itm keys
    obtain ⟨cs₁, c, cs₂, rfl, h₁, h₂⟩ := exists_zoom len
    obtain ⟨hne, hk, hr, hch⟩ := rep_node.mp hrep
    have hroot : root (n + 1) (node ref (ks₁ ++ ks₂) (cs₁ ++ c :: cs₂) len) = ref := rfl
    have hcount : (s.mem ref.addr).count = (ks₁ ++ ks₂).length := by rw [← NodeInstance.length_keyList, hk]
    have htl : MTree.toList (n + 1) (node ref (ks₁ ++ ks₂) (cs₁ ++ c :: cs₂) len) =
        before (MTree.toList n) cs₁ ks₁ ++ (MTree.toList n c ++ after (MTree.toList n) ks₂ cs₂) :=
      interleave_zoom h₁ h₂
    rw [htl] at hs ⊢
    obtain ⟨hsA, hs', -⟩ := List.pairwise_append.mp hs
    obtain ⟨hsC, hsB, -⟩ := List.pairwise_append.mp hs'
    have hA := route_before hsA hlt
    rw [searchItemRecurcive, hroot, if_neg (by simp [hne])]
    simp only [findPos_eq, refnode, hk, hpos]
    split
    · rename_i hfound
      obtain ⟨hlt', heq⟩ := hfound
      have hlen : ks₁.length < (ks₁ ++ ks₂).length := by rw [← hcount]; exact hlt'
      rw [compareNodeKeyUnsafe_eq_zero] at heq
      have hmem : itm ∈ ks₂ := by
        rw [NodeInstance.key_eq hk hlen, List.getElem_append_right (le_refl _)] at heq
        rw [heq]
        exact List.getElem_mem _
      rw [if_pos (List.mem_append_right _ (List.mem_append_right _ (mem_after_key h₂ hmem))), ← heq]
    · rename_i hfound
      have hnext : ∀ k ks', ks₂ = k :: ks' → itm < k := by
        rintro k ks' rfl
        refine lt_of_le_of_ne (hge k ks' rfl) fun e => hfound ⟨by rw [hcount]; simp, ?_⟩
        rw [compareNodeKeyUnsafe_eq_zero, NodeInstance.key_eq hk (by simp),
          List.getElem_append_right (le_refl _)]
        simpa using e
      have hB := route_after hsB hnext
      have hchild : (s.mem ref.addr).child ks₁.length = root n c := by
        rw [NodeInstance.child_eq hr (by simp [h₁])]
        simp [h₁]
      have hiff : itm ∈ before (MTree.toList n) cs₁ ks₁ ++ (MTree.toList n c ++ after (MTree.toList n) ks₂ cs₂) ↔
          itm ∈ MTree.toList n c := by
        simp only [List.mem_append]
        refine ⟨?_, fun h => Or.inr (Or.inl h)⟩
        rintro (h | h | h)
        · exact absurd (hA _ h) (lt_irrefl _)
        · exact h
        · exact absurd (hB _ h) (lt_irrefl _)
      rw [hchild, searchItemRecurcive_spec itm func u (by omega) (hch c (by simp)) hsC]
      simp only [hiff]

/-- A category holds one set of entries. -/
theorem Holds.mem_iff {n n' : Nat} {t : KeyTree n} {t' : KeyTree n'} (h : s.Holds n t) (h' : s.Holds n' t')
    (itm : NodeKey) : itm ∈ MTree.toList n t ↔ itm ∈ MTree.toList n' t' := by
  have hfind := searchItemRecurcive_spec itm (fun _ _ => (.ok, ())) () h.owned.lt_depthBound h.owned.rep h.increasing
  have hfind' :=
    searchItemRecurcive_spec itm (fun _ _ => (.ok, ())) () h'.owned.lt_depthBound h'.owned.rep h'.increasing
  rw [← h.rooti] at hfind
  rw [← h'.rooti] at hfind'
  have heq := Except.ok.inj (hfind.symm.trans hfind')
  by_cases hmem : itm ∈ MTree.toList n t
  · by_cases hmem' : itm ∈ MTree.toList n' t'
    · exact iff_of_true hmem hmem'
    · rw [if_pos hmem, if_neg hmem'] at heq
      cases heq
  · by_cases hmem' : itm ∈ MTree.toList n' t'
    · rw [if_neg hmem, if_pos hmem'] at heq
      cases heq
    · exact iff_of_false hmem hmem'

/-! ## All entries with one hash -/

/-- The entries with hash `h`. -/
def hits (h : BitVec 32) (l : List NodeKey) : List NodeKey := l.filter (·.keyhash = h)

theorem mem_hits {h : BitVec 32} {l : List NodeKey} {k : NodeKey} : k ∈ hits h l ↔ k ∈ l ∧ k.keyhash = h := by
  simp [hits]

theorem hits_append (h : BitVec 32) (l l' : List NodeKey) : hits h (l ++ l') = hits h l ++ hits h l' :=
  List.filter_append ..

theorem hits_eq_nil {h : BitVec 32} {l : List NodeKey} (hl : ∀ k ∈ l, k.keyhash ≠ h) : hits h l = [] :=
  List.filter_eq_nil_iff.mpr fun k hk => by simpa using hl k hk

/-- Visits of entries, and calls that answer `RET_NG`. -/
abbrev VisitsKeys (func : NodeKey → σ → Ret × σ) : List NodeKey → σ → σ → Prop := Visits (· = Ret.ng) func

/-- The calls that a search makes; it is ended by an entry that is marked. -/
abbrev CourseKeys (func : NodeKey → σ → Ret × σ) : List (NodeKey × Bool) → σ → List NodeKey → Bool → Prop :=
  Course (· = Ret.ng) func

/-- The hits, marked. -/
def markedHits (h : BitVec 32) (l : List NodeKey) : List (NodeKey × Bool) := (hits h l).map fun k => (k, true)

@[simp] theorem map_fst_markedHits (h : BitVec 32) (l : List NodeKey) :
    (markedHits h l).map Prod.fst = hits h l := by
  simp [markedHits, Function.comp_def]

section Order

variable {β : Type}

/-- The entries of a level after the first, each with the child before it, and the last child. What is found below is
not marked. -/
def rowOrder (h : BitVec 32) (sub : β → List (NodeKey × Bool)) : List NodeKey → List β → List (NodeKey × Bool)
  | k :: ks, d :: ds => markedHits h [k] ++ (Course.unmarked (sub d) ++ rowOrder h sub ks ds)
  | [], d :: _ => Course.unmarked (sub d)
  | _, [] => []

/-- A level from the first entry that is not too small: that entry, the row behind it, the child before it. -/
def levelOrder (h : BitVec 32) (sub : β → List (NodeKey × Bool)) : List NodeKey → List β → List (NodeKey × Bool)
  | k :: ks, c :: cs => markedHits h [k] ++ (rowOrder h sub ks cs ++ sub c)
  | [], c :: _ => sub c
  | _, [] => []

/-- The order in which the entries with hash `h` are visited. Those of the nodes that the outermost call walks down are
marked, those of the subtrees that it searches by calls of itself are not. -/
def visitOrder (h : BitVec 32) : (n : Nat) → KeyTree n → List (NodeKey × Bool)
  | 0, _ => []
  | n + 1, t =>
    let pos := ((MNode.keys t).takeWhile fun k => k.keyhash < h).length
    levelOrder h (visitOrder h n) ((MNode.keys t).drop pos) ((MNode.childs t).drop pos)

variable {h : BitVec 32} {sub : β → List (NodeKey × Bool)}

theorem rowOrder_concat (e : β) : ∀ {ks : List NodeKey} {ds : List β}, ds.length = ks.length →
    rowOrder h sub ks (ds ++ [e]) = rowOrder h sub ks ds ++ Course.unmarked (sub e)
  | [], [], _ => rfl
  | k :: ks, d :: ds, hl => by
    rw [List.cons_append, rowOrder, rowOrder, rowOrder_concat e (by simpa using hl)]
    simp only [List.append_assoc]
  | [], _ :: _, hl => by simp at hl
  | _ :: _, [], hl => by simp at hl

theorem rowOrder_perm {f : β → List NodeKey} : ∀ {ks : List NodeKey} {ds : List β}, ds.length = ks.length + 1 →
    (∀ d ∈ ds, ((sub d).map Prod.fst).Perm (hits h (f d))) →
    ((rowOrder h sub ks ds).map Prod.fst).Perm (hits h (interleave f ds ks))
  | [], [d], _, hd => by simpa [rowOrder, interleave] using hd d (by simp)
  | k :: ks, d :: ds, hl, hd => by
    have ih := @rowOrder_perm f ks ds (by simpa using hl) fun e he => hd e (by simp [he])
    have hcons : interleave f (d :: ds) (k :: ks) = f d ++ ([k] ++ interleave f ds ks) := rfl
    rw [rowOrder, hcons]
    simp only [List.map_append, map_fst_markedHits, Course.map_fst_unmarked, hits_append]
    rw [← List.append_assoc, ← List.append_assoc]
    exact ((List.Perm.append_left _ (hd d (by simp))).trans List.perm_append_comm).append ih
  | [], _ :: _ :: _, hl, _ => by simp at hl
  | [], [], hl, _ => by simp at hl
  | _ :: _, [], hl, _ => by simp at hl

theorem after_cons {f : β → List NodeKey} {k : NodeKey} {ks : List NodeKey} {ds : List β}
    (hl : ds.length = ks.length + 1) : after f (k :: ks) ds = [k] ++ interleave f ds ks := by
  obtain ⟨d, ds, rfl⟩ := List.exists_cons_of_length_eq_add_one hl
  rw [after, interleave_cons _ _ _ (by simpa using hl)]
  rfl

/-- The level behind its first child. -/
theorem row_perm {f : β → List NodeKey} {k : NodeKey} {ks : List NodeKey} {ds : List β} (hl : ds.length = ks.length + 1)
    (hd : ∀ d ∈ ds, ((sub d).map Prod.fst).Perm (hits h (f d))) :
    ((markedHits h [k] ++ rowOrder h sub ks ds).map Prod.fst).Perm (hits h (after f (k :: ks) ds)) := by
  rw [after_cons hl]
  simp only [List.map_append, map_fst_markedHits, hits_append]
  exact (rowOrder_perm hl hd).append_left _

/-- The level has the entries of its keys and children. -/
theorem levelOrder_perm {f : β → List NodeKey} {ks : List NodeKey} {c : β} {cs : List β} (hl : cs.length = ks.length)
    (hd : ∀ d ∈ c :: cs, ((sub d).map Prod.fst).Perm (hits h (f d))) :
    ((levelOrder h sub ks (c :: cs)).map Prod.fst).Perm (hits h (f c) ++ hits h (after f ks cs)) := by
  match ks, cs, hl with
  | [], [], _ => simpa [levelOrder, after, hits] using hd c (by simp)
  | k :: ks, d :: ds, hl =>
    have hrow := @row_perm β h sub f k ks (d :: ds) (by simpa using hl) fun e he => hd e (List.mem_cons_of_mem _ he)
    rw [levelOrder, ← List.append_assoc, List.map_append]
    exact (hrow.append (hd c (by simp))).trans List.perm_append_comm

theorem visitOrder_zoom {n : Nat} {ref : NodeInstanceOffset} {ks₁ ks₂ : List NodeKey} {cs₁ cs₂ : List (KeyTree n)}
    {c : KeyTree n} {len : (cs₁ ++ c :: cs₂).length = (ks₁ ++ ks₂).length + 1} (h₁ : cs₁.length = ks₁.length)
    (hpos : ((ks₁ ++ ks₂).takeWhile fun k => k.keyhash < h).length = ks₁.length) :
    visitOrder h (n + 1) (node ref (ks₁ ++ ks₂) (cs₁ ++ c :: cs₂) len) =
      levelOrder h (visitOrder h n) ks₂ (c :: cs₂) := by
  rw [visitOrder]
  simp only [hpos, List.drop_left]
  rw [← h₁, List.drop_left]

/-- Before the scanned position there are no hits. -/
theorem hits_before {n : Nat} {ks₁ : List NodeKey} {cs₁ : List (KeyTree n)}
    (hs : Increasing (before (MTree.toList n) cs₁ ks₁)) (hlt : ∀ k ∈ ks₁, k.keyhash < h) :
    hits h (before (MTree.toList n) cs₁ ks₁) = [] := hits_eq_nil fun a ha => by
  obtain ⟨k, hk', hle⟩ := exists_ge_of_mem_before hs ha
  have h1 := NodeKey.keyhash_le hle
  have h2 := hlt k hk'
  rintro rfl
  simp only [BitVec.le_def, BitVec.lt_def] at h1 h2
  omega

/-- Every hit is visited, and nothing else. -/
theorem visitOrder_perm : ∀ {n : Nat} {t : KeyTree n}, Increasing (MTree.toList n t) →
    ((visitOrder h n t).map Prod.fst).Perm (hits h (MTree.toList n t))
  | 0, _, _ => by simp [visitOrder, MTree.toList, hits]
  | n + 1, ⟨ref, keys, childs, len⟩, hs => by
    obtain ⟨ks₁, ks₂, rfl, hpos, hlt, -⟩ := exists_scan (·.keyhash < h) keys
    obtain ⟨cs₁, c, cs₂, rfl, h₁, h₂⟩ := exists_zoom len
    have ih : ∀ d ∈ c :: cs₂, ((visitOrder h n d).map Prod.fst).Perm (hits h (MTree.toList n d)) := fun d hd =>
      visitOrder_perm (hs.sublist (sublist_interleave len (List.mem_append_right _ hd)))
    have htl : MTree.toList (n + 1) (node ref (ks₁ ++ ks₂) (cs₁ ++ c :: cs₂) len) =
        before (MTree.toList n) cs₁ ks₁ ++ (MTree.toList n c ++ after (MTree.toList n) ks₂ cs₂) :=
      interleave_zoom h₁ h₂
    rw [htl] at hs ⊢
    have hA := hits_before (List.pairwise_append.mp hs).1 fun k hk => by simpa using hlt k hk
    rw [visitOrder_zoom h₁ hpos, hits_append, hA, List.nil_append, hits_append]
    exact levelOrder_perm h₂ ih

end Order

/-! ### The search on the tree -/

section OnTree

variable {β : Type}

/-- What the loop does with the entry `k`, and whether it stops there. -/
def offer (h : BitVec 32) (func : NodeKey → σ → Ret × σ) (k : NodeKey) (u : σ) : Bool × σ :=
  if h = k.keyhash then (decide ((func k u).1 = .ng), (func k u).2) else (false, u)

/-- The entries of a level after the first, each before the child on its left, and the last child. -/
def rowSearch (h : BitVec 32) (func : NodeKey → σ → Ret × σ) (sub : β → σ → Ret × σ) :
    List NodeKey → List β → σ → Bool × σ
  | k :: ks, d :: ds, u =>
    let (stop, u) := offer h func k u
    if stop then (true, u) else rowSearch h func sub ks ds (sub d u).2
  | [], d :: _, u => (false, (sub d u).2)
  | _, [], u => (false, u)

/-- A level from the first entry that is not too small. -/
def levelSearch (h : BitVec 32) (func : NodeKey → σ → Ret × σ) (sub : β → σ → Ret × σ) :
    List NodeKey → List β → σ → Ret × σ
  | k :: ks, c :: cs, u =>
    let (stop, u) := offer h func k u
    if stop then (.ok, u)
    else
      let (stop, u) := rowSearch h func sub ks cs u
      if stop then (.ok, u) else sub c u
  | [], c :: _, u => sub c u
  | _, [], u => (.ng, u)

/-- `_search_item_only_keyhash_recurcive` on the tree that the nodes hold. -/
def treeSearch (h : BitVec 32) (func : NodeKey → σ → Ret × σ) : (n : Nat) → KeyTree n → σ → Ret × σ
  | 0, _ => fun u => (.ng, u)
  | n + 1, t =>
    let pos := ((MNode.keys t).takeWhile fun k => k.keyhash < h).length
    levelSearch h func (treeSearch h func n) ((MNode.keys t).drop pos) ((MNode.childs t).drop pos)

variable {h : BitVec 32} {func : NodeKey → σ → Ret × σ} {sub : β → σ → Ret × σ}

theorem offer_of_ne {k : NodeKey} (hk : k.keyhash ≠ h) (u : σ) : offer h func k u = (false, u) :=
  if_neg fun he => hk he.symm

theorem rowSearch_concat (e : β) : ∀ {ks : List NodeKey} {ds : List β} (u : σ), ds.length = ks.length →
    rowSearch h func sub ks (ds ++ [e]) u =
      if (rowSearch h func sub ks ds u).1 then (true, (rowSearch h func sub ks ds u).2)
      else (false, (sub e (rowSearch h func sub ks ds u).2).2)
  | [], [], _, _ => rfl
  | k :: ks, d :: ds, u, hl => by
    simp only [List.cons_append, rowSearch]
    split
    · rfl
    · exact rowSearch_concat e _ (by simpa using hl)
  | [], _ :: _, _, hl => by simp at hl
  | _ :: _, [], _, hl => by simp at hl

/-- A row without hits. -/
theorem rowSearch_eq_self {f : β → List NodeKey} : ∀ {ks : List NodeKey} {ds : List β}, ds.length = ks.length + 1 →
    hits h (interleave f ds ks) = [] → (∀ d ∈ ds, hits h (f d) = [] → ∀ u, (sub d u).2 = u) →
    ∀ u, rowSearch h func sub ks ds u = (false, u)
  | [], [d], _, hno, hd, u => by rw [rowSearch, hd d (List.mem_singleton_self d) (by simpa [interleave] using hno)]
  | k :: ks, d :: e :: ds, hl, hno, hd, u => by
    have hcons : interleave f (d :: e :: ds) (k :: ks) = f d ++ ([k] ++ interleave f (e :: ds) ks) := rfl
    rw [hcons, hits_append, hits_append] at hno
    obtain ⟨hfirst, hno⟩ := List.append_eq_nil_iff.mp hno
    obtain ⟨hk, hrest⟩ := List.append_eq_nil_iff.mp hno
    have hne : k.keyhash ≠ h := fun he => by simp [hits, he] at hk
    rw [rowSearch, offer_of_ne hne]
    simp only [Bool.false_eq_true, if_false, hd d (List.mem_cons_self ..) hfirst]
    exact rowSearch_eq_self (by simpa using hl) hrest (fun d' hd' => hd d' (List.mem_cons_of_mem _ hd')) u
  | [], [], hl, _, _, _ => by simp at hl
  | [], _ :: _ :: _, hl, _, _, _ => by simp at hl
  | _ :: _, [], hl, _, _, _ => by simp at hl
  | _ :: _, [_], hl, _, _, _ => by simp at hl

/-- A level without hits behind its first child. -/
theorem levelSearch_eq_sub {f : β → List NodeKey} {k : NodeKey} {ks : List NodeKey} {c : β} {cs : List β}
    (hl : cs.length = ks.length + 1) (hno : hits h (after f (k :: ks) cs) = [])
    (hd : ∀ d ∈ cs, hits h (f d) = [] → ∀ u, (sub d u).2 = u) (u : σ) :
    levelSearch h func sub (k :: ks) (c :: cs) u = sub c u := by
  rw [after_cons hl, hits_append] at hno
  obtain ⟨hk, hrest⟩ := List.append_eq_nil_iff.mp hno
  have hne : k.keyhash ≠ h := fun he => by simp [hits, he] at hk
  rw [levelSearch, offer_of_ne hne]
  simp only [Bool.false_eq_true, if_false, rowSearch_eq_self hl hrest hd]

theorem treeSearch_zoom {n : Nat} {ref : NodeInstanceOffset} {ks₁ ks₂ : List NodeKey} {cs₁ cs₂ : List (KeyTree n)}
    {c : KeyTree n} {len : (cs₁ ++ c :: cs₂).length = (ks₁ ++ ks₂).length + 1} (h₁ : cs₁.length = ks₁.length)
    (hpos : ((ks₁ ++ ks₂).takeWhile fun k => k.keyhash < h).length = ks₁.length) :
    treeSearch h func (n + 1) (node ref (ks₁ ++ ks₂) (cs₁ ++ c :: cs₂) len) =
      levelSearch h func (treeSearch h func n) ks₂ (c :: cs₂) := by
  rw [treeSearch]
  simp only [hpos, List.drop_left]
  rw [← h₁, List.drop_left]

/-- The search makes its calls in the order `C`, and answers `RET_OK` exactly if it was ended. -/
def Searches (func : NodeKey → σ → Ret × σ) (C : List (NodeKey × Bool)) (m : σ → Ret × σ) : Prop :=
  ∀ u, ∃ vs ended, m u = (if ended then .ok else .ng, callAll func vs u) ∧ CourseKeys func C u vs ended

theorem offer_course (k : NodeKey) (u : σ) :
    ∃ vs stop, offer h func k u = (stop, callAll func vs u) ∧ CourseKeys func (markedHits h [k]) u vs stop := by
  by_cases hk : h = k.keyhash
  · have hmark : markedHits h [k] = [(k, true)] := by simp [markedHits, hits, hk]
    obtain ⟨stop, hc, hng⟩ := @Course.single _ _ _ (· = Ret.ng) func k u
    refine ⟨[k], stop, ?_, hmark ▸ hc⟩
    rw [offer, if_pos hk]
    exact Prod.ext (Bool.eq_iff_iff.mpr (decide_eq_true_iff.trans hng.symm)) rfl
  · have hmark : markedHits h [k] = [] := by simp [markedHits, hits, Ne.symm hk]
    exact ⟨[], false, if_neg hk, hmark ▸ Course.nil u⟩

variable {order : β → List (NodeKey × Bool)}

theorem rowSearch_course (hsub : ∀ d, Searches func (order d) (sub d)) : ∀ (ks : List NodeKey) (ds : List β) (u : σ),
    ∃ vs stop, rowSearch h func sub ks ds u = (stop, callAll func vs u) ∧
      CourseKeys func (rowOrder h order ks ds) u vs stop
  | k :: ks, d :: ds, u => by
    obtain ⟨vs, stop, hoffer, hc⟩ := @offer_course σ h func k u
    rw [rowSearch, hoffer, rowOrder]
    cases stop with
    | true => exact ⟨vs, true, rfl, hc.append_ended rfl⟩
    | false =>
      obtain ⟨vs₂, ended₂, hr, hc₂⟩ := hsub d (callAll func vs u)
      obtain ⟨vs₃, stop, hrow, hc₃⟩ := rowSearch_course hsub ks ds (callAll func vs₂ (callAll func vs u))
      refine ⟨vs ++ (vs₂ ++ vs₃), stop, ?_, hc.append (hc₂.inner.append hc₃)⟩
      simp only [Bool.false_eq_true, if_false, hr]
      rw [hrow, callAll_append, callAll_append]
  | [], d :: _, u => by
    obtain ⟨vs, ended, hr, hc⟩ := hsub d u
    exact ⟨vs, false, by rw [rowSearch, hr], hc.inner⟩
  | [], [], u => ⟨[], false, rfl, Course.nil u⟩
  | _ :: _, [], u => ⟨[], false, rfl, Course.nil u⟩

theorem levelSearch_course (hsub : ∀ d, Searches func (order d) (sub d)) : ∀ (ks : List NodeKey) (cs : List β),
    Searches func (levelOrder h order ks cs) (levelSearch h func sub ks cs)
  | k :: ks, c :: cs, u => by
    obtain ⟨vs, stop, hoffer, hc⟩ := @offer_course σ h func k u
    rw [levelSearch, hoffer, levelOrder]
    cases stop with
    | true => exact ⟨vs, true, rfl, hc.append_ended rfl⟩
    | false =>
      obtain ⟨vs₂, stop, hrow, hc₂⟩ := @rowSearch_course σ β h func sub order hsub ks cs (callAll func vs u)
      simp only [Bool.false_eq_true, if_false, hrow]
      cases stop with
      | true =>
        refine ⟨vs ++ vs₂, true, ?_, hc.append (hc₂.append_ended rfl)⟩
        rw [callAll_append]
        rfl
      | false =>
        obtain ⟨vs₃, ended, hr, hc₃⟩ := hsub c (callAll func vs₂ (callAll func vs u))
        refine ⟨vs ++ (vs₂ ++ vs₃), ended, ?_, hc.append (hc₂.append hc₃)⟩
        rw [callAll_append, callAll_append]
        exact hr
  | [], c :: _, u => hsub c u
  | [], [], u => ⟨[], false, rfl, Course.nil u⟩
  | _ :: _, [], u => ⟨[], false, rfl, Course.nil u⟩

theorem treeSearch_course : ∀ {n : Nat} (t : KeyTree n), Searches func (visitOrder h n t) (treeSearch h func n t)
  | 0, _ => fun u => ⟨[], false, rfl, Course.nil u⟩
  | _ + 1, _ => levelSearch_course treeSearch_course _ _

/-- Without hits nothing is called. -/
theorem treeSearch_eq_self {n : Nat} {t : KeyTree n} (hs : Increasing (MTree.toList n t))
    (hno : hits h (MTree.toList n t) = []) (u : σ) : (treeSearch h func n t u).2 = u := by
  obtain ⟨vs, ended, hrun, hc⟩ := @treeSearch_course σ h func n t u
  have hsub := hc.subperm.trans (visitOrder_perm hs).subperm
  rw [hno] at hsub
  rw [hrun, List.subperm_nil.mp hsub]
  rfl

end OnTree

/-! ### The search on the nodes -/

section Level

variable {nd : NodeInstance} {h : BitVec 32} {func : NodeKey → σ → Ret × σ} {n : Nat}
  {rec : NodeInstanceOffset → σ → Except Fault (Ret × σ)}

/-- One round of the loop. -/
theorem scanLevel_round (nd : NodeInstance) (h : BitVec 32) (func : NodeKey → σ → Ret × σ)
    (rec : NodeInstanceOffset → σ → Except Fault (Ret × σ)) (prevPos pos : Nat) (ps : List Nat) (u : σ) :
    scanLevel nd h func rec prevPos (pos :: ps) u =
      if (offer h func (nd.key pos) u).1 then .ok (true, (offer h func (nd.key pos) u).2)
      else if prevPos ≠ pos then do
        let (_, u) ← rec (nd.child pos) (offer h func (nd.key pos) u).2
        scanLevel nd h func rec prevPos ps u
      else scanLevel nd h func rec prevPos ps (offer h func (nd.key pos) u).2 := by
  by_cases hk : h = (nd.key pos).keyhash
  · simp only [scanLevel, offer, if_pos hk, decide_eq_true_eq]
    by_cases hng : (func (nd.key pos) u).1 = .ng
    · rw [if_pos ⟨hk, hng⟩, if_pos hng]
    · rw [if_neg fun hn => hng hn.2, if_neg hng]
  · simp only [scanLevel, offer, if_neg hk, Bool.false_eq_true, if_false]
    rw [if_neg fun hn => hk hn.1]

/-- The rounds after the first. -/
theorem scanLevel_row {sub : KeyTree n → σ → Ret × σ} (prevPos : Nat) : ∀ (ks : List NodeKey) (ds : List (KeyTree n))
    (q : Nat) (u : σ), ds.length = ks.length → prevPos < q → (∀ j (hj : j < ks.length), nd.key (q + j) = ks[j]) →
    (∀ j (hj : j < ds.length), nd.child (q + j) = root n ds[j]) →
    (∀ d ∈ ds, ∀ u, rec (root n d) u = .ok (sub d u)) →
    scanLevel nd h func rec prevPos (List.range' q ks.length) u = .ok (rowSearch h func sub ks ds u)
  | [], [], _, _, _, _, _, _, _ => rfl
  | k :: ks, d :: ds, q, u, hl, hq, hk, hd, hrec => by
    have hk0 : nd.key q = k := hk 0 (by simp)
    have hd0 : nd.child q = root n d := hd 0 (by simp)
    rw [List.length_cons, List.range'_succ, scanLevel_round, hk0, if_pos (by omega : prevPos ≠ q), hd0,
      hrec d (by simp), rowSearch]
    cases hoffer : offer h func k u with
    | mk stop u' =>
      cases stop with
      | true => rfl
      | false =>
        exact scanLevel_row prevPos ks ds (q + 1) (sub d u').2 (by simpa using hl) (by omega)
          (fun j hj => by rw [Nat.add_assoc, Nat.add_comm 1]; exact hk (j + 1) (by simpa using hj))
          (fun j hj => by rw [Nat.add_assoc, Nat.add_comm 1]; exact hd (j + 1) (by simpa using hj))
          (fun d hd => hrec d (by simp [hd]))
  | [], _ :: _, _, _, hl, _, _, _, _ => by simp at hl
  | _ :: _, [], _, _, hl, _, _, _, _ => by simp at hl

end Level

/-- The search on the nodes is that on the tree. -/
theorem searchItemOnlyKeyhashRecurcive_eq (h : BitVec 32) (func : NodeKey → σ → Ret × σ) :
    ∀ {n : Nat} {t : KeyTree n} (fuel : Nat) (u : σ), n < fuel → Rep s.mem n t → Increasing (MTree.toList n t) →
    s.searchItemOnlyKeyhashRecurcive h func fuel (root n t) u = .ok (treeSearch h func n t u)
  | 0, _, fuel + 1, _, _, _, _ => rfl
  | n + 1, ⟨ref, keys, childs, len⟩, fuel + 1, u, hfuel, hrep, hs => by
    obtain ⟨ks₁, ks₂, rfl, hpos, hlt, hge⟩ := exists_scan (·.keyhash < h) keys
    obtain ⟨cs₁, c, cs₂, rfl, h₁, h₂⟩ := exists_zoom len
    obtain ⟨hne, hk, hr, hch⟩ := rep_node.mp hrep
    have hroot : root (n + 1) (node ref (ks₁ ++ ks₂) (cs₁ ++ c :: cs₂) len) = ref := rfl
    have hcount : (s.mem ref.addr).count = (ks₁ ++ ks₂).length := by rw [← NodeInstance.length_keyList, hk]
    have htl : MTree.toList (n + 1) (node ref (ks₁ ++ ks₂) (cs₁ ++ c :: cs₂) len) =
        before (MTree.toList n) cs₁ ks₁ ++ (MTree.toList n c ++ after (MTree.toList n) ks₂ cs₂) :=
      interleave_zoom h₁ h₂
    have hsub : ∀ d ∈ cs₁ ++ c :: cs₂, Increasing (MTree.toList n d) := fun d hd =>
      hs.sublist (sublist_interleave len hd)
    have ih : ∀ d ∈ cs₁ ++ c :: cs₂, ∀ u, s.searchItemOnlyKeyhashRecurcive h func fuel (root n d) u =
        .ok (treeSearch h func n d u) := fun d hd u =>
      searchItemOnlyKeyhashRecurcive_eq h func fuel u (by omega) (hch d hd) (hsub d hd)
    rw [htl] at hs
    have hsB := (List.pairwise_append.mp (List.pairwise_append.mp hs).2.1).2.1
    have hkey : ∀ j (hj : j < ks₂.length), (s.mem ref.addr).key (ks₁.length + j) = ks₂[j] := fun j hj => by
      rw [NodeInstance.key_eq hk (by simpa using hj), List.getElem_append_right (by omega)]
      simp
    have hchild : (s.mem ref.addr).child ks₁.length = root n c := by
      rw [NodeInstance.child_eq hr (by simp [h₁])]
      simp [h₁]
    have hchild₂ : ∀ j (hj : j < cs₂.length), (s.mem ref.addr).child (ks₁.length + 1 + j) = root n cs₂[j] :=
      fun j hj => by
        rw [NodeInstance.child_eq hr (by simp [h₁]; omega)]
        simp [h₁, List.getElem_append_right, Nat.add_assoc, Nat.add_comm 1]
    have htail : ∀ u, s.searchItemOnlyKeyhashRecurcive h func fuel ((s.mem ref.addr).child ks₁.length) u =
        .ok (treeSearch h func n c u) := by
      rw [hchild]
      exact ih c (by simp)
    rw [treeSearch_zoom h₁ hpos, searchItemOnlyKeyhashRecurcive, hroot, if_neg (by simp [hne])]
    simp only [advance_eq, refnode, hk, hpos]
    cases ks₂ with
    | nil =>
      have h0 : ¬ (s.mem ref.addr).count ≠ ks₁.length := by rw [hcount]; simp
      have hrange : (s.mem ref.addr).count - ks₁.length = 0 := by rw [hcount]; simp
      have hsmall : ¬ (ks₁.length = 0 ∧ 0 < (s.mem ref.addr).count ∧ h < ((s.mem ref.addr).key 0).keyhash) := by
        rintro ⟨h1, h2, -⟩
        simp [hcount, h1] at h2
      rw [if_neg hsmall]
      simp only [hrange, List.range'_zero, scanLevel, bind, Except.bind, if_neg h0]
      exact htail u
    | cons k ks =>
      cases cs₂ with
      | nil => cases h₂
      | cons d₀ ds₀ =>
        split
        · -- all entries of this node are too large
          rename_i hbig
          obtain ⟨h0, -, hbig⟩ := hbig
          obtain rfl : ks₁ = [] := List.eq_nil_of_length_eq_zero h0
          have hB : hits h (after (MTree.toList n) (k :: ks) (d₀ :: ds₀)) = [] := hits_eq_nil fun b hb => by
            obtain ⟨k', ks', heq, hle⟩ := exists_le_of_mem_after hsB hb
            obtain ⟨rfl, rfl⟩ := List.cons.inj heq
            have h1 := NodeKey.keyhash_le hle
            have h2 : h < k.keyhash := by
              rw [show (s.mem ref.addr).key 0 = k from hkey 0 (by simp)] at hbig
              exact hbig
            rintro rfl
            simp only [BitVec.le_def, BitVec.lt_def] at h1 h2
            omega
          rw [levelSearch_eq_sub (by simpa using h₂) hB fun d hd => treeSearch_eq_self
            (hsub d (List.mem_append_right _ (List.mem_cons_of_mem _ hd)))]
          exact htail u
        · obtain ⟨ds, e, hds⟩ := (List.eq_nil_or_concat' (d₀ :: ds₀)).resolve_left (by simp)
          rw [hds] at hchild₂ ih h₂ ⊢
          have hlen : ds.length = ks.length := by simpa using h₂
          have hrange : (s.mem ref.addr).count - ks₁.length = ks.length + 1 := by rw [hcount]; simp
          have hlast : (s.mem ref.addr).child (s.mem ref.addr).count = root n e := by
            have := hchild₂ ds.length (by simp)
            simp only [List.getElem_concat_length] at this
            rw [hcount, ← this]
            simp [hlen, Nat.add_assoc, Nat.add_comm 1]
          have hrow := fun u => @scanLevel_row _ (s.mem ref.addr) h func n
            (s.searchItemOnlyKeyhashRecurcive h func fuel) (treeSearch h func n) ks₁.length ks ds (ks₁.length + 1) u
            hlen (Nat.lt_succ_self _)
            (fun j hj => by rw [Nat.add_assoc, Nat.add_comm 1]; exact hkey (j + 1) (by simpa using hj))
            (fun j hj => by rw [hchild₂ j (by simp; omega), List.getElem_append_left hj])
            (fun d hd u => ih d (by simp [hd]) u)
          have hkey0 : (s.mem ref.addr).key ks₁.length = k := hkey 0 (by simp)
          have h0 : (s.mem ref.addr).count ≠ ks₁.length := by rw [hcount]; simp
          rw [hrange, List.range'_succ, scanLevel_round, hkey0, if_neg (not_not.mpr rfl), hrow, levelSearch]
          obtain ⟨stop, u₁⟩ := offer h func k u
          cases stop with
          | true => rfl
          | false =>
            simp only [Bool.false_eq_true, if_false, bind, Except.bind, rowSearch_concat e u₁ hlen]
            obtain ⟨stop, u₂⟩ := rowSearch h func (treeSearch h func n) ks ds u₁
            cases stop with
            | true => rfl
            | false => simp only [Bool.false_eq_true, if_false, if_pos h0, hlast, ih e (by simp), htail]

/-- The search makes its calls in the order of visits until one on a marked entry answers `RET_NG`, and returns `RET_OK`
exactly then. -/
theorem searchItemOnlyKeyhashRecurcive_course (h : BitVec 32) (func : NodeKey → σ → Ret × σ) {n : Nat} {t : KeyTree n}
    (fuel : Nat) (u : σ) (hfuel : n < fuel) (hrep : Rep s.mem n t) (hs : Increasing (MTree.toList n t)) :
    ∃ vs ended, s.searchItemOnlyKeyhashRecurcive h func fuel (root n t) u =
        .ok (if ended then .ok else .ng, callAll func vs u) ∧ CourseKeys func (visitOrder h n t) u vs ended := by
  obtain ⟨vs, ended, hrun, hc⟩ := @treeSearch_course σ h func n t u
  exact ⟨vs, ended, (searchItemOnlyKeyhashRecurcive_eq h func fuel u hfuel hrep hs).trans (congrArg _ hrun), hc⟩

theorem searchItemOnlyKeyhashRecurcive_spec (h : BitVec 32) (func : NodeKey → σ → Ret × σ) {n : Nat} {t : KeyTree n}
    (fuel : Nat) (u : σ) (hfuel : n < fuel) (hrep : Rep s.mem n t) (hs : Increasing (MTree.toList n t)) :
    ∃ r u', s.searchItemOnlyKeyhashRecurcive h func fuel (root n t) u = .ok (r, u') ∧
      VisitsKeys func (hits h (MTree.toList n t)) u u' := by
  obtain ⟨vs, ended, hrun, hc⟩ := searchItemOnlyKeyhashRecurcive_course h func fuel u hfuel hrep hs
  exact ⟨_, _, hrun, hc.visits (visitOrder_perm hs)⟩

/-! ## The count -/

/-- The loop over the children that are followed by a key. -/
theorem countLoop {n : Nat} {rec : NodeInstanceOffset → Except Fault (BitVec 32)} : ∀ (ds : List (KeyTree n))
    (ks : List NodeKey) (count : BitVec 32), ds.length = ks.length →
    (∀ d ∈ ds, rec (root n d) = .ok (BitVec.ofNat 32 (MTree.toList n d).length)) →
    (ds.map (root n)).foldlM (fun count c => do
      let c ← rec c
      .ok (count + c + 1)) count =
      (.ok (count + BitVec.ofNat 32 (before (MTree.toList n) ds ks).length) : Except Fault (BitVec 32))
  | [], [], count, _, _ => by
    simp [before]
    rfl
  | d :: ds, k :: ks, count, hl, hrec => by
    rw [List.map_cons, List.foldlM_cons, hrec d (by simp)]
    simp only [bind, Except.bind]
    refine (countLoop ds ks _ (by simpa using hl) fun d hd => hrec d (by simp [hd])).trans ?_
    congr 1
    simp only [before, List.length_append, List.length_cons, BitVec.ofNat_add]
    ac_rfl
  | [], _ :: _, _, hl, _ => by simp at hl
  | _ :: _, [], _, hl, _ => by simp at hl

theorem countNodeRecursiveUnsafe_spec : ∀ {n : Nat} {t : KeyTree n} (fuel : Nat), n < fuel → Rep s.mem n t →
    s.countNodeRecursiveUnsafe fuel (root n t) = .ok (BitVec.ofNat 32 (MTree.toList n t).length)
  | 0, _, fuel + 1, _, _ => rfl
  | n + 1, ⟨ref, keys, childs, len⟩, fuel + 1, hfuel, hrep => by
    obtain ⟨hne, hk, hr, hch⟩ := rep_node.mp hrep
    obtain ⟨ds, e, rfl⟩ := (List.eq_nil_or_concat' childs).resolve_left fun h => by simp [h] at len
    have hl : ds.length = keys.length := by simpa using len
    have hcount : (s.mem ref.addr).count = keys.length := by rw [← NodeInstance.length_keyList, hk]
    have hrec : ∀ d ∈ ds ++ [e], s.countNodeRecursiveUnsafe fuel (root n d) =
        .ok (BitVec.ofNat 32 (MTree.toList n d).length) := fun d hd =>
      countNodeRecursiveUnsafe_spec fuel (by omega) (hch d hd)
    have hds : (List.range keys.length).map (s.mem ref.addr).child = ds.map (root n) := by
      have h1 : (List.range (keys.length + 1)).map (s.mem ref.addr).child = (ds ++ [e]).map (root n) := by
        rw [← hr, ← hcount]
        rfl
      rw [List.range_succ, List.map_append, List.map_append] at h1
      exact (List.append_inj h1 (by simp [hl])).1
    have hlast : (s.mem ref.addr).child keys.length = root n e := by
      rw [NodeInstance.child_eq hr (by simp; omega)]
      simp [← hl]
    have hloop := countLoop ds keys 0 hl fun d hd => hrec d (List.mem_append_left _ hd)
    rw [← hds, List.foldlM_map] at hloop
    have htl : MTree.toList (n + 1) (node ref keys (ds ++ [e]) len) =
        before (MTree.toList n) ds keys ++ MTree.toList n e := by
      have := interleave_append (f := MTree.toList n) [e] [] ds keys hl
      rwa [List.append_nil] at this
    rw [show root (n + 1) (node ref keys (ds ++ [e]) len) = ref from rfl, countNodeRecursiveUnsafe,
      if_neg (by simp [hne])]
    simp only [refnode, hcount, hlast]
    simp only [bind, Except.bind] at hloop ⊢
    rw [hloop, hrec e (by simp), htl]
    simp [BitVec.ofNat_add]

end CategoryTree
end NetworkBfd.Smmr
