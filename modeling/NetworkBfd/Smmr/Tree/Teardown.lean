import NetworkBfd.Smmr.Tree.Ownership

/-!
# Teardown

`_free_tree_node_unsafe` visits the first four child slots of a node, whatever its count. Where these are the children
of the node and nothing else (`NodeInstance.Tidy`), the walk frees the blocks of the tree, each once
(`freeTreeNodeUnsafe_tidy`), and `free_tree_unsafe` leaves no block live (`run_tornDown`). A full inner node keeps its
fifth child, and an offset left behind in a slot past the count is freed as if it were a child (`free_incomplete`).
-/

namespace NetworkBfd.Smmr

open Lib KeyTree CategoryTree

namespace NodeInstance

/-- There is no fifth child. -/
def NoFifth (nd : NodeInstance) : Prop := nd.count = 4 → (nd.child 4).isEmpty = true

/-- The slots past the count, up to the fourth, are empty. -/
def Cleared (nd : NodeInstance) : Prop := ∀ i < treeNodecount, nd.count < i → (nd.child i).isEmpty = true

/-- The first four slots are the children. -/
structure Tidy (nd : NodeInstance) : Prop where
  noFifth : nd.NoFifth
  cleared : nd.Cleared

/-- The offsets in the slots past the count, up to the fourth. -/
def leftover (nd : NodeInstance) : List NodeInstanceOffset :=
  (List.range' (nd.count + 1) (treeNodecount - (nd.count + 1))).map nd.child

/-- The first four slots are the first four children and what is left behind them. -/
theorem slots_eq (nd : NodeInstance) :
    (List.range treeNodecount).map nd.child = nd.childList.take treeNodecount ++ nd.leftover := by
  rw [childList, leftover, ← List.map_take, ← List.map_append, List.take_range]
  congr 1
  rcases Nat.le_total treeNodecount (nd.count + 1) with h | h
  · rw [Nat.min_eq_left h, Nat.sub_eq_zero_of_le h, List.range'_zero, List.append_nil]
  · rw [Nat.min_eq_right h, List.range_eq_range', List.range_eq_range']
    have := @List.range'_append_1 0 (nd.count + 1) (treeNodecount - (nd.count + 1))
    rw [Nat.zero_add, Nat.add_sub_cancel' h] at this
    exact this.symm

theorem Cleared.leftover {nd : NodeInstance} (h : nd.Cleared) : ∀ r ∈ nd.leftover, r.isEmpty = true := by
  intro r hr
  obtain ⟨i, hi, rfl⟩ := List.mem_map.mp hr
  rw [List.mem_range'_1] at hi
  exact h i (by omega) (by omega)

instance (nd : NodeInstance) : Decidable nd.NoFifth := inferInstanceAs (Decidable (_ → _))

instance (nd : NodeInstance) : Decidable nd.Cleared := inferInstanceAs (Decidable (∀ i < treeNodecount, _))

instance (nd : NodeInstance) : Decidable nd.Tidy :=
  decidable_of_iff (nd.NoFifth ∧ nd.Cleared) ⟨fun h => ⟨h.1, h.2⟩, fun h => ⟨h.noFifth, h.cleared⟩⟩

end NodeInstance

namespace CategoryTree

variable {st st' st'' : CategoryTree × List Nat}

/-- The blocks `bs` went to `SHMFREE`, in some order. -/
structure HandedBack (bs : List Nat) (st st' : CategoryTree × List Nat) : Prop where
  mem : st'.1.mem = st.1.mem
  live : st'.1.live = st.1.live \ bs.toFinset
  log : ∃ gone, st'.2 = st.2 ++ gone ∧ gone.Perm bs

theorem HandedBack.refl (st : CategoryTree × List Nat) : HandedBack [] st st :=
  ⟨rfl, by simp, [], by simp, List.Perm.refl _⟩

theorem HandedBack.trans {bs bs' : List Nat} (h : HandedBack bs st st') (h' : HandedBack bs' st' st'') :
    HandedBack (bs ++ bs') st st'' := by
  obtain ⟨gone, hlog, hperm⟩ := h.log
  obtain ⟨gone', hlog', hperm'⟩ := h'.log
  refine ⟨h'.mem.trans h.mem, ?_, gone ++ gone', by rw [hlog', hlog, List.append_assoc], hperm.append hperm'⟩
  rw [h'.live, h.live, List.toFinset_append, sdiff_sdiff_left]
  rfl

/-- `SHMFREE` does not write to blocks. -/
theorem freeTreeNodeUnsafe_mem : ∀ (fuel : Nat) (st : CategoryTree × List Nat) (nodei : NodeInstanceOffset),
    Yields (fun _ => True) (freeTreeNodeUnsafe fuel st nodei) fun st' => st'.1.mem = st.1.mem
  | 0, _, _ => trivial
  | fuel + 1, st, nodei => by
    rw [freeTreeNodeUnsafe]
    split
    · rfl
    · refine Yields.bind (P := fun st' => st'.1.mem = st.1.mem) ?_ ?_
      · refine Yields.foldlM (I := fun _ st' => st'.1.mem = st.1.mem) (fun _ n st' hm => ?_) _ [] st rfl
        exact (freeTreeNodeUnsafe_mem fuel st' _).mono fun _ hm' => hm'.trans hm
      · rintro ⟨s, freed⟩ hm
        exact hm

/-- A walk over slots is a walk over the offsets that they hold before it. -/
theorem foldlM_slots (fuel : Nat) (nodei : NodeInstanceOffset) : ∀ (slots : List Nat) (st : CategoryTree × List Nat),
    slots.foldlM (fun st n => freeTreeNodeUnsafe fuel st ((st.1.refnode nodei).child n)) st =
      (slots.map (st.1.refnode nodei).child).foldlM (freeTreeNodeUnsafe fuel) st
  | [], _ => rfl
  | n :: slots, st => by
    rw [List.map_cons, List.foldlM_cons, List.foldlM_cons]
    refine (freeTreeNodeUnsafe_mem fuel st _).bind_congr fun st' hm => ?_
    rw [foldlM_slots fuel nodei slots st', refnode, hm]
    rfl

/-- A node is freed after its first four children and what is left behind them. -/
theorem freeTreeNodeUnsafe_succ (fuel : Nat) (st : CategoryTree × List Nat) {nodei : NodeInstanceOffset}
    (hne : nodei.isEmpty = false) : freeTreeNodeUnsafe (fuel + 1) st nodei =
      ((st.1.refnode nodei).childList.take treeNodecount ++ (st.1.refnode nodei).leftover).foldlM
        (freeTreeNodeUnsafe fuel) st >>= fun st' => .ok (st'.1.shmfree nodei, st'.2 ++ [nodei.addr]) := by
  rw [freeTreeNodeUnsafe, if_neg (by simp [hne]), foldlM_slots, NodeInstance.slots_eq]

/-- Empty offsets. -/
theorem foldlM_empty (fuel : Nat) (st : CategoryTree × List Nat) : ∀ (refs : List NodeInstanceOffset),
    (∀ r ∈ refs, r.isEmpty = true) → refs.foldlM (freeTreeNodeUnsafe (fuel + 1)) st = .ok st
  | [], _ => rfl
  | r :: refs, h => by
    rw [List.foldlM_cons, freeTreeNodeUnsafe, if_pos (h r List.mem_cons_self)]
    exact foldlM_empty fuel st refs fun r hr => h r (List.mem_cons_of_mem _ hr)

/-- Trees one after another. -/
theorem foldlM_handedBack {n fuel : Nat} : ∀ (cs : List (KeyTree n)) (st : CategoryTree × List Nat),
    (∀ c ∈ cs, ∀ st' : CategoryTree × List Nat, st'.1.mem = st.1.mem →
      ∃ st'', freeTreeNodeUnsafe fuel st' (root n c) = .ok st'' ∧ HandedBack (blocks n c) st' st'') →
    ∃ st', (cs.map (root n)).foldlM (freeTreeNodeUnsafe fuel) st = .ok st' ∧ HandedBack (cs.flatMap (blocks n)) st st'
  | [], st, _ => ⟨st, rfl, HandedBack.refl st⟩
  | c :: cs, st, h => by
    obtain ⟨st₁, hrun, hc⟩ := h c List.mem_cons_self st rfl
    obtain ⟨st₂, hrun', hcs⟩ := foldlM_handedBack cs st₁ fun d hd st' hm =>
      h d (List.mem_cons_of_mem _ hd) st' (hm.trans hc.mem)
    refine ⟨st₂, ?_, hc.trans hcs⟩
    rw [List.map_cons, List.foldlM_cons, hrun]
    exact hrun'

/-- Where the first four slots are the children, the walk frees the blocks of the tree, each once. -/
theorem freeTreeNodeUnsafe_tidy : ∀ {n lo : Nat} {t : KeyTree n} (fuel : Nat) (st : CategoryTree × List Nat), n < fuel →
    Rep st.1.mem n t → MTree.Filled treeNodemin treeNodecount lo n t → (∀ a ∈ blocks n t, (st.1.mem a).Tidy) →
    ∃ st', freeTreeNodeUnsafe fuel st (root n t) = .ok st' ∧ HandedBack (blocks n t) st st'
  | 0, _, _, fuel + 1, st, _, _, _, _ => ⟨st, rfl, HandedBack.refl st⟩
  | n + 1, _, ⟨ref, keys, childs, len⟩, fuel + 1, st, hfuel, h, ⟨_, hmax, hfill⟩, htidy => by
    obtain ⟨hne, hk, hr, hrep⟩ := rep_node.mp h
    rw [blocks_node] at htidy ⊢
    have hbelow : ∀ c ∈ childs, ∀ a ∈ blocks n c, a ∈ ref.addr :: childs.flatMap (blocks n) := fun c hc a ha =>
      List.mem_cons_of_mem _ (List.mem_flatMap.mpr ⟨c, hc, ha⟩)
    obtain ⟨hfifth, hcleared⟩ := htidy ref.addr List.mem_cons_self
    -- a fifth child is a tree without nodes
    have hall : (childs.take treeNodecount).flatMap (blocks n) = childs.flatMap (blocks n) := by
      rcases Nat.lt_or_ge treeNodecount childs.length with hlt | hle
      · have hfull : (st.1.mem ref.addr).count = 4 := by
          rw [← NodeInstance.length_keyList, hk]
          simp only [treeNodecount] at hmax hlt
          omega
        have hlast := hfifth hfull
        rw [NodeInstance.child_eq hr (by simpa using hlt), List.getElem_map,
          (hrep _ (List.getElem_mem _)).isEmpty_root] at hlast
        obtain rfl : n = 0 := of_decide_eq_true hlast
        have hnone : ∀ l : List (KeyTree 0), l.flatMap (blocks 0) = [] := fun l =>
          List.flatMap_eq_nil_iff.mpr fun c _ => blocks_zero c
        rw [hnone, hnone]
      · rw [List.take_of_length_le hle]
    have hfirst : ∃ st', ((childs.take treeNodecount).map (root n)).foldlM (freeTreeNodeUnsafe fuel) st = .ok st' ∧
        HandedBack ((childs.take treeNodecount).flatMap (blocks n)) st st' := by
      refine foldlM_handedBack _ st fun c hc st' hm => ?_
      have hc' := List.mem_of_mem_take hc
      refine freeTreeNodeUnsafe_tidy fuel st' (by omega) ?_ (hfill c hc') ?_
      · rw [hm]
        exact hrep c hc'
      · rw [hm]
        exact fun a ha => htidy a (hbelow c hc' a ha)
    obtain ⟨st', hrun, hfreed⟩ := hfirst
    obtain ⟨fuel, rfl⟩ : ∃ f, fuel = f + 1 := ⟨fuel - 1, by omega⟩
    rw [hall] at hfreed
    have hroot : root (n + 1) (node ref keys childs len) = ref := rfl
    rw [hroot, freeTreeNodeUnsafe_succ _ _ hne, refnode, hr, ← List.map_take, List.foldlM_append, hrun]
    refine ⟨_, congrArg (· >>= _) (foldlM_empty fuel st' _ hcleared.leftover), hfreed.mem, ?_, ?_⟩
    · rw [List.toFinset_cons, Finset.sdiff_insert, ← hfreed.live]
      rfl
    · obtain ⟨gone, hlog, hperm⟩ := hfreed.log
      refine ⟨gone ++ [ref.addr], by rw [hlog, List.append_assoc], ?_⟩
      exact (List.perm_append_comm).trans (hperm.cons ref.addr)

/-! ## Counting the offsets -/

/-- The offsets of a list that are not empty. -/
def offsets (refs : List NodeInstanceOffset) : Nat := refs.countP fun r => !r.isEmpty

/-- A walk frees one block for each offset that it reads, the first one included. -/
theorem freeTreeNodeUnsafe_length : ∀ (fuel : Nat) (st : CategoryTree × List Nat) (nodei : NodeInstanceOffset),
    Yields (fun _ => True) (freeTreeNodeUnsafe fuel st nodei) fun st' => ∃ gone, st'.2 = st.2 ++ gone ∧
      gone.length = offsets [nodei] + (gone.map fun a =>
        offsets ((st.1.mem a).childList.take treeNodecount ++ (st.1.mem a).leftover)).sum
  | 0, _, _ => trivial
  | fuel + 1, st, nodei => by
    cases hne : nodei.isEmpty with
    | true =>
      rw [freeTreeNodeUnsafe, if_pos hne]
      exact ⟨[], by simp, by simp [offsets, hne]⟩
    | false =>
      rw [freeTreeNodeUnsafe_succ _ _ hne]
      refine Yields.bind (Yields.foldlM (I := fun done st' => st'.1.mem = st.1.mem ∧ ∃ gone, st'.2 = st.2 ++ gone ∧
        gone.length = offsets done + (gone.map fun a =>
          offsets ((st.1.mem a).childList.take treeNodecount ++ (st.1.mem a).leftover)).sum) ?_ _ [] st
        ⟨rfl, [], by simp, by simp [offsets]⟩) ?_
      · rintro done r st' ⟨hm, gone, hlog, hlen⟩
        rcases (freeTreeNodeUnsafe_length fuel st' r).cases with ⟨st'', hrun, gone', hlog', hlen'⟩ | ⟨e, hrun, -⟩
        · have hm' := freeTreeNodeUnsafe_mem fuel st' r
          rw [hrun] at hm' ⊢
          refine ⟨hm'.trans hm, gone ++ gone', by rw [hlog', hlog, List.append_assoc], ?_⟩
          rw [hm] at hlen'
          rw [List.length_append, List.map_append, List.sum_append, hlen, hlen', offsets, offsets, offsets,
            List.countP_append]
          omega
        · rw [hrun]
          trivial
      · rintro st' ⟨-, gone, hlog, hlen⟩
        refine ⟨gone ++ [nodei.addr], by rw [hlog, List.append_assoc], ?_⟩
        rw [List.nil_append] at hlen
        rw [List.length_append, List.map_append, List.sum_append, hlen]
        simp only [offsets, hne, refnode, List.length_singleton, List.map_singleton, List.sum_singleton,
          List.countP_singleton, Bool.not_false, if_true]
        omega

/-- A tree has one block for each offset that its nodes count, the first one included. -/
theorem length_blocks_eq {mem : Nat → NodeInstance} : ∀ {n : Nat} {t : KeyTree n}, Rep mem n t → (blocks n t).length =
    offsets [root n t] + ((blocks n t).map fun a => offsets (mem a).childList).sum
  | 0, _, _ => rfl
  | n + 1, ⟨ref, keys, childs, len⟩, h => by
    obtain ⟨hne, -, hr, hrep⟩ := rep_node.mp h
    have hbelow : ∀ cs : List (KeyTree n), (∀ c ∈ cs, c ∈ childs) → (cs.flatMap (blocks n)).length =
        offsets (cs.map (root n)) + ((cs.flatMap (blocks n)).map fun a => offsets (mem a).childList).sum := by
      intro cs hcs
      induction cs with
      | nil => rfl
      | cons c cs ih =>
        have hc := length_blocks_eq (hrep c (hcs c List.mem_cons_self))
        have hrest := ih fun d hd => hcs d (List.mem_cons_of_mem _ hd)
        simp only [offsets, List.countP_singleton] at hc hrest ⊢
        rw [List.flatMap_cons, List.length_append, List.map_append, List.sum_append, List.map_cons,
          List.countP_cons, hc, hrest]
        omega
    have hroot : root (n + 1) (node ref keys childs len) = ref := rfl
    rw [blocks_node, hroot, List.length_cons, List.map_cons, List.sum_cons, hr, hbelow childs fun _ hc => hc]
    simp only [offsets, List.countP_singleton, hne, Bool.not_false, if_true]
    omega

/-- The offsets left behind the children of the nodes are as many as the fifth children, if the walk frees the blocks of
the tree. -/
theorem offsets_balance {s : CategoryTree} {n fuel : Nat} {t : KeyTree n} {s' : CategoryTree} {gone : List Nat}
    (h : s.Holds n t) (hrun : freeTreeNodeUnsafe fuel (s, []) s.rooti = .ok (s', gone))
    (hperm : gone.Perm (blocks n t)) :
    ((blocks n t).map fun a => offsets (s.mem a).leftover).sum =
      ((blocks n t).map fun a => offsets ((s.mem a).childList.drop treeNodecount)).sum := by
  have hwalk := freeTreeNodeUnsafe_length fuel (s, []) s.rooti
  rw [hrun] at hwalk
  obtain ⟨gone', hlog, hlen⟩ := hwalk
  obtain rfl : gone = gone' := hlog
  have htree := length_blocks_eq h.owned.rep
  rw [hperm.length_eq, (hperm.map _).sum_eq, h.rooti] at hlen
  dsimp only at hlen
  have hsplit : ∀ nd : NodeInstance, offsets (nd.childList.take treeNodecount ++ nd.leftover) +
      offsets (nd.childList.drop treeNodecount) = offsets nd.childList + offsets nd.leftover := by
    intro nd
    have : offsets nd.childList = _ := congrArg offsets (List.take_append_drop treeNodecount nd.childList).symm
    rw [this, offsets, offsets, offsets, offsets, List.countP_append, List.countP_append]
    omega
  have hsum : ∀ bs : List Nat,
    (bs.map fun a => offsets ((s.mem a).childList.take treeNodecount ++ (s.mem a).leftover)).sum +
      (bs.map fun a => offsets ((s.mem a).childList.drop treeNodecount)).sum =
      (bs.map fun a => offsets (s.mem a).childList).sum + (bs.map fun a => offsets (s.mem a).leftover).sum := by
    intro bs
    rw [← List.sum_map_add, ← List.sum_map_add]
    exact congrArg List.sum (List.map_congr_left fun a _ => hsplit (s.mem a))
  have := hsum (blocks n t)
  omega

end CategoryTree

namespace TreeInstance

/-- In every node block the first four slots are the children. -/
def Tidy (inst : TreeInstance) : Prop := ∀ c, ∀ a ∈ (inst c).live, ((inst c).mem a).Tidy

instance (inst : TreeInstance) : Decidable inst.Tidy := inferInstanceAs (Decidable (∀ c, ∀ a ∈ (inst c).live, _))

/-- `free_tree_unsafe` returns, every block of a tree went to `SHMFREE` once and no other did, and none is live. -/
def TornDown (inst : TreeInstance) : Prop :=
  ∃ fuel inst' freed, inst.freeTreeUnsafe fuel = .ok (.ok, inst', freed) ∧
    ∀ c, (∃ (n : Nat) (t : KeyTree n), (inst c).Holds n t ∧ (freed c).Perm (blocks n t)) ∧ (inst' c).live = ∅

/-- The categories are torn down one after another, each on its own. -/
theorem foldlM_categories {fuel : Nat} : ∀ (cs : List (Fin categoryCnt))
    (st st' : TreeInstance × (Fin categoryCnt → List Nat)), cs.Nodup → (cs.foldlM (fun st n => do
        let (s, log) ← freeTreeNodeUnsafe fuel (st.1 n, []) (st.1 n).rooti
        .ok (Function.update st.1 n s, Function.update st.2 n log)) st = .ok st' ↔
      (∀ c ∈ cs, freeTreeNodeUnsafe fuel (st.1 c, []) (st.1 c).rooti = .ok (st'.1 c, st'.2 c)) ∧
        ∀ c, c ∉ cs → st'.1 c = st.1 c ∧ st'.2 c = st.2 c)
  | [], st, st', _ => by
    simp only [List.foldlM_nil, pure, Except.pure, Except.ok.injEq, List.not_mem_nil, false_implies, implies_true,
      true_and, not_false_eq_true, forall_const]
    constructor
    · rintro rfl c
      exact ⟨rfl, rfl⟩
    · intro h
      exact Prod.ext (funext fun c => (h c).1.symm) (funext fun c => (h c).2.symm)
  | c :: cs, st, st', hnodup => by
    obtain ⟨hc, hcs⟩ := List.nodup_cons.mp hnodup
    rw [List.foldlM_cons]
    constructor
    · intro h
      obtain ⟨_, h₁, h₂⟩ := bind_eq_ok.mp h
      obtain ⟨⟨s, log⟩, hrun, h₁⟩ := bind_eq_ok.mp h₁
      cases h₁
      obtain ⟨hin, hout⟩ := (foldlM_categories cs _ _ hcs).mp h₂
      obtain ⟨hs, hlog⟩ := hout c hc
      simp only [Function.update_self] at hs hlog
      refine ⟨fun d hd => ?_, fun d hd => ?_⟩
      · rcases List.mem_cons.mp hd with rfl | hd
        · rw [hrun, hs, hlog]
        · have hne : d ≠ c := fun e => hc (e ▸ hd)
          have := hin d hd
          simp only [Function.update_of_ne hne] at this
          exact this
      · obtain ⟨hne, hd⟩ := not_or.mp fun h => hd (List.mem_cons.mpr h)
        have := hout d hd
        simp only [Function.update_of_ne hne] at this
        exact this
    · rintro ⟨hin, hout⟩
      refine bind_eq_ok.mpr ⟨_, bind_eq_ok.mpr ⟨_, hin c List.mem_cons_self, rfl⟩, ?_⟩
      refine (foldlM_categories cs _ _ hcs).mpr ⟨fun d hd => ?_, fun d hd => ?_⟩
      · have hne : d ≠ c := fun e => hc (e ▸ hd)
        simp only [Function.update_of_ne hne]
        exact hin d (List.mem_cons_of_mem _ hd)
      · rcases eq_or_ne d c with rfl | hne
        · simp only [Function.update_self, and_self]
        · simp only [Function.update_of_ne hne]
          exact hout d fun h => (List.mem_cons.mp h).elim hne hd

theorem freeTreeUnsafe_eq_ok {fuel : Nat} {inst inst' : TreeInstance} {freed : Fin categoryCnt → List Nat} :
    inst.freeTreeUnsafe fuel = .ok (.ok, inst', freed) ↔
      ∀ c, freeTreeNodeUnsafe fuel (inst c, []) (inst c).rooti = .ok (inst' c, freed c) := by
  have hfold := @foldlM_categories fuel (List.finRange categoryCnt) (inst, fun _ => []) (inst', freed)
    (List.nodup_finRange _)
  simp only [List.mem_finRange, forall_const, not_true_eq_false, false_implies, and_true] at hfold
  rw [← hfold, freeTreeUnsafe]
  constructor
  · intro h
    obtain ⟨⟨_, _⟩, h₁, h₂⟩ := bind_eq_ok.mp h
    cases h₂
    exact h₁
  · intro h
    exact bind_eq_ok.mpr ⟨_, h, rfl⟩

/-- Offsets left behind the children of a node, and fifth children. -/
def untidy (s : CategoryTree) : Nat × Nat :=
  (∑ a ∈ s.live, offsets (s.mem a).leftover, ∑ a ∈ s.live, offsets ((s.mem a).childList.drop treeNodecount))

/-- Where the walks free the blocks of the trees, these are as many. -/
theorem TornDown.balance {inst : TreeInstance} (hexact : ∀ c, (inst c).Exact) (h : inst.TornDown)
    (c : Fin categoryCnt) :
    (untidy (inst c)).1 = (untidy (inst c)).2 := by
  obtain ⟨fuel, inst', freed, hfree, hleft⟩ := h
  obtain ⟨⟨n, t, ht, hperm⟩, -⟩ := hleft c
  obtain ⟨n₀, t₀, ht₀, hlive⟩ := hexact c
  have hblocks : (inst c).live = (blocks n t).toFinset := by
    ext a
    rw [hlive, List.mem_toFinset, List.mem_toFinset, mem_blocks_iff ht.owned.rep, mem_blocks_iff ht₀.owned.rep,
      ← ht.rooti, ← ht₀.rooti]
  have hbalance := offsets_balance ht (freeTreeUnsafe_eq_ok.mp hfree c) hperm
  rw [untidy, hblocks, List.sum_toFinset _ ht.owned.nodup, List.sum_toFinset _ ht.owned.nodup]
  exact hbalance

/-- After any calls of `add_tree_safe` and `remove_tree_safe`, `free_tree_unsafe` frees every node block once and
nothing else, provided that in every node the first four slots are the children. If it does, then in each category as
many offsets are left behind the children as there are fifth children. -/
theorem run_tornDown (inst : TreeInstance) (ops : List TreeOp)
    (hempty : ∀ c, (inst c).rooti = default ∧ (inst c).live = ∅)
    (hblocks : BlocksOnly inst) (halloc : inst.run ops ≠ .error .contract) :
    ∃ inst', inst.run ops = .ok inst' ∧ (inst'.Tidy → inst'.TornDown) ∧
      (inst'.TornDown → ∀ c, (untidy (inst' c)).1 = (untidy (inst' c)).2) := by
  rcases (run_exact ops (fun c => ⟨0, KeyTree.nil, holds_nil (hempty c).1, (hempty c).2⟩) hblocks).cases with
    ⟨inst', hrun, hexact, -⟩ | ⟨e, hrun, rfl⟩
  · refine ⟨inst', hrun, fun htidy => ?_, fun h => h.balance hexact⟩
    choose n t ht hlive using hexact
    obtain ⟨m, hm⟩ : ∃ m, ∀ c, n c ≤ m := ⟨Finset.univ.sup n, fun c => Finset.le_sup (Finset.mem_univ c)⟩
    have hwalk : ∀ c, ∃ st', freeTreeNodeUnsafe (m + 1) (inst' c, []) (inst' c).rooti = .ok st' ∧
        HandedBack (blocks (n c) (t c)) (inst' c, []) st' := by
      intro c
      rw [(ht c).rooti]
      exact freeTreeNodeUnsafe_tidy _ _ (Nat.lt_succ_of_le (hm c)) (ht c).owned.rep (ht c).filled fun a ha =>
        htidy c a ((ht c).owned.live a ha)
    choose st hst hfreed using hwalk
    refine ⟨_, fun c => (st c).1, fun c => (st c).2, freeTreeUnsafe_eq_ok.mpr hst, fun c => ⟨⟨n c, t c, ht c, ?_⟩, ?_⟩⟩
    · obtain ⟨gone, hlog, hperm⟩ := (hfreed c).log
      change (st c).2.Perm _
      rw [hlog]
      exact hperm
    · rw [(hfreed c).live]
      exact Finset.sdiff_eq_empty_iff_subset.mpr (hlive c).subset
  · exact absurd hrun halloc

/-- Trees without nodes, with six blocks each to come. -/
def sixBlocks : TreeInstance := fun _ =>
  ⟨fun _ => default, ∅, [.block ⟨0, 1, 168⟩ default, .block ⟨0, 1, 296⟩ default, .block ⟨0, 1, 424⟩ default,
    .block ⟨0, 1, 552⟩ default, .block ⟨0, 1, 680⟩ default, .block ⟨0, 1, 808⟩ default], default, default, default,
    false, false, false⟩

/-- Entries in ascending order, with one hash. -/
def ascending (k : Nat) : List TreeOp := (List.range k).map fun i => .add ⟨4, 1, BitVec.ofNat 24 (i + 1)⟩

theorem run_sixBlocks {ops : List TreeOp} {inst' : TreeInstance} (hrun : sixBlocks.run ops = .ok inst') :
    ∀ c, (inst' c).Exact := by
  have hexact := run_exact ops (fun c => ⟨0, KeyTree.nil, holds_nil (s := sixBlocks c) rfl, rfl⟩)
    (by simp [BlocksOnly, sixBlocks, ShmAnswer.isBlock])
  rw [hrun] at hexact
  exact hexact.1

/-- A root with three children. -/
theorem run_tornDown_eight : ∃ inst', sixBlocks.run (ascending 8) = .ok inst' ∧ inst'.TornDown := by
  have htidy : (sixBlocks.run (ascending 8)).map (fun inst => decide inst.Tidy) = .ok true := by decide +kernel
  obtain ⟨inst', hrun, htorn, -⟩ := run_tornDown sixBlocks (ascending 8) (fun c => ⟨rfl, rfl⟩)
    (by simp [BlocksOnly, sixBlocks, ShmAnswer.isBlock]) fun herr => by
      rw [herr] at htidy
      cases htidy
  rw [hrun] at htidy
  exact ⟨inst', hrun, htorn (of_decide_eq_true (Except.ok.inj htidy))⟩

/-- A root with five children keeps the fifth; and where two of three children were combined, what is left in the third
slot is freed again. -/
theorem free_incomplete : (∃ inst', sixBlocks.run (ascending 14) = .ok inst' ∧ ¬ inst'.TornDown) ∧
    ∃ inst', sixBlocks.run (ascending 8 ++ [.remove ⟨4, 1, 1⟩]) = .ok inst' ∧ ¬ inst'.TornDown := by
  have hcount : ∀ (ops : List TreeOp) (b : Nat × Nat), (sixBlocks.run ops).map (fun inst => untidy (inst 0)) = .ok b →
      b.1 ≠ b.2 → ∃ inst', sixBlocks.run ops = .ok inst' ∧ ¬ inst'.TornDown := by
    intro ops b hb hne
    cases hrun : sixBlocks.run ops with
    | error e =>
      rw [hrun] at hb
      cases hb
    | ok inst' =>
      rw [hrun] at hb
      refine ⟨inst', rfl, fun htorn => hne ?_⟩
      rw [← Except.ok.inj hb]
      exact htorn.balance (run_sixBlocks hrun) 0
  exact ⟨hcount _ (0, 1) (by decide +kernel) (by decide), hcount _ (1, 0) (by decide +kernel) (by decide)⟩

end TreeInstance
end NetworkBfd.Smmr
