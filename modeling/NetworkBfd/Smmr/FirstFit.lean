import NetworkBfd.Smmr.SpaceRuns

/-!
# Where an insertion puts its item

`insertToDatafileAtFreepage_exact`: the search for free pages goes through the files in rotation and takes the first run
of the first file that has one. `addressed_iff`: what the result says about the place, in the 24 bits that it has for
the offset.
-/

namespace NetworkBfd.Smmr

open Lib Lib.Bytes

/-- The mapped files whose rounds are run, in their order. -/
def tried (round : Nat → Bytes → Item → Option Placement × Bytes) (it : Item) : List Nat → Datafiles → List Nat
  | [], _ => []
  | n :: ns, files =>
    match files n with
    | none => tried round it ns files
    | some f =>
      match round n f it with
      | (some _, _) => [n]
      | (none, f) => n :: tried round it ns (Function.update files n (some f))

/-- File `k` claims more than `it` needs and has a run of free pages for it. -/
def Fits (files : Datafiles) (it : Item) (k : Nat) : Prop :=
  ∃ f, files k = some f ∧ it.aligned < remainLength f ∧
    ∃ q, 1 ≤ q ∧ q + it.pages ≤ ipcDatafilePagecnt ∧ FreeRun (taken f) q it.pages

/-- A single file that was just made. -/
def oneFile : Datafiles := fun k => if k = 0 then some initDatafile else none

section FirstFit

variable {b : Build} {files files' : Datafiles} {it : Item}

theorem tried_sublist {round : Nat → Bytes → Item → Option Placement × Bytes} : ∀ (ns : List Nat) (files : Datafiles),
    (tried round it ns files).Sublist ns
  | [], _ => List.Sublist.refl _
  | n :: ns, files => by
    rw [tried]
    split
    · exact (tried_sublist ns files).cons n
    · split
      · exact List.Sublist.cons_cons n (List.nil_sublist ns)
      · exact (tried_sublist ns _).cons_cons n

/-- An item of at least one page is one whose length in whole pages does not wrap. -/
theorem short_iff : it.Short ↔ it.key.length + it.val.length + sizeofDataitm < 2 ^ 32 ∧ 1 ≤ it.pages := by
  constructor
  · intro hs
    refine ⟨Nat.lt_of_le_of_lt hs (by decide), hs.aligned_eq.2.2.2⟩
  · rintro ⟨hlen, hpages⟩
    by_contra hn
    -- the length is rounded up to 2^32
    have hl : it.length = it.key.length + it.val.length + sizeofDataitm := by
      simp only [Item.length, itemLength, sizeofDataitm] at hlen ⊢
      omega
    unfold Item.Short at hn
    rw [Item.pages, Item.aligned, alignedSize, hl] at hpages
    simp only [sizeofDataitm, ipcDatafileAligned] at hlen hn hpages
    split at hpages <;> omega

/-- A file fits if the search finds a run in it. -/
theorem fits_iff {k : Nat} {f : Bytes} (hf : files k = some f) (hroom : it.aligned < remainLength f) :
    Fits files it k ↔ ¬ IsFirstRun (taken f) it.pages (ipcDatafilePagecnt - 1) none := by
  constructor
  · rintro ⟨g, hg, -, q, h1, h2, h3⟩ hnone
    obtain rfl := Option.some.inj (hf.symm.trans hg)
    exact hnone q h1 h2 h3
  · intro hsome
    unfold IsFirstRun at hsome
    push Not at hsome
    obtain ⟨q, h1, h2, h3⟩ := hsome
    exact ⟨f, hf, hroom, q, h1, h2, h3⟩

theorem FirstFit.fits {k page : Nat} (h : FirstFit b files it k page) : k < ipcDatafileMax b ∧ Fits files it k := by
  obtain ⟨-, -, f, -, hf, -⟩ := id h
  obtain ⟨hk, hroom, hsome⟩ := h.not_none hf
  exact ⟨hk, (fits_iff hf hroom).mpr hsome⟩

theorem mem_rotation (b : Build) (it : Item) : ∀ n < ipcDatafileMax b,
    (distid b it)[n]? = some (((safeHash it.key).toNat % ipcDatafileMax b + n) % ipcDatafileMax b) := by
  intro n hn
  simp [distid, hn]

/-- The item goes to some file exactly if there is one that fits. -/
theorem insertToDatafileAtFreepage_isSome (hs : it.Short) :
    (insertToDatafileAtFreepage b it files).1.isSome = true ↔ ∃ k < ipcDatafileMax b, Fits files it k := by
  constructor
  · intro hsome
    obtain ⟨p, hp⟩ := Option.isSome_iff_exists.mp hsome
    obtain ⟨page, -, hfit⟩ := insertToDatafileAtFreepage_firstFit hs (Prod.ext hp rfl :
      insertToDatafileAtFreepage b it files = (some p, (insertToDatafileAtFreepage b it files).2))
    exact ⟨p.field, hfit.fits⟩
  · rintro ⟨k, hk, hfits⟩
    rcases insertToDatafileAtFreepage_spec b files hs with ⟨k', page, writes, files', hrun, -⟩ | ⟨files', -, -, -, hwhy⟩
    · rw [hrun]
      rfl
    · obtain ⟨f, hf, hroom, -⟩ := id hfits
      rcases hwhy k f hk hf with ⟨-, hle⟩ | ⟨-, hnone⟩
      · exact absurd hroom (Nat.not_lt.mpr hle)
      · exact absurd hnone ((fits_iff hf hroom).mp hfits)

/-- The search for free pages tries each file at most once, in the rotation that begins at the hash of the key. It
succeeds if there is a file that fits, and takes the first run of the first such file, and no other page. -/
theorem insertToDatafileAtFreepage_exact (b : Build) (files : Datafiles) (it : Item)
    (hlen : it.key.length + it.val.length + sizeofDataitm < 2 ^ 32) (hpages : 1 ≤ it.aligned / ipcDatafileAligned) :
    (∀ n < ipcDatafileMax b,
      (distid b it)[n]? = some (((safeHash it.key).toNat % ipcDatafileMax b + n) % ipcDatafileMax b)) ∧
    (distid b it).Nodup ∧ (tried freepageRound it (distid b it) files).Sublist (distid b it) ∧
    ((insertToDatafileAtFreepage b it files).1.isSome = true ↔ ∃ k < ipcDatafileMax b, Fits files it k) ∧
    (∀ p files', insertToDatafileAtFreepage b it files = (some p, files') → ∃ page, p.offset = pageOffset page ∧
      FirstFit b files it p.field page ∧ ∀ j q, pageUsed files' j q =
        if j = p.field ∧ page ≤ q ∧ q < page + it.aligned / ipcDatafileAligned then true else pageUsed files j q) ∧
    ∀ files', insertToDatafileAtFreepage b it files = (none, files') → pageUsed files' = pageUsed files := by
  have hs : it.Short := short_iff.mpr ⟨hlen, hpages⟩
  refine ⟨mem_rotation b it, nodup_distid b it, tried_sublist _ _, insertToDatafileAtFreepage_isSome hs,
    fun p files' hrun => ?_, fun files' hrun => ?_⟩
  · obtain ⟨page, hpage, hfit⟩ := insertToDatafileAtFreepage_firstFit hs hrun
    refine ⟨page, hpage, hfit, fun j q => ?_⟩
    rcases insertToDatafileAtFreepage_spec b files hs with ⟨k, page', writes, g, hrun', hins, -⟩ | ⟨g, hrun', -⟩
    · obtain ⟨hp, rfl⟩ := Prod.mk.inj (hrun.symm.trans hrun')
      obtain rfl := Option.some.inj hp
      obtain rfl := pageOffset_injective hpage
      exact hins.used j q
    · cases (Prod.mk.inj (hrun.symm.trans hrun')).1
  · rcases insertToDatafileAtFreepage_spec b files hs with ⟨k, page', writes, g, hrun', -⟩ | ⟨g, hrun', huntouched, -⟩
    · cases (Prod.mk.inj (hrun.symm.trans hrun')).1
    · rw [(Prod.mk.inj (hrun.symm.trans hrun')).2]
      exact huntouched.used

/-- An item of one page and a single file that was just made. -/
theorem insertToDatafileAtFreepage_exact_small :
    (insertToDatafileAtFreepage .test Space.small oneFile).1.isSome = true ↔
      ∃ k < ipcDatafileMax .test, Fits oneFile Space.small k :=
  (insertToDatafileAtFreepage_exact .test oneFile Space.small (by decide) (by decide)).2.2.2.1

end FirstFit

/-! ## The place in the result -/

/-- `resultnode` says in which file and at which offset the header of the item was written. -/
def Placement.Addressed (p : Placement) (hashedid : BitVec 32) : Prop :=
  (p.resultnode hashedid).dataField.toNat = p.field ∧
    p.writes.head? = some ((p.resultnode hashedid).dataOffset.toNat, sizeofDataitm)

/-- File `k` is the first in the rotation that claims more than the item needs. -/
def FirstRoom (b : Build) (files : Datafiles) (it : Item) (k : Nat) (f : Bytes) : Prop :=
  ∃ before after, distid b it = before ++ k :: after ∧ files k = some f ∧ it.aligned < remainLength f ∧
    ∀ j ∈ before, ∀ g, files j = some g → remainLength g ≤ it.aligned

section Addressed

variable {b : Build} {files files' : Datafiles} {it : Item} {p : Placement}

/-- There is only one first element with a property. -/
theorem first_eq {P : Nat → Prop} {ns before after before' after' : List Nat} {k k' : Nat}
    (h : ns = before ++ k :: after) (h' : ns = before' ++ k' :: after') (hk : P k) (hk' : P k')
    (hbefore : ∀ j ∈ before, ¬ P j) (hbefore' : ∀ j ∈ before', ¬ P j) : k = k' := by
  classical
  have hfind : ns.find? (fun j => decide (P j)) = some k :=
    List.find?_eq_some_iff_append.mpr ⟨decide_eq_true hk, before, after, h, fun j hj => by simp [hbefore j hj]⟩
  have hfind' : ns.find? (fun j => decide (P j)) = some k' :=
    List.find?_eq_some_iff_append.mpr ⟨decide_eq_true hk', before', after', h', fun j hj => by simp [hbefore' j hj]⟩
  exact Option.some.inj (hfind.symm.trans hfind')

theorem FirstFit.unique {k k' page page' : Nat} (h : FirstFit b files it k page) (h' : FirstFit b files it k' page') :
    k = k' ∧ page = page' := by
  have hk := h.fits.2
  have hk' := h'.fits.2
  obtain ⟨before, after, f, hns, hf, -, hfirst, hbefore⟩ := h
  obtain ⟨before', after', f', hns', hf', -, hfirst', hbefore'⟩ := h'
  have hnot : ∀ j, (∀ g, files j = some g → it.aligned < remainLength g →
      IsFirstRun (taken g) it.pages (ipcDatafilePagecnt - 1) none) → ¬ Fits files it j := by
    rintro j hall ⟨g, hg, hroom, q, h1, h2, h3⟩
    exact hall g hg hroom q h1 h2 h3
  obtain rfl := first_eq hns hns' hk hk' (fun j hj => hnot j (hbefore j hj)) fun j hj => hnot j (hbefore' j hj)
  obtain rfl := Option.some.inj (hf.symm.trans hf')
  exact ⟨rfl, Option.some.inj (hfirst.unique hfirst')⟩

/-- A placement below `2 ^ 24` can be addressed, any other cannot. -/
theorem addressed_of_write {h : BitVec 32} {off : Nat} (hk : p.field < ipcDatafileMax b)
    (hoff : p.offset % 2 ^ 24 = off % 2 ^ 24) (hw : p.writes.head? = some (off, sizeofDataitm)) :
    p.Addressed h ↔ off < 2 ^ 24 := by
  have hnode : (p.resultnode h).dataOffset.toNat = off % 2 ^ 24 := by
    rw [← hoff]
    exact BitVec.toNat_ofNat ..
  rw [Placement.Addressed, hnode, hw]
  constructor
  · rintro ⟨-, he⟩
    rw [(Prod.mk.inj (Option.some.inj he)).1]
    exact Nat.mod_lt _ (by decide)
  · intro hlt
    rw [Nat.mod_eq_of_lt hlt]
    exact ⟨toNat_dataField hk, rfl⟩

/-- The first copy of a round writes the header. -/
theorem freepageRound_head {k : Nat} {f : Bytes} (h : (freepageRound k f it).1 = some p) :
    p.field = k ∧ p.writes.head? = some (p.offset, sizeofDataitm) := by
  unfold freepageRound at h
  split at h
  · cases h
  · dsimp only at h
    split at h
    · cases h
    · obtain rfl := Option.some.inj h
      exact ⟨rfl, rfl⟩

theorem appendRound_head {k : Nat} {f : Bytes} (h : (appendRound k f it).1 = some p) : it.aligned < remainLength f ∧
    p.field = k ∧ p.offset = usedLength f % 2 ^ 32 ∧ p.writes.head? = some (usedLength f, sizeofDataitm) := by
  unfold appendRound at h
  split at h
  · rename_i hroom
    obtain rfl := Option.some.inj h
    refine ⟨hroom, rfl, rfl, ?_⟩
    simp [copyItem]
  · cases h

theorem insertToDatafile_firstRoom (h : insertToDatafile b it files = (some p, files')) :
    ∃ f, FirstRoom b files it p.field f ∧ p.offset = usedLength f % 2 ^ 32 ∧
      p.writes.head? = some (usedLength f, sizeofDataitm) := by
  obtain ⟨before, k, after, f, hns, hf, hround, hbefore⟩ := tryFiles_first (nodup_distid b it) h
  obtain ⟨hroom, rfl, hoff, hw⟩ := appendRound_head hround
  refine ⟨f, ⟨before, after, hns, hf, hroom, fun j hj g hg => ?_⟩, hoff, hw⟩
  by_contra hn
  have hno := hbefore j hj g hg
  rw [appendRound, if_pos (Nat.lt_of_not_le hn)] at hno
  cases hno

theorem FirstRoom.unique {k k' : Nat} {f f' : Bytes} (h : FirstRoom b files it k f) (h' : FirstRoom b files it k' f') :
    k = k' ∧ f = f' := by
  obtain ⟨before, after, hns, hf, hroom, hbefore⟩ := h
  obtain ⟨before', after', hns', hf', hroom', hbefore'⟩ := h'
  have hnot : ∀ j, (∀ g, files j = some g → remainLength g ≤ it.aligned) →
      ¬ ∃ g, files j = some g ∧ it.aligned < remainLength g := by
    rintro j hall ⟨g, hg, hlt⟩
    exact absurd hlt (Nat.not_lt.mpr (hall g hg))
  obtain rfl := first_eq hns hns' (P := fun j => ∃ g, files j = some g ∧ it.aligned < remainLength g) ⟨f, hf, hroom⟩
    ⟨f', hf', hroom'⟩ (fun j hj => hnot j (hbefore j hj)) fun j hj => hnot j (hbefore' j hj)
  exact ⟨rfl, Option.some.inj (hf.symm.trans hf')⟩

theorem FirstRoom.field_lt {k : Nat} {f : Bytes} (h : FirstRoom b files it k f) : k < ipcDatafileMax b := by
  obtain ⟨before, after, hns, -⟩ := h
  refine (@mem_distid b it k).mp ?_
  rw [hns]
  exact List.mem_append_right _ (List.mem_cons_self ..)

/-- If a file has room, something is appended. -/
theorem FirstRoom.inserts {k : Nat} {f : Bytes} (h : FirstRoom b files it k f) :
    ∃ p files', insertToDatafile b it files = (some p, files') := by
  obtain ⟨r, files', hrun, -, hcase⟩ := @tryFiles_spec appendRound it (distid b it) files (nodup_distid b it)
  rcases hcase with ⟨n, g, p, g', -, -, -, rfl, -⟩ | ⟨-, hall⟩
  · exact ⟨p, files', hrun⟩
  · obtain ⟨-, -, -, hf, hroom, -⟩ := id h
    have hnone := (hall k (mem_distid.mpr h.field_lt)).2 f hf
    rw [appendRound, if_pos hroom] at hnone
    cases hnone

theorem insertToDatafileAtFreepage_head (h : insertToDatafileAtFreepage b it files = (some p, files')) :
    p.writes.head? = some (p.offset, sizeofDataitm) := by
  obtain ⟨-, k, -, f, -, -, hround, -⟩ := tryFiles_first (nodup_distid b it) h
  exact (freepageRound_head hround).2

theorem addressed_atFreepage_iff (hs : it.Short) (hashedid : BitVec 32) :
    (∀ p files', insertToDatafileAtFreepage b it files = (some p, files') → p.Addressed hashedid) ↔
      ∀ k page, FirstFit b files it k page → pageOffset page < 2 ^ 24 := by
  constructor
  · intro hall k page hfit
    have hsome := (insertToDatafileAtFreepage_isSome hs).mpr ⟨k, hfit.fits⟩
    obtain ⟨p, hp⟩ := Option.isSome_iff_exists.mp hsome
    have hrun : insertToDatafileAtFreepage b it files = (some p, (insertToDatafileAtFreepage b it files).2) :=
      Prod.ext hp rfl
    obtain ⟨page', hpage, hfit'⟩ := insertToDatafileAtFreepage_firstFit hs hrun
    obtain ⟨-, rfl⟩ := hfit.unique hfit'
    rw [← hpage]
    exact (addressed_of_write hfit'.fits.1 rfl (insertToDatafileAtFreepage_head hrun)).mp (hall p _ hrun)
  · intro hall p files' hrun
    obtain ⟨page, hpage, hfit⟩ := insertToDatafileAtFreepage_firstFit hs hrun
    refine (addressed_of_write hfit.fits.1 rfl (insertToDatafileAtFreepage_head hrun)).mpr ?_
    rw [hpage]
    exact hall p.field page hfit

theorem addressed_append_iff (hashedid : BitVec 32) :
    (∀ p files', insertToDatafile b it files = (some p, files') → p.Addressed hashedid) ↔
      ∀ k f, FirstRoom b files it k f → usedLength f < 2 ^ 24 := by
  constructor
  · intro hall k f hroom
    obtain ⟨p, files', hrun⟩ := hroom.inserts
    obtain ⟨f', hroom', hoff, hw⟩ := insertToDatafile_firstRoom hrun
    obtain ⟨-, rfl⟩ := hroom.unique hroom'
    refine (addressed_of_write hroom'.field_lt ?_ hw).mp (hall p files' hrun)
    omega
  · intro hall p files' hrun
    obtain ⟨f, hroom, hoff, hw⟩ := insertToDatafile_firstRoom hrun
    refine (addressed_of_write hroom.field_lt ?_ hw).mpr (hall p.field f hroom)
    omega

/-- The result says where the header of the item is exactly if the item is put below `2 ^ 24`: by the search for free
pages, where the first run of the first file that fits lies there, and behind the last item, where the first file that
claims enough is used up to there at most. -/
theorem addressed_iff (b : Build) (files : Datafiles) {it : Item} (hs : it.Short) (hashedid : BitVec 32) :
    ((∀ p files', insertToDatafileAtFreepage b it files = (some p, files') → p.Addressed hashedid) ↔
      ∀ k page, FirstFit b files it k page → pageOffset page < 2 ^ 24) ∧
    ((∀ p files', insertToDatafile b it files = (some p, files') → p.Addressed hashedid) ↔
      ∀ k f, FirstRoom b files it k f → usedLength f < 2 ^ 24) :=
  ⟨addressed_atFreepage_iff hs hashedid, addressed_append_iff hashedid⟩

/-- Of an item of one page and a single file that was just made. -/
theorem addressed_iff_small : (∀ p files', insertToDatafileAtFreepage .test Space.small oneFile = (some p, files') →
    p.Addressed (safeHash Space.small.key)) ↔
      ∀ k page, FirstFit .test oneFile Space.small k page → pageOffset page < 2 ^ 24 :=
  (addressed_iff .test oneFile (short_iff.mpr ⟨by decide, by decide⟩) _).1

/-- The seventeenth item of `2 ^ 20` bytes in a single file is not where its result says. -/
theorem seventeenth_misplaced : ¬ ∀ p files', insertToDatafileAtFreepage .test Space.big
    ((Space.fresh fun k => k == 0).run .test (List.replicate 16 (.insert Space.big))).files = (some p, files') →
      p.Addressed (safeHash Space.big.key) := by
  obtain ⟨hs, ha, hpages⟩ := Space.pages_of_length Space.length_big
  obtain ⟨honly, ⟨f, hf, htaken, hremain, -⟩, -, -⟩ := @Space.run_filled .test _ Space.length_big 16 _ _
    (Space.fresh_filled Space.big) (by decide)
  generalize (Space.fresh fun k => k == 0).run .test (List.replicate 16 (.insert Space.big)) = s at honly hf ⊢
  rw [addressed_atFreepage_iff hs]
  obtain ⟨before, after, hns⟩ := List.append_of_mem ((@mem_distid .test Space.big 0).mpr (by decide))
  have hnodup := nodup_distid .test Space.big
  have hfit : FirstFit .test s.files Space.big 0 (1 + 8192 * 16) := by
    refine ⟨before, after, f, hns, hf, by rw [ha, hremain]; decide,
      ⟨by decide, by rw [hpages]; decide, fun q h1 h2 => ?_,
      fun q h1 h2 hfree => ?_⟩, fun j hj g hg => ?_⟩
    · rw [htaken, decide_eq_false (by omega)]
    · have hq := hfree q (Nat.le_refl _) (by omega)
      rw [htaken, decide_eq_true (by omega)] at hq
      cases hq
    · have hj0 : j ≠ 0 := by
        rintro rfl
        rw [hns] at hnodup
        exact (List.nodup_append.mp hnodup).2.2 0 hj 0 (List.mem_cons_self ..) rfl
      rw [honly j hj0] at hg
      cases hg
  intro hall
  exact absurd (hall 0 _ hfit) (by decide)

end Addressed

end NetworkBfd.Smmr
