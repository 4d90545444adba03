import MerkleLog.Proofs.PlanTiling

namespace MerkleLog

section

variable {nodes others : List Node} {leaves leaves' : Word → Prop} {s t : Span}

/-- The same nodes in another order are over the same leaves. -/
theorem Tiles.leaves_iff_of_perm (h : Tiles nodes leaves) (h' : Tiles others leaves')
    (hperm : nodes.Perm others) (leaf : Word) : leaves leaf ↔ leaves' leaf :=
  ((h.perm hperm).holds_iff leaf).symm.trans (h'.holds_iff leaf)

theorem Tiles.eq_nil_iff (h : Tiles nodes leaves) : nodes = [] ↔ ∀ leaf, ¬ leaves leaf := by
  constructor
  · rintro rfl leaf hleaf
    obtain ⟨n, hn, -⟩ := (h.holds_iff leaf).mpr hleaf
    simp at hn
  · intro hnone
    apply List.eq_nil_iff_forall_not_mem.mpr
    intro n hn
    obtain ⟨s, hs⟩ := h.fits n hn
    exact hnone s.start ((h.holds_iff _).mp ⟨n, hn, Node.holds_start hs⟩)

theorem Span.le_of_holds_imp (h : s.start < s.stop) (hst : ∀ leaf, s.Holds leaf → t.Holds leaf) :
    t.start ≤ s.start ∧ s.stop ≤ t.stop := by
  have hlast : s.Holds (s.stop - 1) :=
    ⟨Word.le_sub_one h,
      Word.sub_one_lt (UInt64.lt_of_le_of_lt UInt64.zero_le h) (UInt64.le_refl _)⟩
  refine ⟨(hst s.start ⟨UInt64.le_refl _, h⟩).1, ?_⟩
  by_contra hle
  exact UInt64.not_lt.mpr (Word.le_sub_one (UInt64.not_le.mp hle)) (hst _ hlast).2

theorem Span.eq_of_holds_iff (hs : s.start < s.stop) (ht : t.start < t.stop)
    (h : ∀ leaf, s.Holds leaf ↔ t.Holds leaf) : s.start = t.start ∧ s.stop = t.stop := by
  have hst := Span.le_of_holds_imp hs fun leaf => (h leaf).mp
  have hts := Span.le_of_holds_imp ht fun leaf => (h leaf).mpr
  exact ⟨UInt64.le_antisymm hts.1 hst.1, UInt64.le_antisymm hst.2 hts.2⟩

end

variable {index size index' size' older newer older' newer' : Word}

/-- If the first tree were smaller, its missing leaf would be missing in the second one too, and the last
leaf of the second would not be in the first. -/
theorem size_le_of_same_leaves (h : index < size)
    (heq : ∀ leaf, leaf < size ∧ leaf ≠ index ↔ leaf < size' ∧ leaf ≠ index') : size' ≤ size := by
  by_contra hle
  have hlt : size < size' := UInt64.not_le.mp hle
  have hmissing : index = index' := by
    by_contra hne
    exact ((heq index).mpr ⟨UInt64.lt_trans h hlt, hne⟩).2 rfl
  have hbeyond : size ≤ size' - 1 := Word.le_sub_one hlt
  have hother : size' - 1 ≠ index' := by
    intro hlast
    rw [hlast, ← hmissing] at hbeyond
    exact UInt64.lt_irrefl _ (UInt64.lt_of_lt_of_le h hbeyond)
  have hlast := Word.sub_one_lt (UInt64.lt_of_le_of_lt UInt64.zero_le hlt) (UInt64.le_refl size')
  exact UInt64.not_lt.mpr hbeyond ((heq _).mpr ⟨hlast, hother⟩).1

theorem eq_of_same_leaves (h : index < size) (h' : index' < size')
    (heq : ∀ leaf, leaf < size ∧ leaf ≠ index ↔ leaf < size' ∧ leaf ≠ index') :
    index = index' ∧ size = size' := by
  have hsize : size = size' := UInt64.le_antisymm
    (size_le_of_same_leaves h' fun leaf => (heq leaf).symm) (size_le_of_same_leaves h heq)
  refine ⟨?_, hsize⟩
  by_contra hne
  exact ((heq index).mpr ⟨hsize ▸ h, hne⟩).2 rfl

/-- A tree has no leaf but one only if it has no other. -/
theorem no_other_leaf_iff (h : index < size) :
    (∀ leaf : Word, ¬ (leaf < size ∧ leaf ≠ index)) ↔ size = 1 := by
  constructor
  · intro hnone
    have hfirst := hnone 0
    have hsecond := hnone 1
    simp only [UInt64.lt_iff_toNat_lt, Ne, ← UInt64.toNat_inj, UInt64.toNat_zero,
      UInt64.toNat_one] at h hfirst hsecond ⊢
    omega
  · rintro rfl leaf hleaf
    simp only [UInt64.lt_iff_toNat_lt, Ne, ← UInt64.toNat_inj, UInt64.toNat_one] at h hleaf
    omega

theorem exists_inclusionPlan_tiles (h : index < size) :
    ∃ plan, inclusionPlan index size = .ok plan ∧
      Tiles plan.nodes fun leaf => leaf < size ∧ leaf ≠ index := by
  obtain ⟨plan, left, right, hplan, hleft, hright, hperm⟩ := inclusionPlan_nodes_perm h
  exact ⟨plan, hplan, (tiles_around_leaf h hleft hright).perm hperm.symm⟩

/-- The plan for an older tree is over the leaves of the newer one, from the end of the older tree on if
that is a complete subtree. Otherwise it is over all of them, and its first node ends where the older tree
does. -/
theorem exists_consistencyPlan_tiles (hpos : 0 < older) (hlt : older < newer) :
    ∃ plan start, consistencyPlan older newer = .ok plan ∧ start < newer ∧
      Tiles plan.nodes (Span.Holds ⟨start, newer⟩) ∧
      (start = older ∨ start = 0 ∧
        ∃ first s, plan.nodes.head? = some first ∧ first.span? = some s ∧ s.stop = older) := by
  obtain ⟨plan, left, right, hplan, hleft, hright, hparts, hwhole⟩ :=
    consistencyPlan_nodes_perm hpos hlt
  by_cases hpow : ∃ k, older.toNat = 2 ^ k
  · have htiles := Span.tiles_of_cover (UInt64.le_of_lt hlt) hright
    exact ⟨plan, older, hplan, hlt, htiles.perm (hwhole hpow).2.symm, .inl rfl⟩
  · have htiles := (tiles_around_turn hlt hleft hright).perm (hparts hpow).symm
    obtain ⟨q, bottom, d, -, ho, -, -, hplan'⟩ := consistencyPlan_eq hpos hlt
    cases hplan.symm.trans hplan'
    have hq : q ≠ 0 := by
      intro hq
      exact hpow (ho ▸ odd_mul_two_pow_eq_two_pow_iff.mpr hq)
    refine ⟨_, 0, hplan, UInt64.lt_trans hpos hlt, htiles.congr fun leaf => ?_,
      .inr ⟨rfl, _, _, ?_, Node.span?_ofNat (ho ▸ older.toNat_lt), ?_⟩⟩
    · exact ⟨fun h => ⟨UInt64.zero_le, h⟩, fun h => h.2⟩
    · simp [forkPlan, Plan.ofParts, hq]
    · rw [← ho, UInt64.ofNat_toNat]

theorem inclusionPlan_identifies (h : index < size) (h' : index' < size') :
    ∃ plan plan', inclusionPlan index size = .ok plan ∧ inclusionPlan index' size' = .ok plan' ∧
      (plan.nodes.Perm plan'.nodes → index = index' ∧ size = size') := by
  obtain ⟨plan, hplan, htiles⟩ := exists_inclusionPlan_tiles h
  obtain ⟨plan', hplan', htiles'⟩ := exists_inclusionPlan_tiles h'
  refine ⟨plan, plan', hplan, hplan', fun hperm => ?_⟩
  exact eq_of_same_leaves h h' (htiles.leaves_iff_of_perm htiles' hperm)

theorem consistencyPlan_identifies (hpos : 0 < older) (hlt : older < newer) (hpos' : 0 < older')
    (hlt' : older' < newer') :
    ∃ plan plan', consistencyPlan older newer = .ok plan ∧
      consistencyPlan older' newer' = .ok plan' ∧
      (plan.nodes = plan'.nodes → older = older' ∧ newer = newer') := by
  obtain ⟨plan, start, hplan, hstart, htiles, hfirst⟩ := exists_consistencyPlan_tiles hpos hlt
  obtain ⟨plan', start', hplan', hstart', htiles', hfirst'⟩ := exists_consistencyPlan_tiles hpos' hlt'
  refine ⟨plan, plan', hplan, hplan', fun hnodes => ?_⟩
  have hleaves := htiles.leaves_iff_of_perm htiles' (hnodes ▸ List.Perm.refl _)
  obtain ⟨hsame, hnewer⟩ := Span.eq_of_holds_iff hstart hstart' hleaves
  change start = start' at hsame
  refine ⟨?_, hnewer⟩
  rcases hfirst with hwhole | ⟨hzero, first, s, hhead, hspan, hstop⟩
  · rcases hfirst' with hwhole' | ⟨hzero', -⟩
    · rw [← hwhole, ← hwhole', hsame]
    · rw [hwhole, hzero'] at hsame
      exact absurd hsame (UInt64.ne_of_lt hpos).symm
  · rcases hfirst' with hwhole' | ⟨-, first', s', hhead', hspan', hstop'⟩
    · rw [hzero, hwhole'] at hsame
      exact absurd hsame (UInt64.ne_of_lt hpos')
    · rw [hnodes, hhead'] at hhead
      cases hhead
      cases hspan.symm.trans hspan'
      exact hstop.symm.trans hstop'

theorem inclusionPlan_nodes_eq_nil_iff (h : index < size) :
    ∃ plan, inclusionPlan index size = .ok plan ∧ (plan.nodes = [] ↔ size = 1) := by
  obtain ⟨plan, hplan, htiles⟩ := exists_inclusionPlan_tiles h
  exact ⟨plan, hplan, htiles.eq_nil_iff.trans (no_other_leaf_iff h)⟩

theorem consistencyPlan_nodes_eq_nil_iff (hle : older ≤ newer) :
    ∃ plan, consistencyPlan older newer = .ok plan ∧
      (plan.nodes = [] ↔ older = 0 ∨ older = newer) := by
  by_cases htrivial : older = newer ∨ older = 0
  · exact ⟨_, consistencyPlan_trivial hle htrivial, iff_of_true rfl htrivial.symm⟩
  · have hboth := not_or.mp htrivial
    obtain ⟨plan, start, hplan, hstart, htiles, -⟩ := exists_consistencyPlan_tiles
      (UInt64.pos_iff_ne_zero.mpr hboth.2) (UInt64.lt_of_le_of_ne hle hboth.1)
    refine ⟨plan, hplan, iff_of_false ?_ (mt Or.symm htrivial)⟩
    intro hnil
    exact htiles.eq_nil_iff.mp hnil start ⟨UInt64.le_refl _, hstart⟩

/-- The nodes of a plan for inclusion, in whatever order, belong to one request only. So do those of a plan
for consistency in their order, if the request is not one that needs no proof. Those and the one for a tree
of a single leaf are the only requests whose plans have no nodes. -/
theorem plan_nodes_identify_request :
    (∀ index size index' size' : Word, index < size → index' < size' →
      ∃ plan plan', inclusionPlan index size = .ok plan ∧ inclusionPlan index' size' = .ok plan' ∧
        (plan.nodes.Perm plan'.nodes → index = index' ∧ size = size')) ∧
    (∀ older newer older' newer' : Word, 0 < older → older < newer → 0 < older' → older' < newer' →
      ∃ plan plan', consistencyPlan older newer = .ok plan ∧
        consistencyPlan older' newer' = .ok plan' ∧
        (plan.nodes = plan'.nodes → older = older' ∧ newer = newer')) ∧
    (∀ older newer : Word, older ≤ newer → ∃ plan, consistencyPlan older newer = .ok plan ∧
      (plan.nodes = [] ↔ older = 0 ∨ older = newer)) ∧
    (∀ index size : Word, index < size → ∃ plan, inclusionPlan index size = .ok plan ∧
      (plan.nodes = [] ↔ size = 1)) := by
  refine ⟨?_, ?_, fun older newer => consistencyPlan_nodes_eq_nil_iff,
    fun index size => inclusionPlan_nodes_eq_nil_iff⟩
  · intro index size index' size' h h'
    exact inclusionPlan_identifies h h'
  · intro older newer older' newer' hpos hlt hpos' hlt'
    exact consistencyPlan_identifies hpos hlt hpos' hlt'

/-- The plans for the older trees of 12 and of 14 leaves in a tree of 15 have the same nodes, and only their
order tells the two apart. -/
theorem plan_nodes_identify_request_in_fifteen :
    ((2 : Word) < 7 ∧ (2 : Word) < 8 ∧ ∃ plan plan', inclusionPlan 2 7 = .ok plan ∧
      inclusionPlan 2 8 = .ok plan' ∧ ¬ plan.nodes.Perm plan'.nodes) ∧
    ((0 : Word) < 12 ∧ (12 : Word) < 15 ∧ (0 : Word) < 14 ∧ (14 : Word) < 15 ∧
      ∃ plan plan', consistencyPlan 12 15 = .ok plan ∧ consistencyPlan 14 15 = .ok plan' ∧
        plan.nodes.Perm plan'.nodes ∧ plan.nodes ≠ plan'.nodes) ∧
    ((15 : Word) ≤ 15 ∧ ∃ plan, consistencyPlan 15 15 = .ok plan ∧ plan.nodes = []) ∧
    ((0 : Word) < 1 ∧ ∃ plan, inclusionPlan 0 1 = .ok plan ∧ plan.nodes = []) := by
  obtain ⟨hinclusion, hconsistency, htrivial, hsingle⟩ := plan_nodes_identify_request
  obtain ⟨plan, plan', hplan, hplan', hsame⟩ := hinclusion 2 7 2 8 (by decide) (by decide)
  obtain ⟨older, older', holder, holder', heq⟩ :=
    hconsistency 12 15 14 15 (by decide) (by decide) (by decide) (by decide)
  obtain ⟨none, hnone, hnil⟩ := htrivial 15 15 (by decide)
  obtain ⟨single, hplan1, hnil1⟩ := hsingle 0 1 (by decide)
  have hnodes : consistencyPlan 12 15 = .ok ⟨[⟨2, 2⟩, ⟨0, 14⟩, ⟨1, 6⟩, ⟨3, 0⟩], ⟨1, 3⟩⟩ := by
    decide +kernel
  have hnodes' : consistencyPlan 14 15 = .ok ⟨[⟨1, 6⟩, ⟨0, 14⟩, ⟨2, 2⟩, ⟨3, 0⟩], .nothing⟩ := by
    decide +kernel
  have hperm : older.nodes.Perm older'.nodes := by
    cases hnodes.symm.trans holder
    cases hnodes'.symm.trans holder'
    decide
  refine ⟨⟨by decide, by decide, plan, plan', hplan, hplan', mt hsame (by decide)⟩,
    ⟨by decide, by decide, by decide, by decide, older, older', holder, holder', hperm,
      mt heq (by decide)⟩,
    ⟨by decide, none, hnone, hnil.mpr (.inr rfl)⟩, ⟨by decide, single, hplan1, hnil1.mpr rfl⟩⟩

end MerkleLog
