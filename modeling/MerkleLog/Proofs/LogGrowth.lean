import MerkleLog.Proofs.SharedPath

namespace MerkleLog

section

variable {leaf size size' d d' : Nat}

theorem filter_notMem_sublist {α : Type*} [DecidableEq α] (lower border upper : List α) :
    ((lower ++ border ++ upper).filter (· ∉ border.reverse)).Sublist (lower ++ upper) := by
  have hborder : border.filter (· ∉ border.reverse) = [] := by simp
  rw [List.filter_append, List.filter_append, hborder, List.append_nil, ← List.filter_append]
  exact List.filter_sublist

theorem nodes_forkPlan_at_fork :
    (forkPlan [] leaf 0 size d).nodes = (List.range d).map (siblingNode leaf) ++
      leftSiblings size 0 d ++ leftSiblings leaf (d + 1) (64 - (d + 1)) := by
  simp [forkPlan, Plan.ofParts, List.range_eq_range']

/-- Where the fork of a larger tree is higher, the left siblings from the old fork to the new one are
met below the border, and those above the new fork after it. -/
theorem ForkAt.siblings_sublist (h : ForkAt leaf size d) (h' : ForkAt leaf size' d') (hle : d ≤ d')
    (hd' : d' < 64) :
    ((List.range d).map (siblingNode leaf) ++ leftSiblings leaf (d + 1) (64 - (d + 1))).Sublist
      (forkPlan [] leaf 0 size' d').nodes := by
  have hupper := h.leftSiblings_eq (Nat.le_refl d) (Nat.lt_of_le_of_lt hle hd')
  have hupper' := h'.leftSiblings_eq hle hd'
  have hbetween : (leftSiblings leaf d (d' - d)).Sublist
      ((List.range' d (d' - d)).map (siblingNode leaf)) := by
    rw [leftSiblings_eq_map_siblingNode]
    exact List.filter_sublist.map _
  have hsame : leftSiblings leaf (d + 1) (64 - (d + 1)) =
      leftSiblings leaf d (d' - d) ++ leftSiblings leaf (d' + 1) (64 - (d' + 1)) := by
    rw [← hupper', hupper, Nat.sub_self]
    rfl
  rw [hsame, forkPlan_from_leaf hle]
  simp only [forkPlan, Plan.ofParts, List.append_assoc]
  exact (List.Sublist.refl _).append (hbetween.append (List.sublist_append_right _ _))

end

/-- As the log grows, the fork of the path to a leaf rises or stays. The siblings below the old fork stay
first, and of the other nodes all but those behind the old turn stay, in their order. -/
theorem inclusionPlan_survives_growth {index size size' : Word} (h : index < size) (hle : size ≤ size') :
    let d := (index.toNat ^^^ size.toNat).log2
    d ≤ (index.toNat ^^^ size'.toNat).log2 ∧
      ∃ plan plan' border, ∃ turn : Word, inclusionPlan index size = .ok plan ∧
        inclusionPlan index size' = .ok plan' ∧
        d ≤ plan.nodes.length ∧ plan'.nodes.take d = plan.nodes.take d ∧
        turn.toNat = (index.toNat / 2 ^ d + 1) * 2 ^ d ∧ Span.cover ⟨turn, size⟩ = .ok border ∧
        (plan.nodes.filter (· ∉ border)).Sublist plan'.nodes := by
  obtain ⟨d, hfork, hplan⟩ := inclusionPlan_eq h
  obtain ⟨d', hfork', hplan'⟩ := inclusionPlan_eq (UInt64.lt_of_lt_of_le h hle)
  have hrise := hfork.level_mono hfork' (UInt64.le_iff_toNat_le.mp hle)
  have hd' := hfork'.level_lt size'.toNat_lt
  have hturn := Word.toNat_ofNat_cut size d
  rw [hfork.log2_eq, hfork'.log2_eq]
  refine ⟨hrise, _, _, _, _, hplan, hplan', ?_, ?_, ?_, Span.cover_from_turn hfork hturn, ?_⟩
  · rw [nodes_forkPlan_at_fork]
    simp only [List.length_append, List.length_map, List.length_range]
    omega
  · rw [take_nodes_forkPlan_from_leaf hrise, take_nodes_forkPlan_from_leaf (Nat.le_refl d)]
  · rw [hturn, hfork.2]
  · rw [nodes_forkPlan_at_fork]
    exact (filter_notMem_sublist _ _ _).trans (hfork.siblings_sublist hfork' hrise hd')

/-- From 7 leaves to 11 the fork of the path to leaf 4 rises from level 1 to level 3. -/
theorem inclusionPlan_survives_growth_to_eleven :
    (4 : Word) < 7 ∧ (7 : Word) ≤ 11 ∧
      inclusionPlan 4 7 = .ok ⟨[⟨0, 5⟩, ⟨0, 6⟩, ⟨2, 0⟩], .nothing⟩ ∧
      ∃ plan, inclusionPlan 4 11 = .ok plan ∧ plan.nodes.take 1 = [⟨0, 5⟩] ∧
        [⟨0, 5⟩, ⟨2, 0⟩].Sublist plan.nodes := by
  have hsmall : inclusionPlan 4 7 = .ok ⟨[⟨0, 5⟩, ⟨0, 6⟩, ⟨2, 0⟩], .nothing⟩ := by decide +kernel
  obtain ⟨-, plan, plan', border, turn, hplan, hplan', -, htake, hturn, hborder, hrest⟩ :=
    inclusionPlan_survives_growth (by decide : (4 : Word) < 7) (by decide : (7 : Word) ≤ 11)
  obtain rfl : turn = 6 := UInt64.toNat_inj.mp hturn
  cases hsmall.symm.trans hplan
  have hlast : Span.cover ⟨6, 7⟩ = .ok [⟨0, 6⟩] := by decide +kernel
  cases hlast.symm.trans hborder
  exact ⟨by decide, by decide, hsmall, plan', hplan', htake, hrest⟩

end MerkleLog
