import MerkleLog.Proofs.ClimbPlan
import MerkleLog.Request

namespace MerkleLog

theorem inclusionPlan_refused {index size : Word} (h : size ≤ index) :
    inclusionPlan index size = .error (.refused (.leafOutside index size)) := by
  have hclimb : (Request.inclusion index size).climb? = .error (.refused (.leafOutside index size)) :=
    if_neg (UInt64.not_lt.mpr h)
  rw [inclusionPlan, Request.plan, hclimb]
  rfl

theorem consistencyPlan_refused {older newer : Word} (h : newer < older) :
    consistencyPlan older newer = .error (.refused (.shrunkLog older newer)) := by
  have hclimb : (Request.consistency older newer).climb? =
      .error (.refused (.shrunkLog older newer)) := if_pos h
  rw [consistencyPlan, Request.plan, hclimb]
  rfl

theorem consistencyPlan_trivial {older newer : Word} (hle : older ≤ newer)
    (h : older = newer ∨ older = 0) : consistencyPlan older newer = .ok .empty := by
  have hclimb : (Request.consistency older newer).climb? = .ok none := by
    rw [Request.climb?, if_neg (UInt64.not_lt.mpr hle), if_pos h]
  rw [consistencyPlan, Request.plan, hclimb]
  rfl

theorem inclusionPlan_eq {index size : Word} (h : index < size) :
    ∃ d, ForkAt index.toNat size.toNat d ∧
      inclusionPlan index size = .ok (forkPlan [] index.toNat 0 size.toNat d) := by
  have hlt := UInt64.lt_iff_toNat_lt.mp h
  have hfit : (index.toNat + 1) * 2 ^ 0 ≤ size.toNat := by
    rw [pow_zero, Nat.mul_one]
    exact hlt
  obtain ⟨d, -, hfork, hplan⟩ := Climb.plan_eq (c := ⟨⟨0, index⟩, size⟩) hfit
  have hclimb : (Request.inclusion index size).climb? = .ok (some ⟨⟨0, index⟩, size⟩) := if_pos h
  have hleaf : index.toNat * 2 ^ (0 : UInt8).toNat = index.toNat := Nat.mul_one _
  simp only [hleaf] at hfork hplan
  refine ⟨d, hfork, ?_⟩
  rw [inclusionPlan, Request.plan, hclimb]
  simp only [bind, Except.bind, hplan, liftM, monadLift, MonadLift.monadLift, Except.mapError,
    Request.listsStart, pure, Except.pure]
  rfl

theorem climb?_consistency {older newer : Word} {q bottom : Nat}
    (ho : older.toNat = (2 * q + 1) * 2 ^ bottom) (hbottom : lowestBit older.toNat = bottom)
    (hlt : older < newer) :
    (Request.consistency older newer).climb? = .ok (some ⟨Node.ofNat bottom (2 * q), newer⟩) := by
  obtain ⟨hlevel, -⟩ := odd_mul_two_pow_lt (ho ▸ older.toNat_lt)
  have hpos : 0 < older.toNat := ho ▸ Nat.mul_pos (Nat.succ_pos _) (Nat.two_pow_pos bottom)
  have hlast : (older - 1).toNat = (2 * q + 1) * 2 ^ bottom - 1 := by
    rw [Word.toNat_sub_one hpos, ho]
  have habove : Node.above (older - 1) bottom = .ok (Node.ofNat bottom (2 * q)) := by
    rw [Node.above_eq hlevel, hlast, lastLeaf_div]
  have hshrunk : ¬ newer < older := by
    rw [UInt64.lt_iff_toNat_lt] at hlt ⊢
    omega
  have htrivial : ¬ (older = newer ∨ older = 0) := by
    rintro (rfl | rfl)
    · exact UInt64.lt_irrefl _ hlt
    · exact Nat.lt_irrefl 0 hpos
  simp only [Request.climb?, if_neg hshrunk, if_neg htrivial, Word.sub_one_eq hpos, hbottom, habove,
    bind, Except.bind, liftM, monadLift, MonadLift.monadLift, Except.mapError, pure, Except.pure]

theorem length_start_le (p : Prop) [Decidable p] (node : Node) :
    (if p then [] else [node]).length ≤ 1 := by
  split
  next => exact Nat.zero_le 1
  next => exact Nat.le_refl 1

/-- The plan of a consistency proof is that of the climb from the last complete subtree of the older
tree, which is listed first unless it is all of that tree. -/
theorem consistencyPlan_eq {older newer : Word} (hpos : 0 < older) (hlt : older < newer) :
    ∃ q bottom d, lowestBit older.toNat = bottom ∧ older.toNat = (2 * q + 1) * 2 ^ bottom ∧
      bottom ≤ d ∧ ForkAt (2 * q * 2 ^ bottom) newer.toNat d ∧
      consistencyPlan older newer = .ok (forkPlan (if q = 0 then [] else [Node.ofNat bottom (2 * q)])
        (2 * q * 2 ^ bottom) bottom newer.toNat d) := by
  have hpos' := UInt64.lt_iff_toNat_lt.mp hpos
  have hlt' := UInt64.lt_iff_toNat_lt.mp hlt
  obtain ⟨q, hq⟩ := lowestBit_factor hpos'
  generalize hbottom : lowestBit older.toNat = bottom at hq
  obtain ⟨hlevel, hindex⟩ := odd_mul_two_pow_lt (hq ▸ older.toNat_lt)
  have hnodeLevel : (Node.ofNat bottom (2 * q)).level.toNat = bottom := Node.ofNat_level (by omega)
  have hnodeIndex : (Node.ofNat bottom (2 * q)).index.toNat = 2 * q := Node.ofNat_index hindex
  have hfit : ((Node.ofNat bottom (2 * q)).index.toNat + 1) *
      2 ^ (Node.ofNat bottom (2 * q)).level.toNat ≤ newer.toNat := by
    rw [hnodeLevel, hnodeIndex, ← hq]
    exact hlt'.le
  obtain ⟨d, hb, hfork, hplan⟩ := Climb.plan_eq (c := ⟨Node.ofNat bottom (2 * q), newer⟩) hfit
  simp only [hnodeLevel, hnodeIndex] at hb hfork hplan
  have hd := hfork.level_lt newer.toNat_lt
  have hlists : (Request.consistency older newer).listsStart (Node.ofNat bottom (2 * q)) =
      decide (q ≠ 0) := by
    rw [Request.listsStart, decide_eq_decide, Ne, Ne, ← UInt64.toNat_inj, hnodeIndex]
    change 2 * q ≠ 0 ↔ q ≠ 0
    omega
  refine ⟨q, bottom, d, rfl, hq, hb, hfork, ?_⟩
  rw [consistencyPlan, Request.plan, climb?_consistency hq hbottom hlt]
  simp only [bind, Except.bind, hplan, liftM, monadLift, MonadLift.monadLift, Except.mapError, hlists,
    decide_eq_true_eq]
  by_cases hzero : q = 0
  · rw [if_neg (not_not_intro hzero), if_pos hzero]
    rfl
  · rw [if_pos hzero, if_neg hzero, forkPlan, List.nil_append, Plan.push_ofParts]
    · rfl
    · exact length_forkPlan_lt (Nat.le_refl [Node.ofNat bottom (2 * q)].length) hd

/-- The size of the tree that the proof for a request leads up to. -/
def Request.treeSize : Request → Word
  | .inclusion _ size => size
  | .consistency _ newer => newer

/-- All that a request which is not refused can have for a plan. -/
theorem Request.plan_empty_or_fork {r : Request} {plan : Plan} (h : r.plan = .ok plan) :
    plan = .empty ∨ ∃ listed leaf bottom d, listed.length ≤ 1 ∧ ForkAt leaf r.treeSize.toNat d ∧
      plan = forkPlan listed leaf bottom r.treeSize.toNat d := by
  cases r with
  | inclusion index size =>
    by_cases hlt : index < size
    · obtain ⟨d, hfork, hplan⟩ := inclusionPlan_eq hlt
      cases hplan.symm.trans h
      exact .inr ⟨[], _, 0, d, Nat.zero_le 1, hfork, rfl⟩
    · cases (inclusionPlan_refused (UInt64.not_lt.mp hlt)).symm.trans h
  | consistency older newer =>
    by_cases hshrunk : newer < older
    · cases (consistencyPlan_refused hshrunk).symm.trans h
    · have hle := UInt64.not_lt.mp hshrunk
      by_cases htrivial : older = newer ∨ older = 0
      · cases (consistencyPlan_trivial hle htrivial).symm.trans h
        exact .inl rfl
      · rw [not_or] at htrivial
        have hpos : 0 < older := UInt64.pos_iff_ne_zero.mpr htrivial.2
        have hlt : older < newer := UInt64.lt_of_le_of_ne hle htrivial.1
        obtain ⟨q, bottom, d, -, -, -, hfork, hplan⟩ := consistencyPlan_eq hpos hlt
        cases hplan.symm.trans h
        exact .inr ⟨_, _, bottom, d, length_start_le _ _, hfork, rfl⟩

end MerkleLog
