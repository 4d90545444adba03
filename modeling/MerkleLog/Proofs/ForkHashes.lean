import MerkleLog.Proofs.ClimbPlan

namespace MerkleLog

universe u

variable {H : Type u} (log : Log H) {leaf size bottom d level : Nat}

theorem ForkAt.siblingHash?_below (h : ForkAt leaf size d) (hl : level < d) :
    log.siblingHash? size leaf level = some (log.subtreeHash level (leaf / 2 ^ level ^^^ 1)) := by
  have hparent := div_two_pow_succ leaf level
  have hturn : size / 2 ^ d * 2 ^ d ≤ size := Nat.div_mul_le_self size (2 ^ d)
  have hnext : leaf < size / 2 ^ d * 2 ^ d := h.to_turn.lt
  have hdvd : 2 ^ (level + 1) ∣ size / 2 ^ d * 2 ^ d :=
    Dvd.dvd.mul_left (Nat.pow_dvd_pow 2 hl) _
  have hcover := (succ_div_mul_le hnext hdvd).trans hturn
  rcases Nat.mod_two_eq_zero_or_one (leaf / 2 ^ level) with hd | hd
  · rw [mul_two_pow_succ, show 2 * (leaf / 2 ^ (level + 1) + 1) = leaf / 2 ^ level + 1 + 1 by omega]
      at hcover
    have hlt : (leaf / 2 ^ level + 1) * 2 ^ level < size := by
      rw [Nat.add_one_mul] at hcover
      have := Nat.two_pow_pos level
      omega
    rw [log.siblingHash?_of_even_of_lt hd hlt, log.clippedHash_of_complete hcover, xor_one_of_even hd]
  · rw [log.siblingHash?_of_odd h.lt hd, xor_one_of_odd hd]

/-- At the fork the sibling holds what is left of the tree, if anything. -/
theorem ForkAt.siblingHash?_at (h : ForkAt leaf size d) :
    log.siblingHash? size leaf d =
      if size % 2 ^ d = 0 then none else some (log.clippedHash size d (size / 2 ^ d)) := by
  have hsplit := Nat.div_add_mod size (2 ^ d)
  rw [Nat.mul_comm, h.2] at hsplit
  by_cases hzero : size % 2 ^ d = 0
  · rw [if_pos hzero, log.siblingHash?_of_even_of_le h.1 (by omega)]
  · rw [if_neg hzero, log.siblingHash?_of_even_of_lt h.1 (by omega), h.2]

theorem ForkAt.siblingHash?_above (h : ForkAt leaf size d) (hl : d < level) :
    log.siblingHash? size leaf level =
      if leaf.testBit level then some (log.subtreeHash level (leaf / 2 ^ level - 1)) else none := by
  apply log.siblingHash?_of_border h.lt
  rw [h.above hl]
  exact (lt_succ_div_mul size level).le

/-- The hashes of the three parts of a plan, the border folded, are those of the siblings on the way
up. -/
theorem ForkAt.siblingHashes_eq (h : ForkAt leaf size d) (hb : bottom ≤ d) (hs : size < 2 ^ 64) :
    log.siblingHashes size leaf bottom (64 - bottom) =
      ((List.range' bottom (d - bottom)).map (siblingNode leaf)).map log.nodeHash ++
        (foldRun (m := Id) log.combine ((leftSiblings size 0 d).map log.nodeHash)).run ++
          (leftSiblings leaf (d + 1) (64 - (d + 1))).map log.nodeHash := by
  have hd := h.level_lt hs
  have hleaf := h.lt
  have hindex : ∀ level, leaf / 2 ^ level < 2 ^ 64 := fun level =>
    Nat.lt_of_le_of_lt (Nat.div_le_self _ _) (by omega)
  have hlower : log.siblingHashes size leaf bottom (d - bottom) =
      ((List.range' bottom (d - bottom)).map (siblingNode leaf)).map log.nodeHash := by
    rw [List.map_map, ← List.filterMap_eq_map]
    apply List.filterMap_congr
    intro level hl
    rw [List.mem_range'_1] at hl
    have hxor : leaf / 2 ^ level ^^^ 1 < 2 ^ 64 := Nat.xor_lt_two_pow (hindex level) (by decide)
    rw [h.siblingHash?_below log (by omega)]
    exact congrArg some (log.nodeHash_ofNat (by omega) hxor).symm
  have hborder : (log.siblingHash? size leaf d).toList =
      (foldRun (m := Id) log.combine ((leftSiblings size 0 d).map log.nodeHash)).run := by
    rw [h.siblingHash?_at, log.foldRun_border hd.le hs]
    by_cases hzero : size % 2 ^ d = 0
    · rw [if_pos hzero, if_pos hzero, Option.toList_none]
    · rw [if_neg hzero, if_neg hzero, Option.toList_some]
  have hupper : log.siblingHashes size leaf (d + 1) (64 - (d + 1)) =
      (leftSiblings leaf (d + 1) (64 - (d + 1))).map log.nodeHash := by
    rw [leftSiblings, List.map_map]
    apply filterMap_eq_map_filter
    intro level hl
    rw [List.mem_range'_1] at hl
    rw [h.siblingHash?_above log (by omega), Function.comp_apply,
      log.nodeHash_ofNat (by omega) (Nat.lt_of_le_of_lt (Nat.sub_le _ _) (hindex level))]
  have hsplit := log.siblingHashes_append size leaf bottom (d - bottom + 1) (64 - (d + 1))
  rw [log.siblingHashes_succ, Nat.add_sub_cancel' hb, show bottom + (d - bottom + 1) = d + 1 by omega,
    show d - bottom + 1 + (64 - (d + 1)) = 64 - bottom by omega] at hsplit
  rw [← hsplit, hlower, hborder, hupper]

/-- Assembling the plan of a climb gives the hashes of the nodes listed first and of the siblings on
the way up. -/
theorem ForkAt.assemble_forkPlan {listed : List Node} {leaf bottom size d : Nat}
    (h : ForkAt leaf size d) (hl : listed.length ≤ 1) (hb : bottom ≤ d) (hs : size < 2 ^ 64) :
    (forkPlan listed leaf bottom size d).assemble log.combine
        ((forkPlan listed leaf bottom size d).nodes.map log.nodeHash) =
      .ok (listed.map log.nodeHash ++ log.siblingHashes size leaf bottom (64 - bottom)) := by
  rw [h.siblingHashes_eq log hb hs, ← List.append_assoc, ← List.append_assoc, ← List.map_append]
  exact Plan.assemble_ofParts log.combine log.nodeHash (length_forkPlan_lt hl (h.level_lt hs))

end MerkleLog
