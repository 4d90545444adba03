import MerkleLog.Proofs.SiblingHashes
import MerkleLog.Verifier

namespace MerkleLog

universe u

variable {H : Type u} (log : Log H) {size leaf bottom count level : Nat}

/-- Where the paths to a leaf and to the last leaf differ, the last leaf is under a later node. -/
theorem succ_div_mul_lt_of_lt_turns (h : leaf < size) (hl : level < bitLength (leaf ^^^ (size - 1))) :
    (leaf / 2 ^ level + 1) * 2 ^ level < size := by
  have hne : leaf / 2 ^ level ≠ (size - 1) / 2 ^ level := by
    intro heq
    have hle := bitLength_xor_le_iff.mpr heq
    omega
  have hmono : leaf / 2 ^ level ≤ (size - 1) / 2 ^ level := Nat.div_le_div_right (by omega)
  have hlast := Nat.div_mul_le_self (size - 1) (2 ^ level)
  have hnext : (leaf / 2 ^ level + 1) * 2 ^ level ≤ (size - 1) / 2 ^ level * 2 ^ level :=
    Nat.mul_le_mul_right _ (by omega)
  omega

/-- Where the paths to a leaf and to the last leaf agree, no leaf is to the right of the path. -/
theorem le_succ_div_mul_of_turns_le (hl : bitLength (leaf ^^^ (size - 1)) ≤ level) :
    size ≤ (leaf / 2 ^ level + 1) * 2 ^ level := by
  have hlast := lt_succ_div_mul (size - 1) level
  rw [bitLength_xor_le_iff.mp hl]
  omega

theorem Log.siblingHash?_of_lt_turns (h : leaf < size)
    (hl : level < bitLength (leaf ^^^ (size - 1))) :
    ∃ hash, log.siblingHash? size leaf level = some hash ∧
      log.clippedHash size (level + 1) (leaf / 2 ^ (level + 1)) =
        if leaf / 2 ^ level % 2 = 0 then log.combine (log.clippedHash size level (leaf / 2 ^ level)) hash
        else log.combine hash (log.clippedHash size level (leaf / 2 ^ level)) := by
  rcases Nat.mod_two_eq_zero_or_one (leaf / 2 ^ level) with hd | hd
  · have hlt := succ_div_mul_lt_of_lt_turns h hl
    refine ⟨_, log.siblingHash?_of_even_of_lt hd hlt, ?_⟩
    rw [if_pos hd, log.clippedHash_step_of_even_of_lt hd hlt]
  · refine ⟨_, log.siblingHash?_of_odd h hd, ?_⟩
    rw [if_neg (by omega), log.clippedHash_step_of_odd h hd]

theorem Log.clippedHash_step_lastLeaf {hash : H} (h : leaf < size)
    (hs : log.siblingHash? size leaf level = some hash) :
    log.clippedHash (leaf + 1) (level + 1) (leaf / 2 ^ (level + 1)) =
      if leaf / 2 ^ level % 2 = 0 then log.clippedHash (leaf + 1) level (leaf / 2 ^ level)
      else log.combine hash (log.clippedHash (leaf + 1) level (leaf / 2 ^ level)) := by
  rcases Nat.mod_two_eq_zero_or_one (leaf / 2 ^ level) with hd | hd
  · rw [if_pos hd, log.clippedHash_step_of_even_of_le hd (lt_succ_div_mul leaf level)]
  · have hodd := hs.symm.trans (log.siblingHash?_of_odd h hd)
    rw [if_neg (by omega), log.clippedHash_step_of_odd (Nat.lt_succ_self leaf) hd, Option.some.inj hodd]

theorem Log.siblingHashes_cons {hash : H} (hs : log.siblingHash? size leaf bottom = some hash) :
    log.siblingHashes size leaf bottom (count + 1) =
      hash :: log.siblingHashes size leaf (bottom + 1) count := by
  rw [Log.siblingHashes, List.range'_succ, List.filterMap_cons_some hs]
  rfl

theorem Log.length_siblingHashes_of_le_turns (h : leaf < size)
    (hc : bottom + count ≤ bitLength (leaf ^^^ (size - 1))) :
    (log.siblingHashes size leaf bottom count).length = count := by
  induction count generalizing bottom with
  | zero => rfl
  | succ count ih =>
    have hbottom : bottom < bitLength (leaf ^^^ (size - 1)) := by omega
    obtain ⟨hash, hs, -⟩ := log.siblingHash?_of_lt_turns h hbottom
    rw [log.siblingHashes_cons hs, List.length_cons, ih (by omega)]

theorem Log.length_siblingHashes_of_turns_le (h : leaf < size)
    (hb : bitLength (leaf ^^^ (size - 1)) ≤ bottom) (hc : leaf < 2 ^ (bottom + count)) :
    (log.siblingHashes size leaf bottom count).length = popCount (leaf / 2 ^ bottom) := by
  have hmap : log.siblingHashes size leaf bottom count =
      ((List.range' bottom count).filter leaf.testBit).map
        fun level => log.subtreeHash level (leaf / 2 ^ level - 1) := by
    apply filterMap_eq_map_filter
    intro level hl
    exact log.siblingHash?_of_border h
      (le_succ_div_mul_of_turns_le (hb.trans (List.mem_range'_1.mp hl).1))
  rw [hmap, List.length_map, popCount_div_two_pow hc]

/-- Joining the siblings below the turns, left or right as the path has it, leads from the hash under
one node of the path to the hash under a later one. -/
theorem Log.climbTurns_siblingHashes (h : leaf < size)
    (hc : bottom + count ≤ bitLength (leaf ^^^ (size - 1))) :
    climbTurns log.combine (log.clippedHash size bottom (leaf / 2 ^ bottom)) (leaf / 2 ^ bottom)
        (log.siblingHashes size leaf bottom count) =
      log.clippedHash size (bottom + count) (leaf / 2 ^ (bottom + count)) := by
  induction count generalizing bottom with
  | zero => rfl
  | succ count ih =>
    have hbottom : bottom < bitLength (leaf ^^^ (size - 1)) := by omega
    obtain ⟨hash, hs, hstep⟩ := log.siblingHash?_of_lt_turns h hbottom
    -- the first sibling makes the hash of the parent, and the halved path goes on from there
    have hrest := @ih (bottom + 1) (by omega)
    rw [hstep, div_two_pow_succ, Nat.add_right_comm] at hrest
    rw [log.siblingHashes_cons hs, climbTurns]
    exact hrest

/-- Joining the left siblings only leads to the hash in the tree that ends with the leaf. -/
theorem Log.climbLeftTurns_siblingHashes (h : leaf < size)
    (hc : bottom + count ≤ bitLength (leaf ^^^ (size - 1))) :
    climbLeftTurns log.combine (log.clippedHash (leaf + 1) bottom (leaf / 2 ^ bottom)) (leaf / 2 ^ bottom)
        (log.siblingHashes size leaf bottom count) =
      log.clippedHash (leaf + 1) (bottom + count) (leaf / 2 ^ (bottom + count)) := by
  induction count generalizing bottom with
  | zero => rfl
  | succ count ih =>
    have hbottom : bottom < bitLength (leaf ^^^ (size - 1)) := by omega
    obtain ⟨hash, hs, -⟩ := log.siblingHash?_of_lt_turns h hbottom
    have hrest := @ih (bottom + 1) (by omega)
    rw [log.clippedHash_step_lastLeaf h hs, div_two_pow_succ, Nat.add_right_comm] at hrest
    rw [log.siblingHashes_cons hs, climbLeftTurns]
    exact hrest

theorem Log.climbBorder_siblingHashes (h : leaf < size)
    (hb : bitLength (leaf ^^^ (size - 1)) ≤ bottom) (count : Nat) :
    climbBorder log.combine (log.clippedHash size bottom (leaf / 2 ^ bottom))
        (log.siblingHashes size leaf bottom count) =
      log.clippedHash size (bottom + count) (leaf / 2 ^ (bottom + count)) := by
  induction count with
  | zero => rfl
  | succ count ih =>
    have hturns : bitLength (leaf ^^^ (size - 1)) ≤ bottom + count := by omega
    rw [climbBorder] at ih ⊢
    -- levels without a sibling add no hash, so the induction takes the topmost level off
    rw [log.siblingHashes_succ, List.foldl_append, ih, ← Nat.add_assoc]
    rcases Nat.mod_two_eq_zero_or_one (leaf / 2 ^ (bottom + count)) with hd | hd
    · have hle := le_succ_div_mul_of_turns_le hturns
      rw [log.siblingHash?_of_even_of_le hd hle, log.clippedHash_step_of_even_of_le hd hle]
      rfl
    · rw [log.siblingHash?_of_odd h hd, log.clippedHash_step_of_odd h hd]
      rfl

end MerkleLog
