import MerkleLog.Proofs.Digits
import MerkleLog.Tree

namespace MerkleLog

universe u

variable {H : Type u}

theorem splitPoint_eq {n level : Nat} (hlow : 2 ^ level < n) (hhigh : n ≤ 2 ^ (level + 1)) :
    splitPoint n = 2 ^ level := by
  have hpos := Nat.two_pow_pos level
  have hlog : (n - 1).log2 = level := (Nat.log2_eq_iff (by omega)).mpr ⟨by omega, by omega⟩
  rw [splitPoint, hlog, Nat.one_shiftLeft]

theorem Log.treeHash_one (log : Log H) (start : Nat) : log.treeHash start 1 = log.leaf start := by
  rw [Log.treeHash, if_neg (Nat.lt_irrefl 1)]

theorem Log.treeHash_split (log : Log H) {start n level : Nat} (hlow : 2 ^ level < n)
    (hhigh : n ≤ 2 ^ (level + 1)) :
    log.treeHash start n =
      log.combine (log.treeHash start (2 ^ level))
        (log.treeHash (start + 2 ^ level) (n - 2 ^ level)) := by
  have hpos := Nat.two_pow_pos level
  rw [Log.treeHash, if_pos (by omega), splitPoint_eq hlow hhigh]

theorem mul_two_pow_succ (index level : Nat) : index * 2 ^ (level + 1) = 2 * index * 2 ^ level := by
  rw [pow_succ]
  ring

theorem Log.treeHash_complete (log : Log H) (level index : Nat) :
    log.treeHash (index * 2 ^ level) (2 ^ level) = log.subtreeHash level index := by
  induction level generalizing index with
  | zero =>
    rw [pow_zero, Nat.mul_one]
    exact log.treeHash_one index
  | succ level ih =>
    have hpos := Nat.two_pow_pos level
    have hdouble : 2 ^ (level + 1) = 2 ^ level + 2 ^ level := by rw [pow_succ, Nat.mul_two]
    rw [log.treeHash_split (by omega : 2 ^ level < 2 ^ (level + 1)) (Nat.le_refl _), mul_two_pow_succ,
      ← Nat.add_one_mul, hdouble, Nat.add_sub_cancel, ih, ih]
    rfl

/-- A log whose hashes list the leaves that they are made of. -/
def Log.listing : Log (List Nat) :=
  ⟨fun leaf => [leaf], (· ++ ·)⟩

/-- How many of the first `size` leaves are under a node. -/
def leavesUnder (size level index : Nat) : Nat :=
  min (2 ^ level) (size - index * 2 ^ level)

/-- The hash of the tree over those of the first `size` leaves that are under a node. -/
def Log.clippedHash (log : Log H) (size level index : Nat) : H :=
  log.treeHash (index * 2 ^ level) (leavesUnder size level index)

section

variable {size level index : Nat}

theorem leavesUnder_le : leavesUnder size level index ≤ 2 ^ level :=
  Nat.min_le_left _ _

theorem leavesUnder_pos (h : index * 2 ^ level < size) : 0 < leavesUnder size level index :=
  Nat.lt_min.mpr ⟨Nat.two_pow_pos level, Nat.sub_pos_of_lt h⟩

theorem leavesUnder_of_complete (h : (index + 1) * 2 ^ level ≤ size) :
    leavesUnder size level index = 2 ^ level := by
  rw [Nat.add_mul] at h
  exact Nat.min_eq_left (by omega)

theorem leavesUnder_root (h : size ≤ 2 ^ level) : leavesUnder size level 0 = size := by
  rw [leavesUnder, Nat.zero_mul]
  exact Nat.min_eq_right h

theorem leavesUnder_succ_of_le (h : size ≤ (2 * index + 1) * 2 ^ level) :
    leavesUnder size (level + 1) index = leavesUnder size level (2 * index) := by
  rw [Nat.add_mul] at h
  rw [leavesUnder, leavesUnder, mul_two_pow_succ, pow_succ]
  omega

theorem leavesUnder_succ_of_lt (h : (2 * index + 1) * 2 ^ level < size) :
    leavesUnder size (level + 1) index = 2 ^ level + leavesUnder size level (2 * index + 1) := by
  rw [leavesUnder, leavesUnder, mul_two_pow_succ, pow_succ]
  rw [Nat.add_mul] at h ⊢
  omega

theorem splitPoint_leavesUnder (h : (2 * index + 1) * 2 ^ level < size) :
    splitPoint (leavesUnder size (level + 1) index) = 2 ^ level := by
  have hpos := leavesUnder_pos h
  apply splitPoint_eq
  · rw [leavesUnder_succ_of_lt h]
    omega
  · exact leavesUnder_le

variable (log : Log H)

theorem Log.clippedHash_of_complete (h : (index + 1) * 2 ^ level ≤ size) :
    log.clippedHash size level index = log.subtreeHash level index := by
  rw [Log.clippedHash, leavesUnder_of_complete h, log.treeHash_complete]

theorem Log.clippedHash_root (h : size ≤ 2 ^ level) :
    log.clippedHash size level 0 = log.treeHash 0 size := by
  rw [Log.clippedHash, leavesUnder_root h, Nat.zero_mul]

theorem Log.clippedHash_succ_of_le (h : size ≤ (2 * index + 1) * 2 ^ level) :
    log.clippedHash size (level + 1) index = log.clippedHash size level (2 * index) := by
  rw [Log.clippedHash, Log.clippedHash, leavesUnder_succ_of_le h, mul_two_pow_succ]

theorem Log.clippedHash_succ_of_lt (h : (2 * index + 1) * 2 ^ level < size) :
    log.clippedHash size (level + 1) index =
      log.combine (log.clippedHash size level (2 * index))
        (log.clippedHash size level (2 * index + 1)) := by
  have hpos := leavesUnder_pos h
  have hwhole := leavesUnder_succ_of_lt h
  rw [Log.clippedHash, log.treeHash_split (by omega) leavesUnder_le, hwhole, Nat.add_sub_cancel_left,
    mul_two_pow_succ, ← Nat.add_one_mul, Log.clippedHash, leavesUnder_of_complete h.le]
  rfl

end

end MerkleLog
