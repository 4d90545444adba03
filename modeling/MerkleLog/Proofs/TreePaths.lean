import MerkleLog.Proofs.SiblingHashes
import MerkleLog.Tree

namespace MerkleLog

universe u

variable {H : Type u} (log : Log H)

section

variable {size level parent : Nat}

theorem one_lt_leavesUnder (hs : (2 * parent + 1) * 2 ^ level < size) :
    1 < leavesUnder size (level + 1) parent := by
  have hfirst := Nat.two_pow_pos level
  have hsecond := leavesUnder_pos hs
  rw [leavesUnder_succ_of_lt hs]
  omega

/-- Under a node with two children, the path to a leaf of one ends with the hash of the other. -/
theorem Log.auditPath_firstChild {index : Nat} (hs : (2 * parent + 1) * 2 ^ level < size)
    (h : index < 2 ^ level) :
    log.auditPath index (parent * 2 ^ (level + 1)) (leavesUnder size (level + 1) parent) =
      log.auditPath index (2 * parent * 2 ^ level) (leavesUnder size level (2 * parent)) ++
        [log.clippedHash size level (2 * parent + 1)] := by
  rw [Log.auditPath, if_pos (one_lt_leavesUnder hs), splitPoint_leavesUnder hs,
    leavesUnder_succ_of_lt hs, mul_two_pow_succ, leavesUnder_of_complete hs.le]
  simp only [if_pos h, Nat.add_sub_cancel_left, ← Nat.add_one_mul, Log.clippedHash]

theorem Log.auditPath_secondChild (index : Nat) (hs : (2 * parent + 1) * 2 ^ level < size) :
    log.auditPath (index + 2 ^ level) (parent * 2 ^ (level + 1)) (leavesUnder size (level + 1) parent) =
      log.auditPath index ((2 * parent + 1) * 2 ^ level) (leavesUnder size level (2 * parent + 1)) ++
        [log.subtreeHash level (2 * parent)] := by
  have hright : ¬ index + 2 ^ level < 2 ^ level := Nat.not_lt.mpr (Nat.le_add_left _ _)
  rw [Log.auditPath, if_pos (one_lt_leavesUnder hs), splitPoint_leavesUnder hs,
    leavesUnder_succ_of_lt hs, mul_two_pow_succ]
  simp only [if_neg hright, Nat.add_sub_cancel, Nat.add_sub_cancel_left, ← Nat.add_one_mul,
    log.treeHash_complete]

theorem Log.subproof_firstChild {m : Nat} (whole : Bool) (hs : (2 * parent + 1) * 2 ^ level < size)
    (hm : m < leavesUnder size (level + 1) parent) (h : m ≤ 2 ^ level) :
    log.subproof m (parent * 2 ^ (level + 1)) (leavesUnder size (level + 1) parent) whole =
      log.subproof m (2 * parent * 2 ^ level) (leavesUnder size level (2 * parent)) whole ++
        [log.clippedHash size level (2 * parent + 1)] := by
  rw [Log.subproof, if_neg hm.ne, if_pos (one_lt_leavesUnder hs), splitPoint_leavesUnder hs,
    leavesUnder_succ_of_lt hs, mul_two_pow_succ, leavesUnder_of_complete hs.le]
  simp only [if_pos h, Nat.add_sub_cancel_left, ← Nat.add_one_mul, Log.clippedHash]

theorem Log.subproof_secondChild {m : Nat} (whole : Bool) (hs : (2 * parent + 1) * 2 ^ level < size)
    (hm : m + 2 ^ level < leavesUnder size (level + 1) parent) (h : 0 < m) :
    log.subproof (m + 2 ^ level) (parent * 2 ^ (level + 1)) (leavesUnder size (level + 1) parent) whole =
      log.subproof m ((2 * parent + 1) * 2 ^ level) (leavesUnder size level (2 * parent + 1)) false ++
        [log.subtreeHash level (2 * parent)] := by
  have hright : ¬ m + 2 ^ level ≤ 2 ^ level := by omega
  rw [Log.subproof, if_neg hm.ne, if_pos (one_lt_leavesUnder hs), splitPoint_leavesUnder hs,
    leavesUnder_succ_of_lt hs, mul_two_pow_succ]
  simp only [if_neg hright, Nat.add_sub_cancel, Nat.add_sub_cancel_left, ← Nat.add_one_mul,
    log.treeHash_complete]

end

section

variable {size leaf : Nat}

theorem Log.auditPath_under (h : leaf < size) (level : Nat) :
    log.auditPath (leaf % 2 ^ level) (leaf / 2 ^ level * 2 ^ level)
        (leavesUnder size level (leaf / 2 ^ level)) = log.siblingHashes size leaf 0 level := by
  induction level with
  | zero =>
    have hle : leavesUnder size 0 (leaf / 2 ^ 0) ≤ 1 := leavesUnder_le
    rw [Log.auditPath, if_neg (by omega)]
    rfl
  | succ level ih =>
    have hparent := div_two_pow_succ leaf level
    have hlt := Nat.mod_lt leaf (Nat.two_pow_pos level)
    have hself := Nat.div_mul_le_self leaf (2 ^ level)
    generalize hparentIndex : leaf / 2 ^ (level + 1) = parent at hparent
    rw [log.siblingHashes_succ, Nat.zero_add, ← ih]
    rcases Nat.mod_two_eq_zero_or_one (leaf / 2 ^ level) with hd | hd
    · have hindex : leaf / 2 ^ level = 2 * parent := by omega
      have hmod := mod_two_pow_succ_of_even hd
      by_cases hsize : (2 * parent + 1) * 2 ^ level < size
      · rw [log.siblingHash?_of_even_of_lt hd (by rwa [hindex]), hindex, hmod,
          log.auditPath_firstChild hsize hlt]
        rfl
      · -- no leaf is under the second child: the tree is that of the first
        have hle := Nat.le_of_not_lt hsize
        rw [log.siblingHash?_of_even_of_le hd (by rwa [hindex]), hindex, hmod, mul_two_pow_succ,
          leavesUnder_succ_of_le hle, Option.toList_none, List.append_nil]
    · have hindex : leaf / 2 ^ level = 2 * parent + 1 := by omega
      have hmod := mod_two_pow_succ_of_odd hd
      rw [hindex] at hself
      rw [log.siblingHash?_of_odd h hd, hindex, hmod,
        log.auditPath_secondChild _ (Nat.lt_of_le_of_lt hself h), Nat.add_sub_cancel]
      rfl

theorem Log.auditPath_eq {level : Nat} (h : leaf < size) (hs : size ≤ 2 ^ level) :
    log.auditPath leaf 0 size = log.siblingHashes size leaf 0 level := by
  have hlt := Nat.lt_of_lt_of_le h hs
  have hunder := log.auditPath_under h level
  rwa [Nat.div_eq_of_lt hlt, Nat.mod_eq_of_lt hlt, Nat.zero_mul, leavesUnder_root hs] at hunder

end

section

variable {older size bottom q : Nat}

/-- The older tree ends inside the leaves under any node above its last complete subtree. -/
theorem lt_leavesUnder {level : Nat} (ho : older = (2 * q + 1) * 2 ^ bottom) (h : older < size)
    (hl : bottom < level) :
    (older - 1) % 2 ^ level + 1 < leavesUnder size level ((older - 1) / 2 ^ level) := by
  have hsplit := Nat.div_add_mod (older - 1) (2 ^ level)
  have hmod := Nat.mod_lt (older - 1) (Nat.two_pow_pos level)
  have hpos : 0 < older := ho ▸ Nat.mul_pos (Nat.succ_pos _) (Nat.two_pow_pos bottom)
  have hinside : (older - 1) % 2 ^ level + 1 ≠ 2 ^ level := by
    intro hfull
    have hend : older - 1 = ((older - 1) / 2 ^ level + 1) * 2 ^ level - 1 := by
      rw [Nat.add_one_mul, Nat.mul_comm]
      omega
    have hone : (((older - 1) / 2 ^ level + 1) * 2 ^ level - 1).testBit bottom = true :=
      lastLeaf_testBit hl
    rw [← hend, testBit_eq_true_iff, ho, lastLeaf_div] at hone
    omega
  rw [leavesUnder, Nat.lt_min, Nat.mul_comm]
  exact ⟨by omega, by omega⟩

theorem Log.subproof_under (ho : older = (2 * q + 1) * 2 ^ bottom) (h : older < size) (count : Nat)
    (whole : Bool) :
    log.subproof ((older - 1) % 2 ^ (bottom + count) + 1)
        ((older - 1) / 2 ^ (bottom + count) * 2 ^ (bottom + count))
        (leavesUnder size (bottom + count) ((older - 1) / 2 ^ (bottom + count))) whole =
      (if whole ∧ (older - 1) % 2 ^ (bottom + count) + 1 = 2 ^ bottom then []
        else [log.subtreeHash bottom (2 * q)]) ++ log.siblingHashes size (older - 1) bottom count := by
  have hleaf : older - 1 < size := by omega
  induction count generalizing whole with
  | zero =>
    have hdiv : (older - 1) / 2 ^ bottom = 2 * q := by rw [ho, lastLeaf_div]
    have hfull : (older - 1) % 2 ^ bottom + 1 = 2 ^ bottom := by rw [ho, lastLeaf_mod]
    simp only [Nat.add_zero, hdiv, hfull]
    rw [leavesUnder_of_complete (ho ▸ h.le), Log.subproof, if_pos rfl, log.treeHash_complete]
    cases whole with
    | true => rfl
    | false => rfl
  | succ count ih =>
    have hless := lt_leavesUnder ho h (by omega : bottom < bottom + (count + 1))
    rw [← Nat.add_assoc] at hless ⊢
    have hbottom : 2 ^ bottom ≤ 2 ^ (bottom + count) := Nat.pow_le_pow_right (by decide) (by omega)
    rw [log.siblingHashes_succ, ← List.append_assoc]
    generalize bottom + count = level at *
    have hparent := div_two_pow_succ (older - 1) level
    have hlt := Nat.mod_lt (older - 1) (Nat.two_pow_pos level)
    have hself := Nat.div_mul_le_self (older - 1) (2 ^ level)
    generalize hparentIndex : (older - 1) / 2 ^ (level + 1) = parent at hparent hless
    rcases Nat.mod_two_eq_zero_or_one ((older - 1) / 2 ^ level) with hd | hd
    · have hindex : (older - 1) / 2 ^ level = 2 * parent := by omega
      have hmod := mod_two_pow_succ_of_even hd
      rw [hmod] at hless ⊢
      rw [← ih, hindex]
      by_cases hsize : (2 * parent + 1) * 2 ^ level < size
      · rw [log.siblingHash?_of_even_of_lt hd (by rwa [hindex]), hindex,
          log.subproof_firstChild whole hsize hless hlt]
        rfl
      · have hle := Nat.le_of_not_lt hsize
        rw [log.siblingHash?_of_even_of_le hd (by rwa [hindex]), mul_two_pow_succ,
          leavesUnder_succ_of_le hle, Option.toList_none, List.append_nil]
    · -- the older leaves fill the first child, and the older tree is no longer a node of its own
      have hindex : (older - 1) / 2 ^ level = 2 * parent + 1 := by omega
      have hmod := mod_two_pow_succ_of_odd hd
      rw [hindex] at hself
      have hshift : (older - 1) % 2 ^ level + 2 ^ level + 1 = (older - 1) % 2 ^ level + 1 + 2 ^ level :=
        Nat.add_right_comm _ _ _
      have hrest := ih false
      rw [if_neg (by simp)] at hrest
      rw [hmod, hshift] at hless ⊢
      rw [if_neg (by omega), ← hrest, log.siblingHash?_of_odd hleaf hd, hindex,
        log.subproof_secondChild whole (Nat.lt_of_le_of_lt hself hleaf) hless (Nat.succ_pos _),
        Nat.add_sub_cancel]
      rfl

/-- A consistency proof lists the last complete subtree of the older tree, unless it is all of that
tree, and then the siblings on the way up from it. -/
theorem Log.consistencyProof_eq {level : Nat} (ho : older = (2 * q + 1) * 2 ^ bottom)
    (h : older < size) (hs : size ≤ 2 ^ level) :
    log.consistencyProof older size =
      (if q = 0 then [] else [log.subtreeHash bottom (2 * q)]) ++
        log.siblingHashes size (older - 1) bottom (level - bottom) := by
  have hpos : 0 < older := ho ▸ Nat.mul_pos (Nat.succ_pos _) (Nat.two_pow_pos bottom)
  obtain ⟨hlt, -⟩ := odd_mul_two_pow_lt (ho ▸ Nat.lt_of_lt_of_le h hs)
  obtain ⟨count, rfl⟩ := Nat.exists_eq_add_of_le hlt.le
  have hlt : older - 1 < 2 ^ (bottom + count) := by omega
  have hunder := log.subproof_under ho h count true
  have hwhole : older = 2 ^ bottom ↔ q = 0 := by
    rw [ho]
    exact odd_mul_two_pow_eq_iff
  rw [Nat.div_eq_of_lt hlt, Nat.mod_eq_of_lt hlt, Nat.zero_mul, leavesUnder_root hs,
    Nat.sub_add_cancel hpos] at hunder
  simp only [true_and, hwhole] at hunder
  rw [Log.consistencyProof, hunder, Nat.add_sub_cancel_left]

end

end MerkleLog
