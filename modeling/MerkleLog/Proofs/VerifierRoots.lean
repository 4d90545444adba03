import MerkleLog.Proofs.TreePaths
import MerkleLog.Proofs.VerifierClimb

namespace MerkleLog

universe u

variable {H : Type u} (log : Log H)

theorem turns_le {leaf size height : Nat} (h : leaf < size) (hs : size ≤ 2 ^ height) :
    bitLength (leaf ^^^ (size - 1)) ≤ height := by
  rw [bitLength_xor_le_iff, Nat.div_eq_of_lt (by omega), Nat.div_eq_of_lt (by omega)]

section

variable {size leaf bottom inner border : Nat}

theorem Log.take_siblingHashes (h : leaf < size) (ht : bitLength (leaf ^^^ (size - 1)) = bottom + inner) :
    (log.siblingHashes size leaf bottom (inner + border)).take inner =
      log.siblingHashes size leaf bottom inner := by
  rw [← log.siblingHashes_append,
    List.take_left' (log.length_siblingHashes_of_le_turns h ht.ge)]

theorem Log.drop_siblingHashes (h : leaf < size) (ht : bitLength (leaf ^^^ (size - 1)) = bottom + inner) :
    (log.siblingHashes size leaf bottom (inner + border)).drop inner =
      log.siblingHashes size leaf (bottom + inner) border := by
  rw [← log.siblingHashes_append,
    List.drop_left' (log.length_siblingHashes_of_le_turns h ht.ge)]

theorem Log.length_siblingHashes (h : leaf < size) (hs : size ≤ 2 ^ (bottom + inner + border))
    (ht : bitLength (leaf ^^^ (size - 1)) = bottom + inner) :
    (log.siblingHashes size leaf bottom (inner + border)).length =
      inner + popCount (leaf >>> (bottom + inner)) := by
  rw [← log.siblingHashes_append, List.length_append, log.length_siblingHashes_of_le_turns h ht.ge,
    log.length_siblingHashes_of_turns_le h ht.le (by omega), Nat.shiftRight_eq_div_pow]

theorem Log.climbBorder_to_root (h : leaf < size) (hs : size ≤ 2 ^ (bottom + border))
    (ht : bitLength (leaf ^^^ (size - 1)) ≤ bottom) :
    climbBorder log.combine (log.clippedHash size bottom (leaf / 2 ^ bottom))
        (log.siblingHashes size leaf bottom border) = log.treeHash 0 size := by
  rw [log.climbBorder_siblingHashes h ht, Nat.div_eq_of_lt (by omega), log.clippedHash_root hs]

end

theorem Log.auditRoot_auditPath {index size : Nat} (h : index < size) :
    auditRoot log.combine index size (log.leaf index) (log.auditPath index 0 size) =
      some (log.treeHash 0 size) := by
  obtain ⟨height, hs⟩ : ∃ height, size ≤ 2 ^ height := ⟨size, Nat.lt_two_pow_self.le⟩
  have hleaf : log.clippedHash size 0 index = log.leaf index := by
    apply log.clippedHash_of_complete
    rwa [pow_zero, Nat.mul_one]
  obtain ⟨border, rfl⟩ := Nat.exists_eq_add_of_le (turns_le h hs)
  rw [log.auditPath_eq h hs, auditRoot]
  generalize ht : bitLength (index ^^^ (size - 1)) = inner at hs ⊢
  rw [← Nat.zero_add inner] at ht hs
  have hlength := log.length_siblingHashes h hs ht
  have hclimb := log.climbTurns_siblingHashes h ht.ge
  have hroot := log.climbBorder_to_root h hs ht.le
  rw [Nat.zero_add] at hlength
  rw [pow_zero, Nat.div_one, hleaf] at hclimb
  simp only [if_pos hlength]
  rw [log.take_siblingHashes h ht, log.drop_siblingHashes h ht, hclimb, hroot]

theorem lt_turns {older newer q bottom : Nat} (ho : older = (2 * q + 1) * 2 ^ bottom)
    (h : older < newer) : bottom < bitLength ((older - 1) ^^^ (newer - 1)) := by
  by_contra hle
  have hagree := bitLength_xor_le_iff.mp (Nat.le_of_not_lt hle)
  have hnext : 2 * q + 1 ≤ (newer - 1) / 2 ^ bottom := by
    rw [Nat.le_div_iff_mul_le (Nat.two_pow_pos bottom), ← ho]
    omega
  rw [ho, lastLeaf_div] at hagree
  omega

theorem Log.siblingHashes_border_congr {older newer leaf bottom : Nat} (ho : leaf < older)
    (hn : leaf < newer) (hto : bitLength (leaf ^^^ (older - 1)) ≤ bottom)
    (htn : bitLength (leaf ^^^ (newer - 1)) ≤ bottom) (count : Nat) :
    log.siblingHashes newer leaf bottom count = log.siblingHashes older leaf bottom count := by
  apply List.filterMap_congr
  intro level hl
  rw [List.mem_range'_1] at hl
  rw [log.siblingHash?_of_border hn (le_succ_div_mul_of_turns_le (htn.trans hl.1)),
    log.siblingHash?_of_border ho (le_succ_div_mul_of_turns_le (hto.trans hl.1))]

/-- From the last complete subtree of the older tree the verifier gets to both roots. -/
theorem Log.seededRoots_siblingHashes {older newer q height : Nat}
    (ho : older = (2 * q + 1) * 2 ^ lowestBit older) (h : older < newer) (hs : newer ≤ 2 ^ height) :
    seededRoots log.combine older newer (log.subtreeHash (lowestBit older) (2 * q))
        (log.siblingHashes newer (older - 1) (lowestBit older) (height - lowestBit older)) =
      some (log.treeHash 0 older, log.treeHash 0 newer) := by
  obtain ⟨leaf, rfl⟩ : ∃ leaf, older = leaf + 1 := by
    refine ⟨older - 1, (Nat.sub_add_cancel ?_).symm⟩
    rw [ho]
    exact Nat.mul_pos (Nat.succ_pos _) (Nat.two_pow_pos _)
  have hleaf : leaf < newer := Nat.lt_of_succ_lt h
  have hlt := lt_turns ho h
  rw [seededRoots]
  generalize lowestBit (leaf + 1) = bottom at ho hlt ⊢
  rw [Nat.add_sub_cancel] at hlt ⊢
  obtain ⟨border, rfl⟩ := Nat.exists_eq_add_of_le (turns_le hleaf hs)
  generalize ht : bitLength (leaf ^^^ (newer - 1)) = turns at hlt hs ⊢
  obtain ⟨inner, rfl⟩ := Nat.exists_eq_add_of_le hlt.le
  have hpath : leaf / 2 ^ bottom = 2 * q := by rw [← lastLeaf_div bottom (2 * q), ← ho, Nat.add_sub_cancel]
  have hself : bitLength (leaf ^^^ (leaf + 1 - 1)) ≤ bottom + inner := by
    rw [bitLength_xor_le_iff]
    rfl
  -- the seed is complete in both trees, so both climbs start from its hash
  have holder : log.clippedHash (leaf + 1) bottom (2 * q) = log.subtreeHash bottom (2 * q) :=
    log.clippedHash_of_complete ho.ge
  have hnewer : log.clippedHash newer bottom (2 * q) = log.subtreeHash bottom (2 * q) :=
    log.clippedHash_of_complete (ho ▸ h.le)
  have hturnsOlder := log.climbLeftTurns_siblingHashes hleaf ht.ge
  have hturnsNewer := log.climbTurns_siblingHashes hleaf ht.ge
  have hrootOlder := log.climbBorder_to_root (Nat.lt_succ_self leaf) (h.le.trans hs) hself
  have hrootNewer := log.climbBorder_to_root hleaf hs ht.le
  have hlength := log.length_siblingHashes hleaf hs ht
  rw [hpath, holder] at hturnsOlder
  rw [hpath, hnewer] at hturnsNewer
  rw [Nat.add_assoc, Nat.add_sub_cancel_left, Nat.add_sub_cancel_left]
  simp only [if_pos hlength]
  rw [log.take_siblingHashes hleaf ht, log.drop_siblingHashes hleaf ht, Nat.shiftRight_eq_div_pow, hpath,
    hturnsOlder, hturnsNewer, hrootNewer,
    log.siblingHashes_border_congr (Nat.lt_succ_self leaf) hleaf hself ht.le, hrootOlder]

theorem Log.bothRoots_consistencyProof {older newer : Nat} (hpos : 0 < older) (h : older < newer) :
    bothRoots log.combine older newer (log.treeHash 0 older) (log.consistencyProof older newer) =
      some (log.treeHash 0 older, log.treeHash 0 newer) := by
  obtain ⟨height, hs⟩ : ∃ height, newer ≤ 2 ^ height := ⟨newer, Nat.lt_two_pow_self.le⟩
  obtain ⟨q, ho⟩ := lowestBit_factor hpos
  have hroots := log.seededRoots_siblingHashes ho h hs
  rw [log.consistencyProof_eq ho h hs]
  unfold bothRoots
  rw [Nat.one_shiftLeft]
  have hwhole : (2 * q + 1) * 2 ^ lowestBit older = 2 ^ lowestBit older ↔ q = 0 :=
    odd_mul_two_pow_eq_iff
  rw [← ho] at hwhole
  by_cases hq : q = 0
  · have hcomplete := hwhole.mpr hq
    have hseed : log.treeHash 0 older = log.subtreeHash (lowestBit older) (2 * q) := by
      rw [hq, ← log.treeHash_complete, Nat.mul_zero, Nat.zero_mul, ← hcomplete]
    rw [if_pos hcomplete, if_pos hq, List.nil_append]
    rw [← hseed] at hroots
    exact hroots
  · rw [if_neg (mt hwhole.mp hq), if_neg hq]
    exact hroots

end MerkleLog
