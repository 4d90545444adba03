import Mathlib.Data.Nat.Bitwise
import Mathlib.Tactic.Ring
import MerkleLog.Word

namespace MerkleLog

/-- Two numbers agree from a place on exactly when their difference in digits ends below it. -/
theorem xor_lt_two_pow_iff {x y place : Nat} :
    x ^^^ y < 2 ^ place ↔ x / 2 ^ place = y / 2 ^ place := by
  rw [← Nat.div_eq_zero_iff_lt (Nat.two_pow_pos place), Nat.xor_div_two_pow]
  exact Nat.xor_eq_zero_iff

theorem one_le_of_odd {n : Nat} (h : n % 2 = 1) : 1 ≤ n := by
  omega

theorem div_two_pow_succ (n place : Nat) : n / 2 ^ (place + 1) = n / 2 ^ place / 2 := by
  rw [pow_succ, Nat.div_div_eq_div_mul]

theorem div_two_pow_congr {x y low high : Nat} (h : low ≤ high) (heq : x / 2 ^ low = y / 2 ^ low) :
    x / 2 ^ high = y / 2 ^ high := by
  obtain ⟨k, rfl⟩ := Nat.exists_eq_add_of_le h
  rw [pow_add, ← Nat.div_div_eq_div_mul, ← Nat.div_div_eq_div_mul, heq]

theorem lt_succ_div_mul (n place : Nat) : n < (n / 2 ^ place + 1) * 2 ^ place := by
  rw [Nat.mul_comm]
  exact Nat.lt_mul_div_succ n (Nat.two_pow_pos place)

/-- What one more digit adds to a number that is cut off below it. -/
theorem div_mul_two_pow (n place : Nat) :
    n / 2 ^ place * 2 ^ place =
      n / 2 ^ (place + 1) * 2 ^ (place + 1) + n / 2 ^ place % 2 * 2 ^ place := by
  have hparent := div_two_pow_succ n place
  have hdigit := Nat.div_add_mod (n / 2 ^ place) 2
  calc n / 2 ^ place * 2 ^ place
      = (2 * (n / 2 ^ place / 2) + n / 2 ^ place % 2) * 2 ^ place := by rw [hdigit]
    _ = n / 2 ^ (place + 1) * 2 ^ (place + 1) + n / 2 ^ place % 2 * 2 ^ place := by
      rw [hparent, pow_succ]
      ring

theorem succ_div_mul_of_odd {n place : Nat} (h : n / 2 ^ place % 2 = 1) :
    (n / 2 ^ (place + 1) + 1) * 2 ^ (place + 1) = (n / 2 ^ place + 1) * 2 ^ place := by
  have hcut := div_mul_two_pow n place
  rw [h, Nat.one_mul] at hcut
  rw [Nat.add_mul, Nat.add_mul, hcut, pow_succ]
  omega

theorem succ_div_mul_of_even {n place : Nat} (h : n / 2 ^ place % 2 = 0) :
    (n / 2 ^ (place + 1) + 1) * 2 ^ (place + 1) = (n / 2 ^ place + 1) * 2 ^ place + 2 ^ place := by
  have hcut := div_mul_two_pow n place
  rw [h, Nat.zero_mul] at hcut
  rw [Nat.add_mul, Nat.add_mul, hcut, pow_succ]
  omega

theorem succ_div_mul_le {n m place : Nat} (h : n < m) (hd : 2 ^ place ∣ m) :
    (n / 2 ^ place + 1) * 2 ^ place ≤ m := by
  obtain ⟨k, rfl⟩ := hd
  have hlt : n / 2 ^ place < k := Nat.div_lt_of_lt_mul h
  rw [Nat.mul_comm (2 ^ place)]
  exact Nat.mul_le_mul_right _ hlt

theorem mod_two_pow_succ (n place : Nat) :
    n % 2 ^ (place + 1) = n % 2 ^ place + 2 ^ place * (n / 2 ^ place % 2) := by
  rw [pow_succ, Nat.mod_mul]

theorem mod_two_pow_succ_of_even {n place : Nat} (h : n / 2 ^ place % 2 = 0) :
    n % 2 ^ (place + 1) = n % 2 ^ place := by
  rw [mod_two_pow_succ, h]
  rfl

theorem mod_two_pow_succ_of_odd {n place : Nat} (h : n / 2 ^ place % 2 = 1) :
    n % 2 ^ (place + 1) = n % 2 ^ place + 2 ^ place := by
  rw [mod_two_pow_succ, h, Nat.mul_one]

theorem testBit_eq_true_iff {n place : Nat} : n.testBit place = true ↔ n / 2 ^ place % 2 = 1 := by
  rw [Nat.testBit_eq_decide_div_mod_eq, decide_eq_true_iff]

theorem testBit_eq_false_iff {n place : Nat} :
    n.testBit place = false ↔ n / 2 ^ place % 2 = 0 := by
  rw [← Bool.not_eq_true, testBit_eq_true_iff]
  exact Nat.mod_two_ne_one

/-- The last leaf under a node has the node's path above it and a path of right children below. -/
theorem lastLeaf_div (level index : Nat) : ((index + 1) * 2 ^ level - 1) / 2 ^ level = index := by
  have hpos := Nat.two_pow_pos level
  apply Nat.div_eq_of_lt_le
  · rw [Nat.add_mul]
    omega
  · have : 0 < (index + 1) * 2 ^ level := Nat.mul_pos (Nat.succ_pos index) hpos
    omega

theorem firstLeaf_div (level index : Nat) :
    index * 2 ^ level / 2 ^ level = ((index + 1) * 2 ^ level - 1) / 2 ^ level := by
  rw [lastLeaf_div, Nat.mul_div_cancel _ (Nat.two_pow_pos level)]

theorem lastLeaf_mod (level index : Nat) :
    ((index + 1) * 2 ^ level - 1) % 2 ^ level + 1 = 2 ^ level := by
  have hpos := Nat.two_pow_pos level
  have hsplit := Nat.div_add_mod ((index + 1) * 2 ^ level - 1) (2 ^ level)
  rw [lastLeaf_div, Nat.mul_comm] at hsplit
  rw [Nat.add_one_mul] at hsplit ⊢
  omega

theorem lastLeaf_testBit {level index place : Nat} (h : place < level) :
    ((index + 1) * 2 ^ level - 1).testBit place = true := by
  have hsplit : (index + 1) * 2 ^ level - 1 = 2 ^ level * index + (2 ^ level - 1) := by
    have := Nat.two_pow_pos level
    rw [Nat.add_mul, Nat.mul_comm index]
    omega
  rw [hsplit, Nat.testBit_two_pow_mul_add _ (Nat.sub_lt (Nat.two_pow_pos level) Nat.one_pos), if_pos h,
    Nat.testBit_two_pow_sub_one, decide_eq_true h]

theorem firstLeaf_testBit {level index place : Nat} (h : place < level) :
    (index * 2 ^ level).testBit place = false := by
  rw [Nat.mul_comm, Nat.testBit_two_pow_mul, decide_eq_false (by omega), Bool.false_and]

theorem bitLength_le_iff {n place : Nat} : bitLength n ≤ place ↔ n < 2 ^ place := by
  unfold bitLength
  split
  next h =>
    have := Nat.two_pow_pos place
    omega
  next h => rw [← Nat.log2_lt h]; rfl

theorem le_two_pow_bitLength {n : Nat} : n ≤ 2 ^ bitLength (n - 1) := by
  have hlt : n - 1 < 2 ^ bitLength (n - 1) := bitLength_le_iff.mp (Nat.le_refl _)
  omega

theorem bitLength_xor_le_iff {x y place : Nat} :
    bitLength (x ^^^ y) ≤ place ↔ x / 2 ^ place = y / 2 ^ place :=
  bitLength_le_iff.trans xor_lt_two_pow_iff

theorem popCount_div_two_pow {n bottom count : Nat} (h : n < 2 ^ (bottom + count)) :
    popCount (n / 2 ^ bottom) = ((List.range' bottom count).filter n.testBit).length := by
  induction count generalizing bottom with
  | zero =>
    rw [Nat.add_zero] at h
    simp [Nat.div_eq_of_lt h]
  | succ count ih =>
    have hrest := ih (by rwa [show bottom + 1 + count = bottom + (count + 1) by omega])
    rw [popCount_eq, ← div_two_pow_succ, hrest, List.range'_succ, List.filter_cons]
    rcases Nat.mod_two_eq_zero_or_one (n / 2 ^ bottom) with hd | hd
    · simp [testBit_eq_true_iff, hd]
    · simp [testBit_eq_true_iff, hd, Nat.add_comm]

theorem lowestBit_factor {n : Nat} (h : 0 < n) : ∃ q, n = (2 * q + 1) * 2 ^ lowestBit n := by
  induction n using Nat.strongRecOn with
  | ind n ih =>
    rw [lowestBit]
    split
    next hd =>
      refine ⟨n / 2, ?_⟩
      rw [pow_zero]
      omega
    next hd =>
      obtain ⟨q, hq⟩ := ih (n / 2) (by omega) (by omega)
      refine ⟨q, ?_⟩
      rw [pow_succ, ← mul_assoc, ← hq]
      omega

theorem odd_mul_two_pow_sub {q bottom : Nat} :
    (2 * q + 1) * 2 ^ bottom - 2 ^ bottom = 2 * q * 2 ^ bottom := by
  rw [Nat.add_one_mul (2 * q), Nat.add_sub_cancel]

theorem odd_mul_two_pow_lt {q bottom width : Nat} (h : (2 * q + 1) * 2 ^ bottom < 2 ^ width) :
    bottom < width ∧ 2 * q < 2 ^ width := by
  have hpow := Nat.le_mul_of_pos_left (2 ^ bottom) (Nat.succ_pos (2 * q))
  have hodd := Nat.le_mul_of_pos_right (2 * q + 1) (Nat.two_pow_pos bottom)
  exact ⟨(Nat.pow_lt_pow_iff_right (by decide)).mp (Nat.lt_of_le_of_lt hpow h), by omega⟩

theorem odd_mul_two_pow_eq_iff {q bottom : Nat} : (2 * q + 1) * 2 ^ bottom = 2 ^ bottom ↔ q = 0 := by
  rw [Nat.mul_eq_right (Nat.two_pow_pos bottom).ne']
  omega

theorem odd_mul_two_pow_eq_two_pow_iff {q bottom : Nat} :
    (∃ k, (2 * q + 1) * 2 ^ bottom = 2 ^ k) ↔ q = 0 := by
  constructor
  · rintro ⟨k, hk⟩
    rcases Nat.lt_or_ge bottom k with hlt | hle
    · obtain ⟨j, rfl⟩ := Nat.exists_eq_add_of_lt hlt
      rw [Nat.add_assoc, pow_add, pow_succ, Nat.mul_comm] at hk
      have hcancel := Nat.eq_of_mul_eq_mul_left (Nat.two_pow_pos bottom) hk
      omega
    · have hpow : 2 ^ k ≤ 2 ^ bottom := Nat.pow_le_pow_right (by decide) hle
      have hmul := Nat.le_mul_of_pos_left (2 ^ bottom) (Nat.succ_pos (2 * q))
      exact odd_mul_two_pow_eq_iff.mp (Nat.le_antisymm (hk.trans_le hpow) hmul)
  · intro hq
    exact ⟨bottom, odd_mul_two_pow_eq_iff.mpr hq⟩

end MerkleLog
