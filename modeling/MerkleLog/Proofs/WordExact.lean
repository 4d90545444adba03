import Mathlib.Data.Nat.Bitwise
import MerkleLog.Word

namespace MerkleLog

theorem Word.add_eq_ok_iff {x y z : Word} :
    Word.add x y = .ok z ↔ z.toNat = x.toNat + y.toNat := by
  unfold Word.add
  split
  next h =>
    have hxy : (x + y).toNat = x.toNat + y.toNat := by
      rw [UInt64.toNat_add]
      exact Nat.mod_eq_of_lt h
    rw [Except.ok.injEq, ← UInt64.toNat_inj, hxy]
    exact eq_comm
  next h =>
    have hz : z.toNat < UInt64.size := z.toNat_lt
    simp only [reduceCtorEq, false_iff]
    omega

theorem Word.sub_eq_ok_iff {x y z : Word} :
    Word.sub x y = .ok z ↔ z.toNat + y.toNat = x.toNat := by
  unfold Word.sub
  split
  next h =>
    have hle : y.toNat ≤ x.toNat := h
    have hxy : (x - y).toNat = x.toNat - y.toNat := UInt64.toNat_sub_of_le x y h
    rw [Except.ok.injEq, ← UInt64.toNat_inj, hxy]
    omega
  next h =>
    have hlt : ¬ y.toNat ≤ x.toNat := h
    simp only [reduceCtorEq, false_iff]
    omega

theorem Word.one_le {x : Word} (h : 0 < x.toNat) : 1 ≤ x := by
  rw [UInt64.le_iff_toNat_le]
  exact h

theorem Word.toNat_sub_one {x : Word} (h : 0 < x.toNat) : (x - 1).toNat = x.toNat - 1 :=
  UInt64.toNat_sub_of_le x 1 (Word.one_le h)

theorem Word.sub_one_lt {x y : Word} (hpos : 0 < x) (h : x ≤ y) : x - 1 < y := by
  have hpos' : 0 < x.toNat := UInt64.lt_iff_toNat_lt.mp hpos
  rw [UInt64.lt_iff_toNat_lt, Word.toNat_sub_one hpos']
  exact Nat.sub_one_lt_of_le hpos' (UInt64.le_iff_toNat_le.mp h)

theorem Word.le_sub_one {x y : Word} (h : x < y) : x ≤ y - 1 := by
  rw [UInt64.lt_iff_toNat_lt] at h
  rw [UInt64.le_iff_toNat_le, Word.toNat_sub_one (Nat.zero_lt_of_lt h)]
  exact Nat.le_sub_one_of_lt h

theorem Word.sub_one_eq {x : Word} (h : 0 < x.toNat) : Word.sub x 1 = .ok (x - 1) :=
  if_pos (Word.one_le h)

theorem Word.toNat_ofNat_place {n : Nat} (h : n < 64) : (UInt64.ofNat n).toNat % 64 = n := by
  have hsize : n < UInt64.size := Nat.lt_trans h (by decide)
  rw [UInt64.toNat_ofNat_of_lt' hsize, Nat.mod_eq_of_lt h]

theorem Word.shiftDown_eq_ok_iff {x z : Word} {n : Nat} :
    Word.shiftDown x n = .ok z ↔ n < 64 ∧ z.toNat = x.toNat / 2 ^ n := by
  unfold Word.shiftDown
  split
  next h =>
    have hx : (x >>> UInt64.ofNat n).toNat = x.toNat / 2 ^ n := by
      rw [UInt64.toNat_shiftRight, Word.toNat_ofNat_place h, Nat.shiftRight_eq_div_pow]
    rw [Except.ok.injEq, ← UInt64.toNat_inj, hx]
    exact ⟨fun e => ⟨h, e.symm⟩, fun e => e.2.symm⟩
  next h =>
    simp only [reduceCtorEq, false_iff]
    exact fun e => h e.1

/-- A shift towards the high end succeeds exactly when the product is a word. -/
theorem Word.shiftUp_eq_ok_iff {x z : Word} {n : Nat} :
    Word.shiftUp x n = .ok z ↔ n < 64 ∧ z.toNat = x.toNat * 2 ^ n := by
  unfold Word.shiftUp
  split
  next h =>
    have hmoved : (x <<< UInt64.ofNat n).toNat = x.toNat * 2 ^ n % 2 ^ 64 := by
      rw [UInt64.toNat_shiftLeft, Word.toNat_ofNat_place h, Nat.shiftLeft_eq]
    have hback : (x <<< UInt64.ofNat n >>> UInt64.ofNat n).toNat =
        x.toNat * 2 ^ n % 2 ^ 64 / 2 ^ n := by
      rw [UInt64.toNat_shiftRight, Word.toNat_ofNat_place h, Nat.shiftRight_eq_div_pow, hmoved]
    have hpos : 0 < 2 ^ n := Nat.two_pow_pos n
    have hz : z.toNat < 2 ^ 64 := z.toNat_lt
    have hle : x.toNat * 2 ^ n % 2 ^ 64 ≤ x.toNat * 2 ^ n := Nat.mod_le ..
    simp only [h, true_and]
    split
    next he =>
      have hexact : x.toNat * 2 ^ n % 2 ^ 64 = x.toNat * 2 ^ n := by
        have hq : x.toNat * 2 ^ n % 2 ^ 64 / 2 ^ n = x.toNat := by rw [← hback, he]
        have hm := Nat.div_mul_le_self (x.toNat * 2 ^ n % 2 ^ 64) (2 ^ n)
        rw [hq] at hm
        omega
      rw [Except.ok.injEq, ← UInt64.toNat_inj, hmoved, hexact]
      exact eq_comm
    next he =>
      simp only [reduceCtorEq, false_iff]
      intro e
      apply he
      rw [← UInt64.toNat_inj, hback, Nat.mod_eq_of_lt (by omega), Nat.mul_div_cancel _ hpos]
  next h =>
    simp only [reduceCtorEq, false_iff]
    exact fun e => h e.1

theorem Word.highestBit_eq_ok_iff {x : Word} {n : Nat} :
    Word.highestBit x = .ok n ↔ x ≠ 0 ∧ x.toNat.log2 = n := by
  unfold Word.highestBit
  split
  next h => simp [h]
  next h => simp [h]

end MerkleLog
