import Mathlib.Data.List.Sort
import MerkleLog.Cover
import MerkleLog.Proofs.WordExact

namespace MerkleLog

/-- The places of the ones of a word, lowest first. -/
def setBits (w : Word) : List Nat :=
  (List.range 64).filter w.toNat.testBit

theorem mem_setBits {w : Word} {place : Nat} : place ∈ setBits w ↔ w.toNat.testBit place = true := by
  rw [setBits, List.mem_filter, List.mem_range]
  exact and_iff_right_of_imp Word.place_lt

theorem setBits_sorted (w : Word) : (setBits w).Pairwise (· < ·) :=
  List.Pairwise.filter _ List.pairwise_lt_range

theorem setBits_zero : setBits 0 = [] := by
  rw [setBits, List.filter_eq_nil_iff]
  intro place _
  simp

theorem Word.testBit_flip (w : Word) {place : Nat} (h : place < 64) (i : Nat) :
    (w.flip place).toNat.testBit i = (w.toNat.testBit i ^^ decide (place = i)) := by
  rw [w.toNat_flip h, Nat.testBit_xor, Nat.one_shiftLeft, Nat.testBit_two_pow]

/-- Clearing a one takes its place away and no other. -/
theorem mem_setBits_flip {w : Word} {place i : Nat} (h : w.toNat.testBit place = true) :
    i ∈ setBits (w.flip place) ↔ i ∈ setBits w ∧ i ≠ place := by
  rw [mem_setBits, mem_setBits, w.testBit_flip (Word.place_lt h)]
  by_cases hi : place = i
  · subst hi
    simp [h]
  · simp [hi, Ne.symm hi]

theorem mem_setBits_iff_eq_or_flip {w : Word} {place i : Nat} (h : w.toNat.testBit place = true) :
    i ∈ setBits w ↔ i = place ∨ i ∈ setBits (w.flip place) := by
  rw [mem_setBits_flip h]
  by_cases hi : i = place
  · simp [hi, mem_setBits, h]
  · simp [hi]

theorem lowestBit_le {n place : Nat} (h : n.testBit place = true) : lowestBit n ≤ place := by
  induction n using lowestBit.induct generalizing place with
  | case1 n hn =>
    rw [lowestBit, if_pos hn]
    exact Nat.zero_le _
  | case2 n hn ih =>
    rw [lowestBit, if_neg hn]
    cases place with
    | zero => simp_all [Nat.testBit_zero]
    | succ place => exact Nat.succ_le_succ (ih (by rwa [Nat.testBit_succ] at h))

theorem le_log2_of_testBit {n place : Nat} (h : n.testBit place = true) : place ≤ n.log2 := by
  have hpow := Nat.ge_two_pow_of_testBit h
  exact (Nat.le_log2 fun hz => by simp [hz] at h).mpr hpow

theorem setBits_of_ne_zero {w : Word} (h : w ≠ 0) :
    setBits w = lowestBit w.toNat :: setBits (w.flip (lowestBit w.toNat)) := by
  have hlow := Word.testBit_lowestBit h
  apply (setBits_sorted w).eq_of_mem_iff
  · refine List.pairwise_cons.mpr ⟨fun i hi => ?_, setBits_sorted _⟩
    obtain ⟨hmem, hne⟩ := (mem_setBits_flip hlow).mp hi
    have hle := lowestBit_le (mem_setBits.mp hmem)
    omega
  · intro i
    rw [List.mem_cons]
    exact mem_setBits_iff_eq_or_flip hlow

theorem reverse_setBits_of_highestBit {w : Word} {place : Nat} (h : w.highestBit = .ok place) :
    (setBits w).reverse = place :: (setBits (w.flip place)).reverse := by
  have hhigh := Word.testBit_highestBit h
  have hlog := (Word.highestBit_eq_ok_iff.mp h).2
  rw [← List.reverse_concat, List.reverse_inj]
  apply (setBits_sorted w).eq_of_mem_iff
  · refine List.pairwise_append.mpr ⟨setBits_sorted _, List.pairwise_singleton _ _, fun i hi j hj => ?_⟩
    obtain ⟨hmem, hne⟩ := (mem_setBits_flip hhigh).mp hi
    have hle := le_log2_of_testBit (mem_setBits.mp hmem)
    rw [List.mem_singleton.mp hj]
    omega
  · intro i
    rw [List.mem_append, List.mem_singleton, or_comm]
    exact mem_setBits_iff_eq_or_flip hhigh

/-- Lays subtrees of the given levels side by side from a position on, and says where they end. -/
def layRow (position : Word) : List Nat → Except Fault (List Node × Word)
  | [] => .ok ([], position)
  | level :: levels => do
    let (node, next) ← layNode position level
    let (row, stop) ← layRow next levels
    return (node :: row, stop)

/-- Clearing the lowest one until none is left lays the ones in rising order. -/
theorem layRising_eq (position rest : Word) : layRising position rest = layRow position (setBits rest) := by
  rw [layRising]
  split
  next hzero =>
    rw [hzero, setBits_zero]
    rfl
  next hrest =>
    have ih (next : Word) := layRising_eq next (rest.flip (lowestBit rest.toNat))
    rw [setBits_of_ne_zero hrest, layRow]
    simp only [ih]
termination_by rest.toNat
decreasing_by exact Word.toNat_flip_lt (Word.testBit_lowestBit ‹_›)

/-- Clearing the highest one until none is left lays the ones in falling order. The highest one is
looked for only while there is one. -/
theorem layFalling_eq (position rest : Word) :
    layFalling position rest = layRow position (setBits rest).reverse := by
  rw [layFalling]
  split
  next hzero =>
    rw [hzero, setBits_zero]
    rfl
  next hrest =>
    split
    next fault hfault =>
      have hhigh := Word.highestBit_eq_ok_iff.mpr ⟨hrest, rfl⟩
      cases hhigh.symm.trans hfault
    next place hplace =>
      have ih (next : Word) := layFalling_eq next (rest.flip place)
      rw [reverse_setBits_of_highestBit hplace, layRow]
      simp only [ih]
termination_by rest.toNat
decreasing_by exact Word.toNat_flip_lt (Word.testBit_highestBit ‹_›)

end MerkleLog
