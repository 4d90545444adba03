import Mathlib.Data.List.Basic
import MerkleLog.Proofs.ClippedTree

namespace MerkleLog

universe u

variable {H : Type u}

theorem xor_one_of_even {n : Nat} (h : n % 2 = 0) : n ^^^ 1 = n + 1 :=
  Nat.xor_one_of_even (Nat.even_iff.mpr h)

theorem xor_one_of_odd {n : Nat} (h : n % 2 = 1) : n ^^^ 1 = n - 1 :=
  Nat.xor_one_of_odd (Nat.odd_iff.mpr h)

theorem filterMap_eq_map_filter {α β : Type*} {xs : List α} {g : α → Option β} {p : α → Bool}
    {f : α → β} (h : ∀ x ∈ xs, g x = if p x then some (f x) else none) :
    xs.filterMap g = (xs.filter p).map f := by
  induction xs with
  | nil => rfl
  | cons x xs ih =>
    have hx := h x List.mem_cons_self
    have hrest := ih fun y hy => h y (List.mem_cons_of_mem x hy)
    cases hp : p x with
    | true => simp [hx, hp, hrest]
    | false => simp [hx, hp, hrest]

/-- The hash of the sibling of the node at a level of the path up from a leaf, unless none of the
first `size` leaves is under it. -/
def Log.siblingHash? (log : Log H) (size leaf level : Nat) : Option H :=
  let sibling := leaf / 2 ^ level ^^^ 1
  if sibling * 2 ^ level < size then some (log.clippedHash size level sibling) else none

/-- The hashes of the siblings that a climb of `count` levels passes, lowest first. -/
def Log.siblingHashes (log : Log H) (size leaf bottom count : Nat) : List H :=
  (List.range' bottom count).filterMap (log.siblingHash? size leaf)

variable (log : Log H) {size leaf level : Nat}

theorem Log.siblingHashes_append (size leaf bottom lower upper : Nat) :
    log.siblingHashes size leaf bottom lower ++ log.siblingHashes size leaf (bottom + lower) upper =
      log.siblingHashes size leaf bottom (lower + upper) := by
  rw [Log.siblingHashes, Log.siblingHashes, ← List.filterMap_append, List.range'_append_1]
  rfl

theorem Log.siblingHashes_succ (size leaf bottom count : Nat) :
    log.siblingHashes size leaf bottom (count + 1) =
      log.siblingHashes size leaf bottom count ++ (log.siblingHash? size leaf (bottom + count)).toList := by
  have hlast : log.siblingHashes size leaf (bottom + count) 1 =
      (log.siblingHash? size leaf (bottom + count)).toList := by
    cases hs : log.siblingHash? size leaf (bottom + count) with
    | none => simp [Log.siblingHashes, hs]
    | some h => simp [Log.siblingHashes, hs]
  rw [← log.siblingHashes_append size leaf bottom count 1, hlast]

theorem Log.siblingHashes_congr {a b bottom count : Nat} (h : a / 2 ^ bottom = b / 2 ^ bottom) :
    log.siblingHashes size a bottom count = log.siblingHashes size b bottom count := by
  apply List.filterMap_congr
  intro level hl
  rw [Log.siblingHash?, Log.siblingHash?, div_two_pow_congr (List.mem_range'_1.mp hl).1 h]

/-- A left sibling is complete, whatever the size of the tree. -/
theorem Log.siblingHash?_of_odd (h : leaf < size) (hodd : leaf / 2 ^ level % 2 = 1) :
    log.siblingHash? size leaf level = some (log.subtreeHash level (leaf / 2 ^ level - 1)) := by
  have hle := Nat.div_mul_le_self leaf (2 ^ level)
  have hpos := Nat.two_pow_pos level
  have hnext := Nat.sub_add_cancel (one_le_of_odd hodd)
  have hlt : (leaf / 2 ^ level - 1) * 2 ^ level < size := by
    rw [Nat.sub_mul]
    omega
  rw [Log.siblingHash?, xor_one_of_odd hodd]
  simp only [if_pos hlt]
  rw [log.clippedHash_of_complete (by rw [hnext]; omega)]

theorem Log.siblingHash?_of_even_of_lt (heven : leaf / 2 ^ level % 2 = 0)
    (h : (leaf / 2 ^ level + 1) * 2 ^ level < size) :
    log.siblingHash? size leaf level = some (log.clippedHash size level (leaf / 2 ^ level + 1)) := by
  rw [Log.siblingHash?, xor_one_of_even heven]
  exact if_pos h

theorem Log.siblingHash?_of_even_of_le (heven : leaf / 2 ^ level % 2 = 0)
    (h : size ≤ (leaf / 2 ^ level + 1) * 2 ^ level) : log.siblingHash? size leaf level = none := by
  rw [Log.siblingHash?, xor_one_of_even heven]
  exact if_neg (Nat.not_lt.mpr h)

theorem Log.siblingHash?_of_border (h : leaf < size) (hb : size ≤ (leaf / 2 ^ level + 1) * 2 ^ level) :
    log.siblingHash? size leaf level =
      if leaf.testBit level then some (log.subtreeHash level (leaf / 2 ^ level - 1)) else none := by
  rcases Nat.mod_two_eq_zero_or_one (leaf / 2 ^ level) with hd | hd
  · rw [log.siblingHash?_of_even_of_le hd hb, testBit_eq_false_iff.mpr hd]
    rfl
  · rw [log.siblingHash?_of_odd h hd, if_pos (testBit_eq_true_iff.mpr hd)]

theorem Log.clippedHash_step_of_odd (h : leaf < size) (hodd : leaf / 2 ^ level % 2 = 1) :
    log.clippedHash size (level + 1) (leaf / 2 ^ (level + 1)) =
      log.combine (log.subtreeHash level (leaf / 2 ^ level - 1))
        (log.clippedHash size level (leaf / 2 ^ level)) := by
  have hle := Nat.div_mul_le_self leaf (2 ^ level)
  have hparent := div_two_pow_succ leaf level
  have hindex : 2 * (leaf / 2 ^ (level + 1)) + 1 = leaf / 2 ^ level := by omega
  have hfirst : 2 * (leaf / 2 ^ (level + 1)) = leaf / 2 ^ level - 1 := by omega
  have hcover : (leaf / 2 ^ level - 1 + 1) * 2 ^ level ≤ size := by
    rw [Nat.sub_add_cancel (one_le_of_odd hodd)]
    omega
  rw [log.clippedHash_succ_of_lt (by rw [hindex]; omega), hindex, hfirst,
    log.clippedHash_of_complete hcover]

theorem Log.clippedHash_step_of_even_of_lt (heven : leaf / 2 ^ level % 2 = 0)
    (h : (leaf / 2 ^ level + 1) * 2 ^ level < size) :
    log.clippedHash size (level + 1) (leaf / 2 ^ (level + 1)) =
      log.combine (log.clippedHash size level (leaf / 2 ^ level))
        (log.clippedHash size level (leaf / 2 ^ level + 1)) := by
  have hparent := div_two_pow_succ leaf level
  have hindex : 2 * (leaf / 2 ^ (level + 1)) = leaf / 2 ^ level := by omega
  rw [log.clippedHash_succ_of_lt (by rwa [hindex]), hindex]

theorem Log.clippedHash_step_of_even_of_le (heven : leaf / 2 ^ level % 2 = 0)
    (h : size ≤ (leaf / 2 ^ level + 1) * 2 ^ level) :
    log.clippedHash size (level + 1) (leaf / 2 ^ (level + 1)) =
      log.clippedHash size level (leaf / 2 ^ level) := by
  have hparent := div_two_pow_succ leaf level
  have hindex : 2 * (leaf / 2 ^ (level + 1)) = leaf / 2 ^ level := by omega
  rw [log.clippedHash_succ_of_le (by rwa [hindex]), hindex]

end MerkleLog
