import MerkleLog.Proofs.CoverLoops
import MerkleLog.Proofs.Digits
import MerkleLog.Proofs.NodeSpan

namespace MerkleLog

/-- The subtrees that hang to the right off the path up from a leaf, at `count` levels from
`bottom` on, lowest first. -/
def rightSiblings (leaf bottom count : Nat) : List Node :=
  ((List.range' bottom count).filter fun level => !leaf.testBit level).map
    fun level => Node.ofNat level (leaf / 2 ^ level + 1)

/-- The subtrees that hang to the left off the path up from a leaf. -/
def leftSiblings (leaf bottom count : Nat) : List Node :=
  ((List.range' bottom count).filter leaf.testBit).map
    fun level => Node.ofNat level (leaf / 2 ^ level - 1)

theorem rightSiblings_eq_nil {leaf bottom count : Nat}
    (h : ∀ level, bottom ≤ level → level < bottom + count → leaf.testBit level = true) :
    rightSiblings leaf bottom count = [] := by
  rw [rightSiblings, List.map_eq_nil_iff, List.filter_eq_nil_iff]
  intro level hl
  rw [List.mem_range'_1] at hl
  simp [h level hl.1 hl.2]

theorem leftSiblings_eq_nil {leaf bottom count : Nat}
    (h : ∀ level, bottom ≤ level → level < bottom + count → leaf.testBit level = false) :
    leftSiblings leaf bottom count = [] := by
  rw [leftSiblings, List.map_eq_nil_iff, List.filter_eq_nil_iff]
  intro level hl
  rw [List.mem_range'_1] at hl
  simp [h level hl.1 hl.2]

theorem length_leftSiblings_le (leaf bottom count : Nat) :
    (leftSiblings leaf bottom count).length ≤ count := by
  rw [leftSiblings, List.length_map]
  exact (List.length_filter_le _ _).trans (by rw [List.length_range'])

def levelsOf (nodes : List Node) : List Nat :=
  nodes.map fun n => n.level.toNat

theorem levelsOf_map_ofNat {levels : List Nat} (index : Nat → Nat) (h : ∀ l ∈ levels, l < 256) :
    levelsOf (levels.map fun l => Node.ofNat l (index l)) = levels := by
  rw [levelsOf, List.map_map]
  exact (List.map_congr_left fun l hl => Node.ofNat_level (h l hl)).trans (List.map_id' _)

theorem levelsOf_rightSiblings {leaf bottom count : Nat} (h : bottom + count ≤ 256) :
    levelsOf (rightSiblings leaf bottom count) =
      (List.range' bottom count).filter fun level => !leaf.testBit level := by
  apply levelsOf_map_ofNat
  intro level hl
  have hrange := List.mem_range'_1.mp (List.mem_filter.mp hl).1
  omega

theorem levelsOf_leftSiblings {leaf bottom count : Nat} (h : bottom + count ≤ 256) :
    levelsOf (leftSiblings leaf bottom count) = (List.range' bottom count).filter leaf.testBit := by
  apply levelsOf_map_ofNat
  intro level hl
  have hrange := List.mem_range'_1.mp (List.mem_filter.mp hl).1
  omega

theorem index_of_mem_rightSiblings {leaf bottom count : Nat} {n : Node} (hc : bottom + count ≤ 64)
    (hl : leaf < 2 ^ 64) (h : n ∈ rightSiblings leaf bottom count) :
    n.index.toNat = leaf / 2 ^ n.level.toNat + 1 ∧ n.index.toNat % 2 = 1 := by
  obtain ⟨level, hlevel, rfl⟩ := List.mem_map.mp h
  obtain ⟨hrange, hbit⟩ := List.mem_filter.mp hlevel
  rw [List.mem_range'_1] at hrange
  have heven := testBit_eq_false_iff.mp (Bool.not_eq_true' _ ▸ hbit)
  have hle := Nat.div_le_self leaf (2 ^ level)
  rw [Node.ofNat_level (by omega), Node.ofNat_index (by omega)]
  exact ⟨rfl, by omega⟩

theorem index_of_mem_leftSiblings {leaf bottom count : Nat} {n : Node} (hc : bottom + count ≤ 64)
    (hl : leaf < 2 ^ 64) (h : n ∈ leftSiblings leaf bottom count) :
    n.index.toNat + 1 = leaf / 2 ^ n.level.toNat ∧ n.index.toNat % 2 = 0 := by
  obtain ⟨level, hlevel, rfl⟩ := List.mem_map.mp h
  obtain ⟨hrange, hbit⟩ := List.mem_filter.mp hlevel
  rw [List.mem_range'_1] at hrange
  have hodd := testBit_eq_true_iff.mp hbit
  have hle := Nat.div_le_self leaf (2 ^ level)
  rw [Node.ofNat_level (by omega), Node.ofNat_index (by omega)]
  exact ⟨Nat.sub_add_cancel (one_le_of_odd hodd), by omega⟩

theorem rightSiblings_append (leaf bottom lower upper : Nat) :
    rightSiblings leaf bottom lower ++ rightSiblings leaf (bottom + lower) upper =
      rightSiblings leaf bottom (lower + upper) := by
  simp only [rightSiblings, ← List.map_append, ← List.filter_append, List.range'_append_1]

theorem leftSiblings_append (leaf bottom lower upper : Nat) :
    leftSiblings leaf bottom lower ++ leftSiblings leaf (bottom + lower) upper =
      leftSiblings leaf bottom (lower + upper) := by
  simp only [leftSiblings, ← List.map_append, ← List.filter_append, List.range'_append_1]

theorem leftSiblings_succ (leaf count : Nat) :
    leftSiblings leaf 0 (count + 1) = leftSiblings leaf 0 count ++
      if leaf / 2 ^ count % 2 = 1 then [Node.ofNat count (leaf / 2 ^ count - 1)] else [] := by
  rw [← leftSiblings_append leaf 0 count 1, Nat.zero_add]
  congr 1
  by_cases hd : leaf / 2 ^ count % 2 = 1
  · simp [leftSiblings, testBit_eq_true_iff.mpr hd, hd]
  · simp [leftSiblings, testBit_eq_false_iff.mpr (Nat.mod_two_ne_one.mp hd), hd]

theorem rightSiblings_succ (leaf bottom count : Nat) :
    rightSiblings leaf bottom (count + 1) = rightSiblings leaf bottom count ++
      if leaf / 2 ^ (bottom + count) % 2 = 1 then []
      else [Node.ofNat (bottom + count) (leaf / 2 ^ (bottom + count) + 1)] := by
  rw [← rightSiblings_append leaf bottom count 1]
  congr 1
  by_cases hd : leaf / 2 ^ (bottom + count) % 2 = 1
  · simp [rightSiblings, testBit_eq_true_iff.mpr hd, hd]
  · simp [rightSiblings, testBit_eq_false_iff.mpr (Nat.mod_two_ne_one.mp hd), hd]

theorem leftSiblings_of_lt {leaf bottom height top : Nat} (h : leaf < 2 ^ height)
    (ht : height ≤ top) :
    leftSiblings leaf bottom (height - bottom) = leftSiblings leaf bottom (top - bottom) := by
  have happend := leftSiblings_append leaf bottom (height - bottom) (top - bottom - (height - bottom))
  have hnil : leftSiblings leaf (bottom + (height - bottom)) (top - bottom - (height - bottom)) = [] := by
    apply leftSiblings_eq_nil
    intro level hl _
    exact Nat.testBit_lt_two_pow (Nat.lt_of_lt_of_le h (Nat.pow_le_pow_right (by decide) (by omega)))
  rw [hnil, List.append_nil] at happend
  rw [happend]
  congr 1
  omega

theorem map_filter_congr {α β : Type*} {xs : List α} {p q : α → Bool} {f g : α → β}
    (h : ∀ x ∈ xs, p x = q x ∧ f x = g x) : (xs.filter p).map f = (xs.filter q).map g := by
  rw [List.filter_congr fun x hx => (h x hx).1]
  apply List.map_congr_left
  intro x hx
  exact (h x (List.mem_filter.mp hx).1).2

theorem rightSiblings_congr {a b bottom count : Nat} (h : a / 2 ^ bottom = b / 2 ^ bottom) :
    rightSiblings a bottom count = rightSiblings b bottom count := by
  apply map_filter_congr
  intro level hl
  have hpath := div_two_pow_congr (List.mem_range'_1.mp hl).1 h
  simp only [Nat.testBit_eq_decide_div_mod_eq, hpath, true_and]

theorem leftSiblings_congr {a b bottom count : Nat} (h : a / 2 ^ bottom = b / 2 ^ bottom) :
    leftSiblings a bottom count = leftSiblings b bottom count := by
  apply map_filter_congr
  intro level hl
  have hpath := div_two_pow_congr (List.mem_range'_1.mp hl).1 h
  simp only [Nat.testBit_eq_decide_div_mod_eq, hpath, true_and]

theorem leftSiblings_cons_of_odd {leaf bottom : Nat} (h : leaf / 2 ^ bottom % 2 = 1) (count : Nat) :
    leftSiblings leaf bottom (count + 1) =
      Node.ofNat bottom (leaf / 2 ^ bottom - 1) :: leftSiblings leaf (bottom + 1) count := by
  simp [leftSiblings, List.range'_succ, testBit_eq_true_iff.mpr h]

theorem leftSiblings_cons_of_even {leaf bottom : Nat} (h : leaf / 2 ^ bottom % 2 = 0) (count : Nat) :
    leftSiblings leaf bottom (count + 1) = leftSiblings leaf (bottom + 1) count := by
  simp [leftSiblings, List.range'_succ, testBit_eq_false_iff.mpr h]

theorem rightSiblings_cons_of_odd {leaf bottom : Nat} (h : leaf / 2 ^ bottom % 2 = 1) (count : Nat) :
    rightSiblings leaf bottom (count + 1) = rightSiblings leaf (bottom + 1) count := by
  simp [rightSiblings, List.range'_succ, testBit_eq_true_iff.mpr h]

theorem rightSiblings_cons_of_even {leaf bottom : Nat} (h : leaf / 2 ^ bottom % 2 = 0) (count : Nat) :
    rightSiblings leaf bottom (count + 1) =
      Node.ofNat bottom (leaf / 2 ^ bottom + 1) :: rightSiblings leaf (bottom + 1) count := by
  simp [rightSiblings, List.range'_succ, testBit_eq_false_iff.mpr h]

/-- Below a node no subtree hangs to the left off the path to the first leaf under it. -/
theorem leftSiblings_firstLeaf {index level top : Nat} (h : level ≤ top) :
    leftSiblings (index * 2 ^ level) 0 top = leftSiblings (index * 2 ^ level) level (top - level) := by
  have hbelow : leftSiblings (index * 2 ^ level) 0 level = [] :=
    leftSiblings_eq_nil fun l _ hl => firstLeaf_testBit (by omega)
  have hsplit := leftSiblings_append (index * 2 ^ level) 0 level (top - level)
  rw [hbelow, List.nil_append, Nat.zero_add, Nat.add_sub_cancel' h] at hsplit
  exact hsplit.symm

theorem rightSiblings_lastLeaf {index level d : Nat} (h : level ≤ d) :
    rightSiblings ((index + 1) * 2 ^ level - 1) 0 d =
      rightSiblings (index * 2 ^ level) level (d - level) := by
  have hbelow : rightSiblings ((index + 1) * 2 ^ level - 1) 0 level = [] :=
    rightSiblings_eq_nil fun l _ hl => lastLeaf_testBit (by omega)
  have hpath := (firstLeaf_div level index).symm
  have hsplit := rightSiblings_append ((index + 1) * 2 ^ level - 1) 0 level (d - level)
  rw [hbelow, List.nil_append, Nat.zero_add, Nat.add_sub_cancel' h] at hsplit
  rw [← hsplit, rightSiblings_congr hpath]

theorem layRow_cons {position next stop : Word} {level : Nat} {levels : List Nat} {row : List Node}
    (h : level < 64) (hnext : next.toNat = position.toNat + 2 ^ level)
    (hrow : layRow next levels = .ok (row, stop)) :
    layRow position (level :: levels) =
      .ok (Node.ofNat level (position.toNat / 2 ^ level) :: row, stop) := by
  have hlt : 2 ^ level < UInt64.size := Nat.pow_lt_pow_right (by decide) h
  have hbit : Word.bit level = .ok (UInt64.ofNat (2 ^ level)) := by
    refine Word.shiftUp_eq_ok_iff.mpr ⟨h, ?_⟩
    rw [UInt64.toNat_ofNat_of_lt' hlt]
    exact (Nat.one_mul _).symm
  have hadd : Word.add position (UInt64.ofNat (2 ^ level)) = .ok next := by
    rw [Word.add_eq_ok_iff, hnext, UInt64.toNat_ofNat_of_lt' hlt]
  rw [layRow, layNode, Node.above_eq h, hbit]
  simp only [bind, Except.bind, hadd, hrow, pure, Except.pure]

/-- The right siblings of a leaf stand side by side from the leaf after it on. -/
theorem layRow_rightSiblings {leaf bottom count : Nat} {position turn : Word} (h : bottom + count ≤ 64)
    (hp : position.toNat = (leaf / 2 ^ bottom + 1) * 2 ^ bottom)
    (ht : turn.toNat = (leaf / 2 ^ (bottom + count) + 1) * 2 ^ (bottom + count)) :
    layRow position ((List.range' bottom count).filter fun level => !leaf.testBit level) =
      .ok (rightSiblings leaf bottom count, turn) := by
  induction count generalizing bottom position with
  | zero =>
    have heq : position = turn := UInt64.toNat_inj.mp (hp.trans ht.symm)
    simp [rightSiblings, layRow, heq]
  | succ count ih =>
    rw [show bottom + (count + 1) = bottom + 1 + count by omega] at h ht
    rw [rightSiblings, List.range'_succ, List.filter_cons]
    rcases Nat.mod_two_eq_zero_or_one (leaf / 2 ^ bottom) with hd | hd
    · -- the leaf is under a left child: the sibling is next, and then those of the parent
      have hbit := testBit_eq_false_iff.mpr hd
      have hdvd : 2 ^ (bottom + 1) ∣ turn.toNat := by
        rw [ht, pow_add _ (bottom + 1)]
        exact Dvd.dvd.mul_left (Dvd.intro _ rfl) _
      have hlt : leaf < turn.toNat := by
        rw [ht]
        exact Nat.lt_mul_of_div_lt (Nat.lt_succ_self _) (Nat.two_pow_pos _)
      have hle := Nat.lt_of_le_of_lt (succ_div_mul_le hlt hdvd) turn.toNat_lt
      have hnext := UInt64.toNat_ofNat_of_lt' hle
      have hrow := ih h hnext ht
      have hcons : layRow position (bottom :: _) = _ := layRow_cons (by omega)
        (by rw [hnext, hp, succ_div_mul_of_even hd]) hrow
      rw [hp, Nat.mul_div_cancel _ (Nat.two_pow_pos bottom)] at hcons
      simpa [hbit, rightSiblings] using hcons
    · have hbit := testBit_eq_true_iff.mpr hd
      have hrow := ih h (hp.trans (succ_div_mul_of_odd hd).symm) ht
      simpa [hbit, rightSiblings] using hrow

theorem layRow_leftSiblings {leaf count : Nat} {position : Word} (h : count ≤ 64)
    (hp : position.toNat = leaf / 2 ^ count * 2 ^ count) (hl : leaf < 2 ^ 64) :
    layRow position ((List.range' 0 count).filter leaf.testBit).reverse =
      .ok ((leftSiblings leaf 0 count).reverse, UInt64.ofNat leaf) := by
  induction count generalizing position with
  | zero =>
    have heq : position = UInt64.ofNat leaf := by
      rw [← UInt64.toNat_inj, UInt64.toNat_ofNat_of_lt' hl, hp, pow_zero, Nat.div_one, Nat.mul_one]
    simp [leftSiblings, layRow, heq]
  | succ count ih =>
    have hcut := div_mul_two_pow leaf count
    rw [leftSiblings, List.range'_1_concat, List.filter_append, List.map_append, List.reverse_append,
      List.reverse_append, Nat.zero_add]
    rcases Nat.mod_two_eq_zero_or_one (leaf / 2 ^ count) with hd | hd
    · have hbit := testBit_eq_false_iff.mpr hd
      have hrow := ih (by omega) (by rw [hp, hcut, hd]; omega)
      simpa [hbit, leftSiblings] using hrow
    · have hbit := testBit_eq_true_iff.mpr hd
      have hle := Nat.lt_of_le_of_lt (Nat.div_mul_le_self leaf (2 ^ count)) hl
      have hnext := UInt64.toNat_ofNat_of_lt' hle
      have hrow := ih (by omega) hnext
      have hcons : layRow position (count :: _) = _ := layRow_cons (by omega)
        (by rw [hnext, hp, hcut, hd, Nat.one_mul]) hrow
      have hindex : position.toNat / 2 ^ count = leaf / 2 ^ count - 1 := by
        have heq : position.toNat = (leaf / 2 ^ count - 1) * 2 ^ count := by
          rw [Nat.sub_mul, hcut, hp, hd]
          omega
        rw [heq, Nat.mul_div_cancel _ (Nat.two_pow_pos count)]
      rw [hindex] at hcons
      simpa [hbit, leftSiblings] using hcons

end MerkleLog
