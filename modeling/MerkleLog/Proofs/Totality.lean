import MerkleLog.Proofs.CoverRow
import MerkleLog.Proofs.RequestPlan

namespace MerkleLog

/-- The computation of a cover goes through: the digits compared for the fork differ, the parts add up
to the interval, and both loops stay among the words. The second finds a highest one as long as it looks
for one, and ends where the interval does. -/
structure Span.CoverComputed (s : Span) (slopes : Slopes) (nodes : List Node) : Prop where
  slopes_eq : s.slopes = .ok slopes
  coverSize_eq : s.coverSize = .ok nodes.length
  cover_eq : s.cover = .ok nodes
  fork : 0 < s.start →
    (s.start - 1) ^^^ s.stop ≠ 0 ∧ ((s.start - 1) ^^^ s.stop).toNat.log2 < 64
  sum : s.start.toNat + slopes.rising.toNat + slopes.falling.toNat = s.stop.toNat
  loops : ∃ turn rising falling, layRising s.start slopes.rising = .ok (rising, turn) ∧
    layFalling turn slopes.falling = .ok (falling, s.stop) ∧ nodes = rising ++ falling
  level_lt : ∀ n ∈ nodes, n.level.toNat < 64

/-- The computation of a plan goes through: the leaves under the first node are exact and inside the
tree, which is not empty and has a fork, and each interval that is covered begins before it ends. The
climb reads neither list past its end, and has read all of both when it is over. What it lists is no less
than the border that is subtracted from it. -/
structure Climb.PlanComputed (c : Climb) (s : Span) (slopes : Slopes) : Prop where
  span_eq : c.node.span = .ok s
  start_exact : s.start.toNat = c.node.index.toNat * 2 ^ c.node.level.toNat
  stop_exact : s.stop.toNat = (c.node.index.toNat + 1) * 2 ^ c.node.level.toNat
  level_lt : c.node.level.toNat < 64
  inside : s.stop ≤ c.size
  size_pos : 0 < c.size
  fork : s.start ^^^ c.size ≠ 0
  slopes_eq : Span.slopes ⟨s.stop, c.size⟩ = .ok slopes
  turn_le : s.stop.toNat + slopes.rising.toNat ≤ c.size.toNat
  left : ∃ nodes, Span.cover ⟨0, s.start⟩ = .ok nodes
  middle : ∃ nodes, Span.cover ⟨s.stop, s.stop + slopes.rising⟩ = .ok nodes
  border : ∃ nodes, Span.cover ⟨s.stop + slopes.rising, c.size⟩ = .ok nodes
  merged : ∃ sides levels m, c.sides = .ok sides ∧ c.levels = .ok levels ∧
    levels.foldlM sides.passLevel .start = .ok m ∧
    m.left = sides.left.length ∧ m.middle = sides.middle.length ∧ c.plan = .ok ⟨m.nodes, m.run⟩

theorem Word.xor_ne_zero_of_lt {x y : Word} (h : x < y) : x ^^^ y ≠ 0 := by
  intro hz
  rw [UInt64.xor_eq_zero_iff.mp hz] at h
  exact UInt64.lt_irrefl y h

theorem Word.log2_lt {x : Word} (h : x ≠ 0) : x.toNat.log2 < 64 :=
  (Nat.log2_lt (Word.toNat_ne_zero h)).mpr x.toNat_lt

theorem Span.exists_coverComputed {s : Span} (h : s.start ≤ s.stop) :
    ∃ slopes nodes, s.CoverComputed slopes nodes := by
  obtain ⟨nodes, hcover, -⟩ := Span.exists_cover h
  obtain ⟨slopes, turn, rising, falling, hslopes, hrise, hfall, hnodes⟩ := Span.rows_of_cover hcover
  refine ⟨slopes, nodes, hslopes, Span.coverSize_of_cover hcover, hcover, ?_,
    Span.slopes_sum h hslopes, ⟨turn, rising, falling, hrise, hfall, hnodes⟩, ?_⟩
  · -- the leaf before the interval is less than its end, also if the interval is empty
    intro hpos
    have hne := Word.xor_ne_zero_of_lt (Word.sub_one_lt hpos h)
    exact ⟨hne, Word.log2_lt hne⟩
  · intro n hn
    rw [hnodes, List.mem_append] at hn
    rcases hn with hn | hn
    · have hlevel : n.level.toNat ∈ levelsOf rising := List.mem_map.mpr ⟨n, hn, rfl⟩
      rw [levelsOf_of_layRising hrise, mem_setBits] at hlevel
      exact Word.place_lt hlevel
    · have hlevel : n.level.toNat ∈ levelsOf falling := List.mem_map.mpr ⟨n, hn, rfl⟩
      rw [levelsOf_of_layFalling hfall, List.mem_reverse, mem_setBits] at hlevel
      exact Word.place_lt hlevel

theorem Span.error_of_inverted {s : Span} (h : s.stop < s.start) :
    s.slopes = .error (.invertedSpan s.start s.stop) ∧
      s.coverSize = .error (.invertedSpan s.start s.stop) ∧
      s.cover = .error (.invertedSpan s.start s.stop) := by
  have hslopes : s.slopes = .error (.invertedSpan s.start s.stop) := if_pos h
  refine ⟨hslopes, ?_, ?_⟩
  · rw [Span.coverSize, hslopes]
    rfl
  · rw [Span.cover, hslopes]
    rfl

theorem Climb.exists_planComputed {c : Climb}
    (h : (c.node.index.toNat + 1) * 2 ^ c.node.level.toNat ≤ c.size.toNat) :
    ∃ s slopes, c.PlanComputed s slopes := by
  obtain ⟨s, hspan⟩ := Node.exists_span (Nat.lt_of_le_of_lt h c.size.toNat_lt)
  obtain ⟨hstart, hstop⟩ := Node.span_eq_ok_iff.mp hspan
  have hlt : s.start < s.stop := by
    rw [UInt64.lt_iff_toNat_lt, hstart, hstop]
    exact Nat.mul_lt_mul_of_pos_right (Nat.lt_succ_self _) (Nat.two_pow_pos _)
  have hinside : s.stop ≤ c.size := by
    rw [UInt64.le_iff_toNat_le, hstop]
    exact h
  have hsize : s.start < c.size := UInt64.lt_of_lt_of_le hlt hinside
  obtain ⟨slopes, nodes, hcomputed⟩ := Span.exists_coverComputed (s := ⟨s.stop, c.size⟩) hinside
  have hsum : s.stop.toNat + slopes.rising.toNat + slopes.falling.toNat = c.size.toNat := hcomputed.sum
  -- the turn is no later than the end of the tree, which is a word
  have hturn : (s.stop + slopes.rising).toNat = s.stop.toNat + slopes.rising.toNat := by
    have hsizeLt := c.size.toNat_lt
    rw [UInt64.toNat_add]
    exact Nat.mod_eq_of_lt (by omega)
  have hrises : s.stop ≤ s.stop + slopes.rising := by
    rw [UInt64.le_iff_toNat_le, hturn]
    exact Nat.le_add_right _ _
  have hfalls : s.stop + slopes.rising ≤ c.size := by
    rw [UInt64.le_iff_toNat_le, hturn]
    omega
  obtain ⟨left, hleft, -⟩ := Span.exists_cover (s := ⟨0, s.start⟩) UInt64.zero_le
  obtain ⟨middle, hmiddle, -⟩ := Span.exists_cover (s := ⟨s.stop, s.stop + slopes.rising⟩) hrises
  obtain ⟨border, hborder, -⟩ := Span.exists_cover (s := ⟨s.stop + slopes.rising, c.size⟩) hfalls
  have hfork := forkAt_log2 (Nat.sub_one_lt_of_le (Node.stop_pos hspan) (UInt64.le_iff_toNat_le.mp hinside))
  obtain ⟨sides, levels, m, hsides, hlevels, hfold, hlistedLeft, hlistedMiddle, hmerged⟩ :=
    Climb.merge_of_fork hspan hinside hfork
  have hplan : c.plan = .ok ⟨m.nodes, m.run⟩ := hmerged ▸ Climb.plan_of_fork hspan hinside hfork
  exact ⟨s, slopes, {
    span_eq := hspan
    start_exact := hstart
    stop_exact := hstop
    level_lt := level_lt_of_stop_lt (Nat.lt_of_le_of_lt h c.size.toNat_lt)
    inside := hinside
    size_pos := UInt64.lt_of_le_of_lt UInt64.zero_le hsize
    fork := Word.xor_ne_zero_of_lt hsize
    slopes_eq := hcomputed.slopes_eq
    turn_le := by omega
    left := ⟨left, hleft⟩
    middle := ⟨middle, hmiddle⟩
    border := ⟨border, hborder⟩
    merged := ⟨sides, levels, m, hsides, hlevels, hfold, hlistedLeft, hlistedMiddle, hplan⟩ }⟩

theorem Request.climb?_fits {r : Request} {c : Climb} (h : r.climb? = .ok (some c)) :
    (c.node.index.toNat + 1) * 2 ^ c.node.level.toNat ≤ c.size.toNat := by
  cases r with
  | inclusion index size =>
    by_cases hlt : index < size
    · rw [Request.climb?, if_pos hlt] at h
      cases h
      rw [UInt8.toNat_zero, pow_zero, Nat.mul_one]
      exact UInt64.lt_iff_toNat_lt.mp hlt
    · rw [Request.climb?, if_neg hlt] at h
      cases h
  | consistency older newer =>
    by_cases hshrunk : newer < older
    · rw [Request.climb?, if_pos hshrunk] at h
      cases h
    · by_cases htrivial : older = newer ∨ older = 0
      · rw [Request.climb?, if_neg hshrunk, if_pos htrivial] at h
        cases h
      · rw [not_or] at htrivial
        have hpos : 0 < older.toNat := UInt64.lt_iff_toNat_lt.mp (UInt64.pos_iff_ne_zero.mpr htrivial.2)
        have hlt : older < newer := UInt64.lt_of_le_of_ne (UInt64.not_lt.mp hshrunk) htrivial.1
        obtain ⟨q, hq⟩ := lowestBit_factor hpos
        obtain ⟨hlevel, hindex⟩ := odd_mul_two_pow_lt (hq ▸ older.toNat_lt)
        cases (climb?_consistency hq rfl hlt).symm.trans h
        rw [Node.ofNat_level (by omega), Node.ofNat_index hindex, ← hq]
        exact (UInt64.lt_iff_toNat_lt.mp hlt).le

/-- Covers and their sizes are computed without a fault, unless the interval is inverted, and plans
for all requests but those that are refused. -/
theorem covers_and_plans_without_fault :
    (∀ s : Span,
      s.start ≤ s.stop ∧ (∃ slopes nodes, s.CoverComputed slopes nodes) ∨
      s.stop < s.start ∧ s.slopes = .error (.invertedSpan s.start s.stop) ∧
        s.coverSize = .error (.invertedSpan s.start s.stop) ∧
        s.cover = .error (.invertedSpan s.start s.stop)) ∧
    (∀ index size : Word,
      index < size ∧ (∃ plan, inclusionPlan index size = .ok plan) ∨
      size ≤ index ∧ inclusionPlan index size = .error (.refused (.leafOutside index size))) ∧
    (∀ older newer : Word,
      older ≤ newer ∧ (∃ plan, consistencyPlan older newer = .ok plan) ∨
      newer < older ∧ consistencyPlan older newer = .error (.refused (.shrunkLog older newer))) ∧
    (∀ (r : Request) (c : Climb), r.climb? = .ok (some c) → ∃ s slopes, c.PlanComputed s slopes) := by
  refine ⟨fun s => ?_, fun index size => ?_, fun older newer => ?_, fun r c h => ?_⟩
  · rcases UInt64.lt_or_le s.stop s.start with h | h
    · exact .inr ⟨h, Span.error_of_inverted h⟩
    · exact .inl ⟨h, Span.exists_coverComputed h⟩
  · rcases UInt64.lt_or_le index size with h | h
    · obtain ⟨d, -, hplan⟩ := inclusionPlan_eq h
      exact .inl ⟨h, _, hplan⟩
    · exact .inr ⟨h, inclusionPlan_refused h⟩
  · rcases UInt64.lt_or_le newer older with h | h
    · exact .inr ⟨h, consistencyPlan_refused h⟩
    · refine .inl ⟨h, ?_⟩
      by_cases htrivial : older = newer ∨ older = 0
      · exact ⟨_, consistencyPlan_trivial h htrivial⟩
      · rw [not_or] at htrivial
        obtain ⟨q, bottom, d, -, -, -, -, hplan⟩ := consistencyPlan_eq
          (UInt64.pos_iff_ne_zero.mpr htrivial.2) (UInt64.lt_of_le_of_ne h htrivial.1)
        exact ⟨_, hplan⟩
  · exact Climb.exists_planComputed (Request.climb?_fits h)

/-- In the largest tree the fork is at the highest digit. -/
theorem covers_and_plans_without_fault_to_last_word :
    (∃ slopes nodes, Span.CoverComputed ⟨1, 18446744073709551615⟩ slopes nodes) ∧
      (Request.consistency 6 18446744073709551615).climb? =
        .ok (some ⟨⟨1, 2⟩, 18446744073709551615⟩) ∧
      ∃ s slopes, Climb.PlanComputed ⟨⟨1, 2⟩, 18446744073709551615⟩ s slopes := by
  obtain ⟨hcovers, -, -, hclimbs⟩ := covers_and_plans_without_fault
  have hordered : ¬ (18446744073709551615 : Word) < 1 := by decide
  have hclimb : (Request.consistency 6 18446744073709551615).climb? =
      .ok (some ⟨⟨1, 2⟩, 18446744073709551615⟩) := by decide +kernel
  have hcover := (hcovers ⟨1, 18446744073709551615⟩).resolve_right fun h => hordered h.1
  exact ⟨hcover.2, hclimb, hclimbs _ _ hclimb⟩

end MerkleLog
