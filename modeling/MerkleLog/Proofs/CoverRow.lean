import MerkleLog.Proofs.Cover
import MerkleLog.Proofs.Tiling

namespace MerkleLog

variable {leaf bottom count : Nat} {n : Node} {s : Span}

/-- The right siblings along a path are a row from the leaf after it to the end of the last parent. -/
theorem rowStop?_rightSiblings
    (h : (leaf / 2 ^ (bottom + count) + 1) * 2 ^ (bottom + count) < 2 ^ 64) :
    rowStop? (.ofNat ((leaf / 2 ^ bottom + 1) * 2 ^ bottom)) (rightSiblings leaf bottom count) =
      some (.ofNat ((leaf / 2 ^ (bottom + count) + 1) * 2 ^ (bottom + count))) := by
  induction count with
  | zero => rfl
  | succ count ih =>
    rw [← Nat.add_assoc] at h ⊢
    rw [rightSiblings_succ]
    rcases Nat.mod_two_eq_zero_or_one (leaf / 2 ^ (bottom + count)) with hd | hd
    · have hnext := succ_div_mul_of_even hd
      have hstop : (leaf / 2 ^ (bottom + count) + 1 + 1) * 2 ^ (bottom + count) =
          (leaf / 2 ^ (bottom + count + 1) + 1) * 2 ^ (bottom + count + 1) := by
        rw [hnext, Nat.add_one_mul (_ + 1)]
      have hspan := Node.span?_ofNat (hstop ▸ h)
      rw [hstop] at hspan
      rw [rowStop?_append (ih (Nat.lt_of_le_of_lt (Nat.le_add_right _ _) (hnext ▸ h))),
        if_neg (by omega)]
      exact rowStop?_cons_eq_some_iff.mpr ⟨_, hspan, rfl⟩
    · have hnext := succ_div_mul_of_odd hd
      rw [rowStop?_append (ih (hnext ▸ h)), if_pos hd, hnext]
      rfl

theorem rowStop?_leftSiblings (hl : leaf < 2 ^ 64) :
    rowStop? (.ofNat (leaf / 2 ^ count * 2 ^ count)) (leftSiblings leaf 0 count).reverse =
      some (.ofNat leaf) := by
  induction count with
  | zero => simp [leftSiblings, rowStop?]
  | succ count ih =>
    have hcut := div_mul_two_pow leaf count
    rw [leftSiblings_succ, List.reverse_append]
    rcases Nat.mod_two_eq_zero_or_one (leaf / 2 ^ count) with hd | hd
    · rw [hd, Nat.zero_mul, Nat.add_zero] at hcut
      rw [if_neg (by omega), ← hcut]
      exact ih
    · rw [hd, Nat.one_mul] at hcut
      have hnext := Nat.sub_add_cancel (one_le_of_odd hd)
      have hstart : (leaf / 2 ^ count - 1) * 2 ^ count = leaf / 2 ^ (count + 1) * 2 ^ (count + 1) := by
        rw [Nat.sub_mul]
        omega
      have hle := Nat.lt_of_le_of_lt (Nat.div_mul_le_self leaf (2 ^ count)) hl
      have hspan : (Node.ofNat count (leaf / 2 ^ count - 1)).span? = _ :=
        Node.span?_ofNat (by rwa [hnext])
      rw [hstart, hnext] at hspan
      rw [if_pos hd, List.reverse_singleton, List.singleton_append]
      exact rowStop?_cons_eq_some_iff.mpr ⟨_, hspan, ih⟩

theorem parentOnPath_of_mem_rightSiblings (hc : bottom + count ≤ 64) (hl : leaf < 2 ^ 64)
    (h : n ∈ rightSiblings leaf bottom count) : n.ParentOnPath leaf := by
  obtain ⟨hindex, hodd⟩ := index_of_mem_rightSiblings hc hl h
  rw [Node.ParentOnPath, div_two_pow_succ]
  omega

theorem parentOnPath_of_mem_leftSiblings (hc : bottom + count ≤ 64) (hl : leaf < 2 ^ 64)
    (h : n ∈ leftSiblings leaf bottom count) : n.ParentOnPath leaf := by
  obtain ⟨hindex, heven⟩ := index_of_mem_leftSiblings hc hl h
  rw [Node.ParentOnPath, div_two_pow_succ]
  omega

/-- A row of nodes over an interval, none of which has a parent inside of it. -/
structure Span.MaximalRow (s : Span) (nodes : List Node) : Prop where
  row : rowStop? s.start nodes = some s.stop
  parent : ∀ n ∈ nodes, ∃ leaf : Word, n.ParentOnPath leaf.toNat ∧ ¬ s.Holds leaf

theorem Span.MaximalRow.tiles {nodes : List Node} (h : s.MaximalRow nodes) : Tiles nodes s.Holds :=
  tiles_of_rowStop? h.row

theorem Span.not_holds_stop : ¬ s.Holds s.stop :=
  fun h => UInt64.lt_irrefl _ h.2

theorem Span.maximalRow_from_origin (stop : Word) :
    Span.MaximalRow ⟨0, stop⟩ (leftSiblings stop.toNat 0 64).reverse := by
  have hstop := stop.toNat_lt
  constructor
  · have hrow : rowStop? (.ofNat (stop.toNat / 2 ^ 64 * 2 ^ 64)) _ = _ := rowStop?_leftSiblings hstop
    rw [Nat.div_eq_of_lt hstop] at hrow
    simpa using hrow
  · intro n hn
    exact ⟨stop, parentOnPath_of_mem_leftSiblings (Nat.le_refl _) hstop (List.mem_reverse.mp hn),
      Span.not_holds_stop⟩

theorem Span.maximalRow_of_fork {d : Nat} (hpos : 0 < s.start.toNat)
    (h : ForkAt (s.start.toNat - 1) s.stop.toNat d) :
    s.MaximalRow (rightSiblings (s.start.toNat - 1) 0 d ++ (leftSiblings s.stop.toNat 0 d).reverse) := by
  have hbefore := Word.toNat_sub_one hpos
  have hstart := s.start.toNat_lt
  have hstop := s.stop.toNat_lt
  have hd := h.level_lt hstop
  have hturn := Nat.div_mul_le_self s.stop.toNat (2 ^ d)
  constructor
  · have hend : ((s.start.toNat - 1) / 2 ^ (0 + d) + 1) * 2 ^ (0 + d) < 2 ^ 64 := by
      rw [Nat.zero_add, ← h.2]
      omega
    have hleft : rowStop? s.start (rightSiblings (s.start.toNat - 1) 0 d) =
        some (.ofNat (s.stop.toNat / 2 ^ d * 2 ^ d)) := by
      simpa [← h.2, Nat.sub_add_cancel hpos] using rowStop?_rightSiblings hend
    rw [rowStop?_append hleft, rowStop?_leftSiblings hstop, UInt64.ofNat_toNat]
  · intro n hn
    rcases List.mem_append.mp hn with hn | hn
    · refine ⟨s.start - 1, ?_, ?_⟩
      · rw [hbefore]
        exact parentOnPath_of_mem_rightSiblings (by omega) (by omega) hn
      · intro hholds
        have := UInt64.le_iff_toNat_le.mp hholds.1
        omega
    · exact ⟨s.stop, parentOnPath_of_mem_leftSiblings (by omega) hstop (List.mem_reverse.mp hn),
        Span.not_holds_stop⟩

/-- Every interval has a cover, which is a row of nodes as large as fit inside of it. -/
theorem Span.exists_cover (h : s.start ≤ s.stop) :
    ∃ nodes, s.cover = .ok nodes ∧ s.MaximalRow nodes := by
  rcases Span.origin_or_fork h with ⟨stop, rfl⟩ | ⟨hpos, d, hfork⟩
  · exact ⟨_, Span.cover_from_origin stop, Span.maximalRow_from_origin stop⟩
  · exact ⟨_, Span.cover_of_fork hpos hfork, Span.maximalRow_of_fork hpos hfork⟩

theorem Span.tiles_of_cover {nodes : List Node} (h : s.start ≤ s.stop) (hcover : s.cover = .ok nodes) :
    Tiles nodes s.Holds := by
  obtain ⟨nodes', hcover', hmax⟩ := Span.exists_cover h
  cases hcover.symm.trans hcover'
  exact hmax.tiles

theorem Span.start_lt_stop_of_cover {nodes : List Node} (h : s.start ≤ s.stop)
    (hcover : s.cover = .ok nodes) (hne : nodes ≠ []) : s.start < s.stop := by
  obtain ⟨nodes', hcover', hmax⟩ := Span.exists_cover h
  cases hcover.symm.trans hcover'
  exact UInt64.lt_of_le_of_ne h (mt (rowStop?_eq_nil_iff hmax.row).mpr hne)

theorem level_of_layNode {position next : Word} {level : Nat} {node : Node}
    (h : layNode position level = .ok (node, next)) : node.level.toNat = level := by
  obtain ⟨placed, hplaced, h⟩ := bind_eq_ok_iff.mp h
  obtain ⟨bit, -, h⟩ := bind_eq_ok_iff.mp h
  obtain ⟨stop, -, h⟩ := bind_eq_ok_iff.mp h
  cases h
  exact Node.level_of_above hplaced

theorem levelsOf_of_layRow {position stop : Word} {levels : List Nat} {row : List Node}
    (h : layRow position levels = .ok (row, stop)) : levelsOf row = levels := by
  induction levels generalizing position row with
  | nil =>
    cases h
    rfl
  | cons level levels ih =>
    obtain ⟨⟨node, next⟩, hplaced, h⟩ := bind_eq_ok_iff.mp h
    obtain ⟨⟨rest, reached⟩, hrest, h⟩ := bind_eq_ok_iff.mp h
    cases h
    rw [levelsOf, List.map_cons, ← levelsOf, ih hrest, level_of_layNode hplaced]

/-- A cover is what the two loops lay, the second from where the first ends to the end of the
interval. -/
theorem Span.rows_of_cover {nodes : List Node} (h : s.cover = .ok nodes) :
    ∃ slopes turn rising falling, s.slopes = .ok slopes ∧
      layRising s.start slopes.rising = .ok (rising, turn) ∧
      layFalling turn slopes.falling = .ok (falling, s.stop) ∧ nodes = rising ++ falling := by
  obtain ⟨slopes, hslopes, h⟩ := bind_eq_ok_iff.mp h
  obtain ⟨⟨rising, turn⟩, hrise, h⟩ := bind_eq_ok_iff.mp h
  obtain ⟨⟨falling, reached⟩, hfall, hend⟩ := bind_eq_ok_iff.mp h
  by_cases heq : reached = s.stop
  · simp only [heq, ↓reduceIte] at hend
    cases hend
    exact ⟨slopes, turn, rising, falling, hslopes, hrise, heq ▸ hfall, rfl⟩
  · simp only [heq, ↓reduceIte] at hend
    cases hend

theorem length_setBits (w : Word) : (setBits w).length = popCount w.toNat := by
  have hcount : popCount (w.toNat / 2 ^ 0) = ((List.range' 0 64).filter w.toNat.testBit).length :=
    popCount_div_two_pow w.toNat_lt
  rw [pow_zero, Nat.div_one, ← List.range_eq_range'] at hcount
  exact hcount.symm

theorem levelsOf_of_layRising {position ones stop : Word} {row : List Node}
    (h : layRising position ones = .ok (row, stop)) : levelsOf row = setBits ones :=
  levelsOf_of_layRow (layRising_eq position ones ▸ h)

theorem levelsOf_of_layFalling {position ones stop : Word} {row : List Node}
    (h : layFalling position ones = .ok (row, stop)) : levelsOf row = (setBits ones).reverse :=
  levelsOf_of_layRow (layFalling_eq position ones ▸ h)

theorem Span.coverSize_of_cover {nodes : List Node} (h : s.cover = .ok nodes) :
    s.coverSize = .ok nodes.length := by
  obtain ⟨slopes, turn, rising, falling, hslopes, hrise, hfall, rfl⟩ := Span.rows_of_cover h
  have hleft := congrArg List.length (levelsOf_of_layRising hrise)
  have hright := congrArg List.length (levelsOf_of_layFalling hfall)
  rw [levelsOf, List.length_map, length_setBits] at hleft
  rw [levelsOf, List.length_map, List.length_reverse, length_setBits] at hright
  rw [Span.coverSize, hslopes, List.length_append, hleft, hright]
  rfl

end MerkleLog
