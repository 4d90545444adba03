import MerkleLog.Proofs.ClimbLoop
import MerkleLog.Proofs.Cover

namespace MerkleLog

theorem ForkAt.level_le {level index size d : Nat} (h : ForkAt ((index + 1) * 2 ^ level - 1) size d)
    (hle : (index + 1) * 2 ^ level ≤ size) : level ≤ d := by
  by_contra hd
  have heq := h.above (Nat.lt_of_not_le hd)
  have hnext : index + 1 ≤ size / 2 ^ level := (Nat.le_div_iff_mul_le (Nat.two_pow_pos level)).mpr hle
  rw [lastLeaf_div] at heq
  omega

theorem Node.firstLeaf_div_eq {n : Node} {s : Span} (h : n.span = .ok s) :
    (s.stop.toNat - 1) / 2 ^ n.level.toNat = s.start.toNat / 2 ^ n.level.toNat := by
  obtain ⟨hstart, hstop⟩ := Node.span_eq_ok_iff.mp h
  rw [hstart, hstop, firstLeaf_div]

theorem Node.stop_pos {n : Node} {s : Span} (h : n.span = .ok s) : 0 < s.stop.toNat := by
  rw [(Node.span_eq_ok_iff.mp h).2]
  exact Nat.mul_pos (Nat.succ_pos _) (Nat.two_pow_pos _)

section

variable {c : Climb} {s : Span} {d : Nat}

theorem Climb.fork_firstLeaf (hspan : c.node.span = .ok s) (hle : s.stop ≤ c.size)
    (h : ForkAt (s.stop.toNat - 1) c.size.toNat d) :
    c.node.level.toNat ≤ d ∧ ForkAt s.start.toNat c.size.toNat d := by
  have hfit := UInt64.le_iff_toNat_le.mp hle
  have hlast := h
  rw [(Node.span_eq_ok_iff.mp hspan).2] at hfit hlast
  have hlevel := hlast.level_le hfit
  exact ⟨hlevel, h.congr_left (div_two_pow_congr hlevel (Node.firstLeaf_div_eq hspan))⟩

/-- The parts of a climb. Below the fork each subtree after the node is a right sibling, and from
there on only the right border is left. -/
theorem Climb.sides_eq (hspan : c.node.span = .ok s) (hle : s.stop ≤ c.size)
    (h : ForkAt (s.stop.toNat - 1) c.size.toNat d) :
    c.sides = .ok ⟨leftSiblings s.start.toNat 0 64,
      rightSiblings s.start.toNat c.node.level.toNat (d - c.node.level.toNat),
      leftSiblings c.size.toNat 0 d, d⟩ := by
  have hpos := Node.stop_pos hspan
  obtain ⟨hlevel, hfork⟩ := Climb.fork_firstLeaf hspan hle h
  obtain ⟨slopes, hslopes, hrise, -⟩ := Span.slopes_of_fork (s := ⟨s.stop, c.size⟩) hpos h
  have hturn := Word.toNat_ofNat_cut c.size d
  have hadd : Word.add s.stop slopes.rising = .ok (.ofNat (c.size.toNat / 2 ^ d * 2 ^ d)) := by
    rw [Word.add_eq_ok_iff, hturn, hrise, ← h.turn, Nat.sub_add_cancel hpos]
  have hhigh : Word.highestBit (s.start ^^^ c.size) = .ok d := by
    rw [Word.highestBit_eq_ok_iff, UInt64.toNat_xor]
    refine ⟨?_, hfork.log2_eq⟩
    intro hz
    have hlt := hfork.lt
    rw [UInt64.xor_eq_zero_iff.mp hz] at hlt
    omega
  have hmiddle : rightSiblings (s.stop.toNat - 1) 0 d =
      rightSiblings s.start.toNat c.node.level.toNat (d - c.node.level.toNat) := by
    rw [(Node.span_eq_ok_iff.mp hspan).1, (Node.span_eq_ok_iff.mp hspan).2]
    exact rightSiblings_lastLeaf hlevel
  rw [Climb.sides, hspan]
  simp only [bind, Except.bind, if_neg (UInt64.not_lt.mpr hle), Span.cover_from_origin, hslopes, hadd,
    Span.cover_to_turn hpos h hturn, Span.cover_from_turn h hturn, hhigh, List.reverse_reverse, hmiddle,
    pure, Except.pure]

end

theorem ForkAt.le_bitLength {a size d : Nat} (h : ForkAt a size d) : d ≤ bitLength (size - 1) := by
  have hpow : 2 ^ d ≤ 2 ^ bitLength (size - 1) := h.two_pow_le.trans le_two_pow_bitLength
  exact (Nat.pow_le_pow_iff_right (by decide)).mp hpow

theorem Word.bitLength_pred_le (w : Word) : bitLength (w.toNat - 1) ≤ 64 :=
  bitLength_le_iff.mpr (Nat.lt_of_le_of_lt (Nat.sub_le _ _) w.toNat_lt)

/-- A tree that has no level at the fork is complete and has no border. -/
theorem ForkAt.below_root_or_no_border {a size d : Nat} (h : ForkAt a size d) :
    d < bitLength (size - 1) ∨ d = bitLength (size - 1) ∧ leftSiblings size 0 d = [] := by
  rcases Nat.lt_or_eq_of_le h.le_bitLength with hlt | heq
  · exact .inl hlt
  · have hpow := h.two_pow_le
    have hfull : size = 1 * 2 ^ d := by
      have := bitLength_le_iff.mp heq.ge
      omega
    refine .inr ⟨heq, leftSiblings_eq_nil fun level _ hl => ?_⟩
    rw [hfull]
    exact firstLeaf_testBit (by omega)

/-- The path to the leaf goes through a left child at the fork, so no left sibling is lost there. -/
theorem ForkAt.leftSiblings_eq {leaf size bottom d : Nat} (h : ForkAt leaf size d) (hb : bottom ≤ d)
    (hd : d < 64) :
    leftSiblings leaf bottom (64 - bottom) =
      leftSiblings leaf bottom (d - bottom) ++ leftSiblings leaf (d + 1) (64 - (d + 1)) := by
  have hsplit := leftSiblings_append leaf bottom (d - bottom) (64 - (d + 1) + 1)
  rw [Nat.add_sub_cancel' hb, leftSiblings_cons_of_even h.1,
    show d - bottom + (64 - (d + 1) + 1) = 64 - bottom by omega] at hsplit
  exact hsplit.symm

/-- The plan of a climb from a level of the path up from a leaf, if that path and the one to the end
of the tree part at level `d`: the nodes listed first, the siblings up to the fork, the right border,
and the left siblings above. -/
def forkPlan (listed : List Node) (leaf bottom size d : Nat) : Plan :=
  .ofParts (listed ++ (List.range' bottom (d - bottom)).map (siblingNode leaf)) (leftSiblings size 0 d)
    (leftSiblings leaf (d + 1) (64 - (d + 1)))

theorem length_forkPlan_lt {listed : List Node} {leaf bottom size d : Nat} (hl : listed.length ≤ 1)
    (hd : d < 64) :
    (listed ++ (List.range' bottom (d - bottom)).map (siblingNode leaf) ++
      leftSiblings size 0 d).length < UInt64.size := by
  have hcount := length_leftSiblings_le size 0 d
  have hwords : 192 < UInt64.size := by decide
  rw [List.length_append, List.length_append, List.length_map, List.length_range']
  omega

theorem Climb.levels_eq {c : Climb} (h : 0 < c.size.toNat) :
    c.levels = .ok (List.range' c.node.level.toNat
      (bitLength (c.size.toNat - 1) - c.node.level.toNat)) := by
  rw [Climb.levels, Word.sub_one_eq h, ← Word.toNat_sub_one h]
  rfl

/-- Where a climb starts, both lists are whole: nothing hangs off the path below its node. -/
theorem Climb.mergedTo_start {c : Climb} {s : Span} (hspan : c.node.span = .ok s)
    (hl : c.node.level.toNat ≤ 64) (border : List Node) (d : Nat) :
    (Sides.mk (leftSiblings s.start.toNat 0 64)
      (rightSiblings s.start.toNat c.node.level.toNat (d - c.node.level.toNat))
      border d).MergedTo s.start.toNat c.node.level.toNat .start := by
  refine ⟨?_, rfl, Nat.zero_le _, Nat.zero_le _⟩
  change leftSiblings s.start.toNat 0 64 = _
  rw [(Node.span_eq_ok_iff.mp hspan).1]
  exact leftSiblings_firstLeaf hl

/-- The whole climb: it lists every subtree on its sides, and stops with both places at the end. -/
theorem Climb.merge_of_fork {c : Climb} {s : Span} {d : Nat} (hspan : c.node.span = .ok s)
    (hle : s.stop ≤ c.size) (h : ForkAt (s.stop.toNat - 1) c.size.toNat d) :
    ∃ sides levels m, c.sides = .ok sides ∧ c.levels = .ok levels ∧
      levels.foldlM sides.passLevel .start = .ok m ∧
      m.left = sides.left.length ∧ m.middle = sides.middle.length ∧
      (⟨m.nodes, m.run⟩ : Plan) = forkPlan [] s.start.toNat c.node.level.toNat c.size.toNat d := by
  obtain ⟨hlevel, hfork⟩ := Climb.fork_firstLeaf hspan hle h
  have hd := h.level_lt c.size.toNat_lt
  have hheight := Word.bitLength_pred_le c.size
  have hlevels := Climb.levels_eq (Nat.lt_of_le_of_lt (Nat.zero_le _) h.lt)
  have hleaf := Nat.lt_of_lt_of_le hfork.lt le_two_pow_bitLength
  have hstart := Climb.mergedTo_start hspan (by omega) (leftSiblings c.size.toNat 0 d) d
  have hnone : ([] : List Node).length ≤ 1 := Nat.zero_le 1
  obtain ⟨m, hfold, hend, hplan⟩ := hstart.climb hlevel hd hheight (testBit_eq_false_iff.mpr hfork.1)
    h.below_root_or_no_border (length_forkPlan_lt hnone hd)
  obtain ⟨hleft, hmiddle⟩ := hend.places_eq hleaf hheight h.le_bitLength
  refine ⟨_, _, m, Climb.sides_eq hspan hle h, hlevels, hfold, hleft, hmiddle, ?_⟩
  rw [hplan, leftSiblings_of_lt hleaf hheight]
  rfl

theorem Climb.plan_of_fork {c : Climb} {s : Span} {d : Nat} (hspan : c.node.span = .ok s)
    (hle : s.stop ≤ c.size) (h : ForkAt (s.stop.toNat - 1) c.size.toNat d) :
    c.plan = .ok (forkPlan [] s.start.toNat c.node.level.toNat c.size.toNat d) := by
  obtain ⟨sides, levels, m, hsides, hlevels, hfold, -, -, hplan⟩ := Climb.merge_of_fork hspan hle h
  have hsize : c.size ≠ 0 := by
    intro hz
    have hlt := h.lt
    rw [hz] at hlt
    exact Nat.not_lt_zero _ hlt
  rw [Climb.plan, if_neg hsize, hsides, hlevels, ← hplan]
  simp only [bind, Except.bind, Sides.plan, hfold, pure, Except.pure]

theorem Climb.plan_eq {c : Climb}
    (h : (c.node.index.toNat + 1) * 2 ^ c.node.level.toNat ≤ c.size.toNat) :
    ∃ d, c.node.level.toNat ≤ d ∧
      ForkAt (c.node.index.toNat * 2 ^ c.node.level.toNat) c.size.toNat d ∧
      c.plan = .ok (forkPlan [] (c.node.index.toNat * 2 ^ c.node.level.toNat) c.node.level.toNat
        c.size.toNat d) := by
  obtain ⟨s, hspan⟩ := Node.exists_span (Nat.lt_of_le_of_lt h c.size.toNat_lt)
  obtain ⟨hstart, hstop⟩ := Node.span_eq_ok_iff.mp hspan
  have hle : s.stop ≤ c.size := by
    rw [UInt64.le_iff_toNat_le, hstop]
    exact h
  have hfork := forkAt_log2 (Nat.sub_one_lt_of_le (Node.stop_pos hspan) (UInt64.le_iff_toNat_le.mp hle))
  obtain ⟨hlevel, hfirst⟩ := Climb.fork_firstLeaf hspan hle hfork
  have hplan := Climb.plan_of_fork hspan hle hfork
  rw [hstart] at hfirst hplan
  exact ⟨_, hlevel, hfirst, hplan⟩

end MerkleLog
