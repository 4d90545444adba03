import Mathlib.Data.List.Basic
import MerkleLog.Climb
import MerkleLog.Proofs.PlanParts
import MerkleLog.Proofs.SiblingHashes

namespace MerkleLog

universe u

/-- The sibling of the node at a level of the path up from a leaf. -/
def siblingNode (leaf level : Nat) : Node :=
  Node.ofNat level (leaf / 2 ^ level ^^^ 1)

theorem siblingNode_level {leaf level : Nat} (h : level < 256) :
    (siblingNode leaf level).level.toNat = level :=
  Node.ofNat_level h

theorem siblingNode_of_one {leaf level : Nat} (h : leaf.testBit level = true) :
    siblingNode leaf level = Node.ofNat level (leaf / 2 ^ level - 1) := by
  rw [siblingNode, xor_one_of_odd (testBit_eq_true_iff.mp h)]

theorem siblingNode_of_zero {leaf level : Nat} (h : leaf.testBit level = false) :
    siblingNode leaf level = Node.ofNat level (leaf / 2 ^ level + 1) := by
  rw [siblingNode, xor_one_of_even (testBit_eq_false_iff.mp h)]

/-- A sibling to the left goes with a one of the leaf's position, and one to the right with a zero. -/
theorem leftSiblings_eq_map_siblingNode (leaf bottom count : Nat) :
    leftSiblings leaf bottom count =
      ((List.range' bottom count).filter leaf.testBit).map (siblingNode leaf) := by
  apply List.map_congr_left
  intro level hl
  exact (siblingNode_of_one (List.mem_filter.mp hl).2).symm

theorem rightSiblings_eq_map_siblingNode (leaf bottom count : Nat) :
    rightSiblings leaf bottom count =
      ((List.range' bottom count).filter fun level => !leaf.testBit level).map (siblingNode leaf) := by
  apply List.map_congr_left
  intro level hl
  exact (siblingNode_of_zero (by simpa using (List.mem_filter.mp hl).2)).symm

theorem drop_eq_cons {α : Type u} {xs rest : List α} {k : Nat} {x : α} (h : xs.drop k = x :: rest) :
    xs[k]? = some x ∧ xs.drop (k + 1) = rest := by
  rw [← List.head?_drop, ← List.tail_drop, h]
  exact ⟨rfl, rfl⟩

theorem place_lt_of_drop_eq_cons {α : Type u} {xs rest : List α} {k : Nat} {x : α}
    (h : xs.drop k = x :: rest) : k + 1 ≤ xs.length :=
  (List.getElem?_eq_some_iff.mp (drop_eq_cons h).1).1

/-- The next node is looked at only while there is one, whatever the place. -/
theorem nextAt?_eq (nodes : List Node) (place level : Nat) :
    nextAt? nodes place level = .ok ((nodes.drop place).head?.filter fun n => n.level.toNat = level) := by
  rw [nextAt?, List.head?_drop]
  by_cases hlt : place < nodes.length
  · rw [if_pos hlt, List.getElem?_eq_getElem hlt]
    simp only [Option.filter_some, decide_eq_true_eq]
  · rw [if_neg hlt, List.getElem?_eq_none (Nat.not_lt.mp hlt)]
    rfl

theorem nextAt?_of_drop_eq_cons {nodes rest : List Node} {place level : Nat} {n : Node}
    (h : nodes.drop place = n :: rest) (hn : n.level.toNat = level) :
    nextAt? nodes place level = .ok (some n) := by
  rw [nextAt?_eq, h]
  simp [hn]

theorem nextAt?_eq_none {nodes : List Node} {place level : Nat}
    (h : ∀ n ∈ nodes.drop place, n.level.toNat ≠ level) : nextAt? nodes place level = .ok none := by
  rw [nextAt?_eq]
  cases hdrop : nodes.drop place with
  | nil => rfl
  | cons n rest => simp [h n (hdrop ▸ List.mem_cons_self)]

theorem le_level_of_mem_leftSiblings {leaf bottom count : Nat} {n : Node} (hc : bottom + count ≤ 64)
    (h : n ∈ leftSiblings leaf bottom count) : bottom ≤ n.level.toNat := by
  have hlevel : n.level.toNat ∈ levelsOf (leftSiblings leaf bottom count) :=
    List.mem_map.mpr ⟨n, h, rfl⟩
  rw [levelsOf_leftSiblings (by omega)] at hlevel
  exact (List.mem_range'_1.mp (List.mem_filter.mp hlevel).1).1

/-- The climb is at a level of the path up from a leaf: what is left on either side are the siblings of
the path from that level on, those in the middle up to the fork. -/
structure Sides.MergedTo (s : Sides) (leaf level : Nat) (m : Merge) : Prop where
  left : s.left.drop m.left = leftSiblings leaf level (64 - level)
  middle : s.middle.drop m.middle = rightSiblings leaf level (s.fork - level)
  left_le : m.left ≤ s.left.length
  middle_le : m.middle ≤ s.middle.length

theorem Word.ofCount_eq {n : Nat} (h : n < UInt64.size) : Word.ofCount n = .ok (.ofNat n) :=
  if_pos h

section

variable {s : Sides} {leaf level : Nat} {m : Merge}

theorem Sides.MergedTo.join_left (h : s.MergedTo leaf level m) (hl : level < 64)
    (hbit : leaf.testBit level = true) :
    let joined := { m with left := m.left + 1, nodes := m.nodes ++ [siblingNode leaf level] }
    s.join m level = .ok joined ∧ s.MergedTo leaf (level + 1) joined := by
  intro joined
  have hodd := testBit_eq_true_iff.mp hbit
  have hleft := h.left
  rw [show 64 - level = 64 - (level + 1) + 1 by omega, leftSiblings_cons_of_odd hodd,
    ← siblingNode_of_one hbit] at hleft
  have hnext := nextAt?_of_drop_eq_cons hleft (siblingNode_level (by omega))
  refine ⟨?_, (drop_eq_cons hleft).2, ?_, place_lt_of_drop_eq_cons hleft, h.middle_le⟩
  · rw [Sides.join, hnext]
    rfl
  · change s.middle.drop m.middle = _
    rw [h.middle]
    rcases Nat.lt_or_ge level s.fork with hlt | hge
    · rw [show s.fork - level = s.fork - (level + 1) + 1 by omega, rightSiblings_cons_of_odd hodd]
    · rw [Nat.sub_eq_zero_of_le hge, Nat.sub_eq_zero_of_le (Nat.le_succ_of_le hge)]
      rfl

theorem Sides.MergedTo.nextAt?_left (h : s.MergedTo leaf level m) (hl : level < 64)
    (hbit : leaf.testBit level = false) :
    nextAt? s.left m.left level = .ok none ∧
      s.left.drop m.left = leftSiblings leaf (level + 1) (64 - (level + 1)) := by
  have hleft := h.left
  rw [show 64 - level = 64 - (level + 1) + 1 by omega,
    leftSiblings_cons_of_even (testBit_eq_false_iff.mp hbit)] at hleft
  refine ⟨nextAt?_eq_none fun n hn => ?_, hleft⟩
  rw [hleft] at hn
  have hle := le_level_of_mem_leftSiblings (by omega) hn
  omega

theorem Sides.MergedTo.join_middle (h : s.MergedTo leaf level m) (hl : level < 64)
    (hbit : leaf.testBit level = false) (hfork : level < s.fork) :
    let joined := { m with middle := m.middle + 1, nodes := m.nodes ++ [siblingNode leaf level] }
    s.join m level = .ok joined ∧ s.MergedTo leaf (level + 1) joined := by
  intro joined
  obtain ⟨hnone, hleft⟩ := h.nextAt?_left hl hbit
  have hmiddle := h.middle
  rw [show s.fork - level = s.fork - (level + 1) + 1 by omega,
    rightSiblings_cons_of_even (testBit_eq_false_iff.mp hbit), ← siblingNode_of_zero hbit] at hmiddle
  have hnext := nextAt?_of_drop_eq_cons hmiddle (siblingNode_level (by omega))
  refine ⟨?_, hleft, (drop_eq_cons hmiddle).2, h.left_le, place_lt_of_drop_eq_cons hmiddle⟩
  rw [Sides.join, hnone]
  simp only [bind, Except.bind, hnext]
  rfl

/-- From the fork on the middle is used up, and where the path goes up from a left child nothing joins
it. -/
theorem Sides.MergedTo.join_none (h : s.MergedTo leaf level m) (hl : level < 64)
    (hbit : leaf.testBit level = false) (hfork : s.fork ≤ level) :
    s.join m level = .ok m ∧ s.MergedTo leaf (level + 1) m := by
  obtain ⟨hnone, hleft⟩ := h.nextAt?_left hl hbit
  have hmiddle := h.middle
  rw [Nat.sub_eq_zero_of_le hfork] at hmiddle
  have hend : nextAt? s.middle m.middle level = .ok none :=
    nextAt?_eq_none fun n hn => by simp [hmiddle, rightSiblings] at hn
  refine ⟨?_, hleft, ?_, h.left_le, h.middle_le⟩
  · rw [Sides.join, hnone]
    simp only [bind, Except.bind, hend]
    rfl
  · rw [hmiddle, Nat.sub_eq_zero_of_le (Nat.le_succ_of_le hfork)]
    rfl

theorem Sides.passLevel_of_ne (m : Merge) (h : level ≠ s.fork) : s.passLevel m level = s.join m level := by
  simp only [Sides.passLevel, if_neg h]
  exact bind_pure _

/-- Below the fork each level lists the sibling of the path. -/
theorem Sides.MergedTo.pass_below (h : s.MergedTo leaf level m) (hfork : level < s.fork)
    (hd : s.fork < 64) :
    ∃ m', s.passLevel m level = .ok m' ∧ s.MergedTo leaf (level + 1) m' ∧ m'.run = m.run ∧
      m'.nodes = m.nodes ++ [siblingNode leaf level] := by
  have hl := Nat.lt_trans hfork hd
  rw [Sides.passLevel_of_ne m (Nat.ne_of_lt hfork)]
  cases hbit : leaf.testBit level with
  | true =>
    obtain ⟨hjoin, hmerged⟩ := h.join_left hl hbit
    exact ⟨_, hjoin, hmerged, rfl, rfl⟩
  | false =>
    obtain ⟨hjoin, hmerged⟩ := h.join_middle hl hbit hfork
    exact ⟨_, hjoin, hmerged, rfl, rfl⟩

/-- Above the fork a level lists the sibling of the path if it is on the left. -/
theorem Sides.MergedTo.pass_above (h : s.MergedTo leaf level m) (hfork : s.fork < level)
    (hl : level < 64) :
    ∃ m', s.passLevel m level = .ok m' ∧ s.MergedTo leaf (level + 1) m' ∧ m'.run = m.run ∧
      m'.nodes = m.nodes ++ leftSiblings leaf level 1 := by
  rw [Sides.passLevel_of_ne m (Nat.ne_of_gt hfork)]
  cases hbit : leaf.testBit level with
  | true =>
    obtain ⟨hjoin, hmerged⟩ := h.join_left hl hbit
    refine ⟨_, hjoin, hmerged, rfl, ?_⟩
    rw [leftSiblings_cons_of_odd (testBit_eq_true_iff.mp hbit), siblingNode_of_one hbit]
    rfl
  | false =>
    obtain ⟨hjoin, hmerged⟩ := h.join_none hl hbit hfork.le
    refine ⟨m, hjoin, hmerged, rfl, ?_⟩
    rw [leftSiblings_cons_of_even (testBit_eq_false_iff.mp hbit)]
    exact (List.append_nil _).symm

/-- The border is listed whole. The count it is subtracted from includes it. -/
theorem Sides.listBorder_eq (s : Sides) (m : Merge) (h : (m.nodes ++ s.border).length < UInt64.size) :
    s.listBorder m = .ok { m with
      nodes := m.nodes ++ s.border
      run := if 1 < s.border.length then
        ⟨.ofNat m.nodes.length, .ofNat (m.nodes ++ s.border).length⟩ else m.run } := by
  rw [Sides.listBorder]
  by_cases hrun : 1 < s.border.length
  · have hlength : (m.nodes ++ s.border).length = m.nodes.length + s.border.length :=
      List.length_append
    have hsub : Word.sub (.ofNat (m.nodes ++ s.border).length) (.ofNat s.border.length) =
        .ok (.ofNat m.nodes.length) := by
      rw [Word.sub_eq_ok_iff, UInt64.toNat_ofNat_of_lt' h, UInt64.toNat_ofNat_of_lt' (by omega),
        UInt64.toNat_ofNat_of_lt' (by omega), hlength]
    simp only [if_pos hrun, Word.ofCount_eq h, Word.ofCount_eq (show s.border.length < _ by omega), hsub,
      bind, Except.bind, pure, Except.pure]
  · simp only [if_neg hrun, pure, Except.pure]

theorem Sides.MergedTo.pass_fork (h : s.MergedTo leaf s.fork m) (hd : s.fork < 64)
    (hbit : leaf.testBit s.fork = false) (hcount : (m.nodes ++ s.border).length < UInt64.size) :
    ∃ m', s.passLevel m s.fork = .ok m' ∧ s.MergedTo leaf (s.fork + 1) m' ∧
      m'.nodes = m.nodes ++ s.border ∧
      m'.run = if 1 < s.border.length then
        ⟨.ofNat m.nodes.length, .ofNat (m.nodes ++ s.border).length⟩ else m.run := by
  obtain ⟨hjoin, hmerged⟩ := h.join_none hd hbit (Nat.le_refl _)
  have hpass : s.passLevel m s.fork = s.listBorder m := by
    simp only [Sides.passLevel, hjoin, bind, Except.bind, if_true]
  rw [hpass, s.listBorder_eq m hcount]
  exact ⟨_, rfl, ⟨hmerged.left, hmerged.middle, hmerged.left_le, hmerged.middle_le⟩, rfl, rfl⟩

/-- The climb up to the fork: each level moves one of the two places on by one. -/
theorem Sides.MergedTo.climb_below (h : s.MergedTo leaf level m) (count : Nat)
    (hfork : level + count ≤ s.fork) (hd : s.fork < 64) :
    ∃ m', (List.range' level count).foldlM s.passLevel m = .ok m' ∧
      s.MergedTo leaf (level + count) m' ∧ m'.run = m.run ∧
      m'.nodes = m.nodes ++ (List.range' level count).map (siblingNode leaf) := by
  induction count generalizing level m with
  | zero => exact ⟨m, rfl, h, rfl, (List.append_nil _).symm⟩
  | succ count ih =>
    obtain ⟨next, hpass, hnext, hrun, hnodes⟩ := h.pass_below (by omega) hd
    obtain ⟨m', hrest, hmerged, hrun', hnodes'⟩ := ih hnext (by omega)
    rw [show level + (count + 1) = level + 1 + count by omega, List.range'_succ, List.foldlM_cons, hpass]
    refine ⟨m', hrest, hmerged, hrun'.trans hrun, ?_⟩
    rw [hnodes', hnodes, List.append_assoc]
    rfl

theorem Sides.MergedTo.climb_above (h : s.MergedTo leaf level m) (count : Nat)
    (hfork : s.fork < level) (hl : level + count ≤ 64) :
    ∃ m', (List.range' level count).foldlM s.passLevel m = .ok m' ∧
      s.MergedTo leaf (level + count) m' ∧ m'.run = m.run ∧
      m'.nodes = m.nodes ++ leftSiblings leaf level count := by
  induction count generalizing level m with
  | zero => exact ⟨m, rfl, h, rfl, (List.append_nil _).symm⟩
  | succ count ih =>
    obtain ⟨next, hpass, hnext, hrun, hnodes⟩ := h.pass_above hfork (by omega)
    obtain ⟨m', hrest, hmerged, hrun', hnodes'⟩ := ih hnext (by omega) (by omega)
    rw [show level + (count + 1) = level + 1 + count by omega, List.range'_succ, List.foldlM_cons, hpass]
    refine ⟨m', hrest, hmerged, hrun'.trans hrun, ?_⟩
    rw [hnodes', hnodes, List.append_assoc, leftSiblings_append, Nat.add_comm 1]

theorem range'_split {bottom d height : Nat} (hb : bottom ≤ d) (hd : d ≤ height) :
    List.range' bottom (height - bottom) =
      List.range' bottom (d - bottom) ++ List.range' d (height - d) := by
  obtain ⟨lower, rfl⟩ := Nat.exists_eq_add_of_le hb
  obtain ⟨upper, rfl⟩ := Nat.exists_eq_add_of_le hd
  rw [Nat.add_sub_cancel_left, Nat.add_sub_cancel_left, Nat.add_assoc, Nat.add_sub_cancel_left,
    List.range'_append_1]

/-- A climb from below the fork to a height above it, or to the fork if there is no border. -/
theorem Sides.MergedTo.climb {bottom height : Nat} (h : s.MergedTo leaf bottom .start)
    (hb : bottom ≤ s.fork) (hd : s.fork < 64) (hheight : height ≤ 64) (hbit : leaf.testBit s.fork = false)
    (hborder : s.fork < height ∨ s.fork = height ∧ s.border = [])
    (hcount : ((List.range' bottom (s.fork - bottom)).map (siblingNode leaf) ++ s.border).length <
      UInt64.size) :
    ∃ m, (List.range' bottom (height - bottom)).foldlM s.passLevel .start = .ok m ∧
      s.MergedTo leaf height m ∧
      (⟨m.nodes, m.run⟩ : Plan) = .ofParts ((List.range' bottom (s.fork - bottom)).map (siblingNode leaf))
        s.border (leftSiblings leaf (s.fork + 1) (height - (s.fork + 1))) := by
  obtain ⟨atFork, hbelow, hmerged, hrun, hnodes⟩ :=
    h.climb_below (s.fork - bottom) (by omega) hd
  rw [Nat.add_sub_cancel' hb] at hmerged
  rcases hborder with hlt | ⟨rfl, hnone⟩
  · obtain ⟨past, hpass, hpast, hlisted, hmarked⟩ := hmerged.pass_fork hd hbit (hnodes ▸ hcount)
    obtain ⟨m, habove, hm, hkept, hrest⟩ :=
      hpast.climb_above (height - (s.fork + 1)) (Nat.lt_succ_self _) (by omega)
    rw [Nat.add_sub_cancel' hlt] at hm
    refine ⟨m, ?_, hm, ?_⟩
    · rw [range'_split hb hlt.le, List.foldlM_append, hbelow,
        show height - s.fork = height - (s.fork + 1) + 1 by omega, List.range'_succ]
      simp only [bind, Except.bind, List.foldlM_cons, hpass, habove]
    · rw [hrest, hlisted, hkept, hmarked, hnodes, hrun]
      rfl
  · refine ⟨atFork, hbelow, hmerged, ?_⟩
    rw [hnodes, hrun, hnone, Nat.sub_eq_zero_of_le (Nat.le_succ _)]
    simp [Plan.ofParts, Merge.start, leftSiblings]

/-- Above the tree nothing is left on either side. -/
theorem Sides.MergedTo.places_eq (h : s.MergedTo leaf level m) (hleaf : leaf < 2 ^ level)
    (hl : level ≤ 64) (hfork : s.fork ≤ level) :
    m.left = s.left.length ∧ m.middle = s.middle.length := by
  have hleft := h.left
  have hmiddle := h.middle
  have hnone : leftSiblings leaf level (64 - level) = [] := by
    rw [← leftSiblings_of_lt hleaf hl, Nat.sub_self]
    rfl
  rw [hnone, List.drop_eq_nil_iff] at hleft
  rw [Nat.sub_eq_zero_of_le hfork] at hmiddle
  exact ⟨Nat.le_antisymm h.left_le hleft, Nat.le_antisymm h.middle_le (List.drop_eq_nil_iff.mp hmiddle)⟩

end

end MerkleLog
