import MerkleLog.Proofs.ClimbPlan

namespace MerkleLog

/-- The first leaf under the node where a climb starts. -/
def Climb.firstLeaf (c : Climb) : Nat :=
  c.node.index.toNat * 2 ^ c.node.level.toNat

/-- The highest place where the digits of the first leaf and of the size of the tree differ. -/
def Climb.forkLevel (c : Climb) : Nat :=
  (c.firstLeaf ^^^ c.size.toNat).log2

/-- Where the leaves end that share their path with the first leaf from the fork level on. -/
def Climb.turn (c : Climb) : Nat :=
  (c.firstLeaf / 2 ^ c.forkLevel + 1) * 2 ^ c.forkLevel

theorem length_leftSiblings (size d : Nat) :
    (leftSiblings size 0 d).length = popCount (size % 2 ^ d) := by
  have hlt : size % 2 ^ d < 2 ^ (0 + d) := by
    rw [Nat.zero_add]
    exact Nat.mod_lt _ (Nat.two_pow_pos d)
  -- cutting the size off at a level leaves the digits below it as they are
  have hdigits : (List.range' 0 d).filter (size % 2 ^ d).testBit =
      (List.range' 0 d).filter size.testBit := by
    apply List.filter_congr
    intro level hl
    rw [Nat.testBit_mod_two_pow, decide_eq_true (by simpa using hl), Bool.true_and]
  have hcount := popCount_div_two_pow hlt
  rw [pow_zero, Nat.div_one, hdigits] at hcount
  rw [leftSiblings, List.length_map, hcount]

theorem levelsOf_border (size d : Nat) (hd : d ≤ 64) :
    (levelsOf (leftSiblings size 0 d)).Pairwise (· < ·) ∧
      ∀ level ∈ levelsOf (leftSiblings size 0 d), level < d := by
  rw [levelsOf_leftSiblings (by omega)]
  refine ⟨(List.pairwise_lt_range' 1).filter _, fun level hl => ?_⟩
  have hrange := List.mem_range'_1.mp (List.mem_filter.mp hl).1
  omega

theorem run_forkPlan (listed : List Node) (leaf bottom size : Nat) {d : Nat}
    (hl : listed.length ≤ 1) (hd : d < 64) :
    (2 ≤ popCount (size % 2 ^ d) →
      (forkPlan listed leaf bottom size d).run.start.toNat = listed.length + (d - bottom) ∧
        (forkPlan listed leaf bottom size d).run.stop.toNat =
          listed.length + (d - bottom) + popCount (size % 2 ^ d)) ∧
      (popCount (size % 2 ^ d) ≤ 1 → (forkPlan listed leaf bottom size d).run = .nothing) := by
  rw [← length_leftSiblings]
  constructor
  · intro hrun
    obtain ⟨hstart, hstop⟩ := Plan.run_ofParts (leftSiblings leaf (d + 1) (64 - (d + 1))) hrun
      (length_forkPlan_lt hl hd)
    rw [forkPlan, hstart, hstop]
    simp only [List.length_append, List.length_map, List.length_range', and_self]
  · intro hrun
    exact if_neg (Nat.not_lt.mpr hrun)

/-- The plan of a climb is what a walk up from its node meets: the sibling on each level below the
fork, the nodes that cover the tree behind the turn, lowest first, and above the fork each sibling to
the left. Two or more nodes behind the turn are the run. -/
theorem climbPlan_walks_past_siblings {c : Climb}
    (h : (c.node.index.toNat + 1) * 2 ^ c.node.level.toNat ≤ c.size.toNat) :
    c.node.level.toNat ≤ c.forkLevel ∧ c.turn ≤ c.size.toNat ∧
      ∃ plan border, c.plan = .ok plan ∧ Span.cover ⟨.ofNat c.turn, c.size⟩ = .ok border ∧
        plan.nodes =
          (List.range' c.node.level.toNat (c.forkLevel - c.node.level.toNat)).map
              (siblingNode c.firstLeaf) ++
            border.reverse ++
            ((List.range' (c.forkLevel + 1) (64 - (c.forkLevel + 1))).filter c.firstLeaf.testBit).map
              (siblingNode c.firstLeaf) ∧
        (levelsOf border.reverse).Pairwise (· < ·) ∧
        (∀ level ∈ levelsOf border.reverse, level < c.forkLevel) ∧
        (2 ≤ popCount (c.size.toNat % 2 ^ c.forkLevel) →
          plan.run.start.toNat = c.forkLevel - c.node.level.toNat ∧
            plan.run.stop.toNat = c.forkLevel - c.node.level.toNat +
              popCount (c.size.toNat % 2 ^ c.forkLevel)) ∧
        (popCount (c.size.toNat % 2 ^ c.forkLevel) ≤ 1 → plan.run = .nothing) := by
  obtain ⟨d, hlevel, hfork, hplan⟩ : ∃ d, c.node.level.toNat ≤ d ∧
      ForkAt c.firstLeaf c.size.toNat d ∧
      c.plan = .ok (forkPlan [] c.firstLeaf c.node.level.toNat c.size.toNat d) := Climb.plan_eq h
  have hd := hfork.level_lt c.size.toNat_lt
  have hforkLevel : c.forkLevel = d := hfork.log2_eq
  have hturn : c.turn = c.size.toNat / 2 ^ d * 2 ^ d := by
    rw [Climb.turn, hforkLevel, hfork.2]
  have hle := Nat.div_mul_le_self c.size.toNat (2 ^ d)
  have hword : (UInt64.ofNat c.turn).toNat = c.size.toNat / 2 ^ d * 2 ^ d := by
    rw [hturn, Word.toNat_ofNat_cut]
  obtain ⟨hrun, hnothing⟩ :=
    run_forkPlan [] c.firstLeaf c.node.level.toNat c.size.toNat (Nat.zero_le 1) hd
  obtain ⟨hsorted, hbelow⟩ := levelsOf_border c.size.toNat d hd.le
  rw [hforkLevel]
  refine ⟨hlevel, hturn.trans_le hle, _, _, hplan, Span.cover_from_turn hfork hword, ?_, ?_, ?_, ?_, ?_⟩
  · rw [List.reverse_reverse, ← leftSiblings_eq_map_siblingNode]
    rfl
  · rwa [List.reverse_reverse]
  · rwa [List.reverse_reverse]
  · simpa only [List.length_nil, Nat.zero_add] using hrun
  · exact hnothing

/-- The climb from the leaves 18 and 19 in a tree of 31 leaves. -/
theorem climbPlan_walks_past_siblings_in_thirty_one :
    let c : Climb := ⟨⟨1, 9⟩, 31⟩
    (c.node.index.toNat + 1) * 2 ^ c.node.level.toNat ≤ c.size.toNat ∧
      c.forkLevel = 3 ∧ c.turn = 24 ∧
      ∃ plan border, c.plan = .ok plan ∧ Span.cover ⟨24, 31⟩ = .ok border ∧
        plan.nodes = [⟨1, 8⟩, ⟨2, 5⟩] ++ border.reverse ++ [⟨4, 0⟩] ∧
        plan.run.start.toNat = 2 ∧ plan.run.stop.toNat = 5 := by
  intro c
  have hfit : (c.node.index.toNat + 1) * 2 ^ c.node.level.toNat ≤ c.size.toNat := by decide
  obtain ⟨-, -, plan, border, hplan, hborder, hnodes, -, -, hrun, -⟩ :=
    climbPlan_walks_past_siblings hfit
  have hfork : c.forkLevel = 3 := by decide
  have hcount : popCount (c.size.toNat % 2 ^ 3) = 3 := by decide +kernel
  have hturn : c.turn = 24 := by decide
  have hlower : (List.range' c.node.level.toNat (3 - c.node.level.toNat)).map
      (siblingNode c.firstLeaf) = [⟨1, 8⟩, ⟨2, 5⟩] := by decide
  have hupper : ((List.range' (3 + 1) (64 - (3 + 1))).filter c.firstLeaf.testBit).map
      (siblingNode c.firstLeaf) = [⟨4, 0⟩] := by decide
  rw [hfork, hlower, hupper] at hnodes
  rw [hfork, hcount] at hrun
  rw [hturn] at hborder
  exact ⟨hfit, hfork, hturn, plan, border, hplan, hborder, hnodes, hrun (by decide)⟩

end MerkleLog
