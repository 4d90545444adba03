import MerkleLog.Proofs.RequestPlan
import MerkleLog.Proofs.SiblingWalk
import MerkleLog.Proofs.Nesting

namespace MerkleLog

/-- The run of a plan goes from `first` up to `last`, not counting as many nodes listed before. -/
def Plan.RunsAfter (p : Plan) (before first last : Nat) : Prop :=
  ∃ run, p.run? = some run ∧ run.start.toNat = first + before ∧ run.stop.toNat = last + before

section

variable {leaf leaf' bottom size d : Nat} {listed : List Node}

/-- From a level on, a plan does not depend on the path below. -/
theorem forkPlan_congr (hb : bottom ≤ d) (h : leaf / 2 ^ bottom = leaf' / 2 ^ bottom) :
    forkPlan listed leaf bottom size d = forkPlan listed leaf' bottom size d := by
  have hlower : (List.range' bottom (d - bottom)).map (siblingNode leaf) =
      (List.range' bottom (d - bottom)).map (siblingNode leaf') := by
    apply List.map_congr_left
    intro level hl
    simp only [siblingNode, div_two_pow_congr (List.mem_range'_1.mp hl).1 h]
  have hupper : leftSiblings leaf (d + 1) (64 - (d + 1)) = leftSiblings leaf' (d + 1) (64 - (d + 1)) :=
    leftSiblings_congr (div_two_pow_congr (by omega) h)
  simp only [forkPlan, hlower, hupper]

/-- The plan of a climb from a leaf lists the siblings below a level, and goes on as the plan of a climb
from that level. -/
theorem forkPlan_from_leaf (hb : bottom ≤ d) :
    forkPlan [] leaf 0 size d =
      forkPlan ((List.range bottom).map (siblingNode leaf)) leaf bottom size d := by
  have hsplit := range'_split (Nat.zero_le bottom) hb
  simp only [Nat.sub_zero] at hsplit
  simp only [forkPlan, List.nil_append, Nat.sub_zero, hsplit, List.map_append, List.range_eq_range']

theorem take_nodes_forkPlan (listed : List Node) :
    (forkPlan listed leaf bottom size d).nodes.take listed.length = listed := by
  simp [forkPlan, Plan.ofParts]

theorem drop_nodes_forkPlan (listed : List Node) :
    (forkPlan listed leaf bottom size d).nodes.drop listed.length =
      (forkPlan [] leaf bottom size d).nodes := by
  simp [forkPlan, Plan.ofParts]

theorem take_nodes_forkPlan_from_leaf (hb : bottom ≤ d) :
    (forkPlan [] leaf 0 size d).nodes.take bottom = (List.range bottom).map (siblingNode leaf) := by
  simpa [forkPlan_from_leaf hb] using
    take_nodes_forkPlan ((List.range bottom).map (siblingNode leaf))

theorem drop_nodes_forkPlan_from_leaf (hb : bottom ≤ d) :
    (forkPlan [] leaf 0 size d).nodes.drop bottom = (forkPlan [] leaf bottom size d).nodes := by
  simpa [forkPlan_from_leaf hb] using
    drop_nodes_forkPlan ((List.range bottom).map (siblingNode leaf))

theorem run?_forkPlan (listed : List Node) (leaf bottom size : Nat) (hl : listed.length ≤ 1)
    (hd : d < 64) :
    (popCount (size % 2 ^ d) ≤ 1 → (forkPlan listed leaf bottom size d).run? = none) ∧
      (2 ≤ popCount (size % 2 ^ d) → (forkPlan listed leaf bottom size d).RunsAfter listed.length
        (d - bottom) (d - bottom + popCount (size % 2 ^ d))) := by
  obtain ⟨hrun, hnothing⟩ := run_forkPlan listed leaf bottom size hl hd
  constructor
  · intro hcount
    rw [Plan.run?, hnothing hcount]
    rfl
  · intro hcount
    obtain ⟨hstart, hstop⟩ := hrun hcount
    refine ⟨_, if_pos (UInt64.lt_iff_toNat_lt.mpr ?_), ?_, ?_⟩ <;> omega

/-- The nodes that are folded are the same, also if a climb starts at a later level or lists a node
first. -/
theorem runs_forkPlan_from_leaf (hl : listed.length ≤ 1) (hb : bottom ≤ d) (hd : d < 64) :
    let behind := popCount (size % 2 ^ d)
    (behind ≤ 1 → (forkPlan [] leaf 0 size d).run? = none ∧
      (forkPlan listed leaf bottom size d).run? = none) ∧
    (2 ≤ behind →
      (forkPlan [] leaf 0 size d).RunsAfter bottom (d - bottom) (d - bottom + behind) ∧
        (forkPlan listed leaf bottom size d).RunsAfter listed.length (d - bottom)
          (d - bottom + behind)) := by
  obtain ⟨hnone, hrun⟩ := run?_forkPlan [] leaf 0 size (Nat.zero_le 1) hd
  obtain ⟨hnone', hrun'⟩ := run?_forkPlan listed leaf bottom size hl hd
  refine ⟨fun hcount => ⟨hnone hcount, hnone' hcount⟩, fun hcount => ⟨?_, hrun' hcount⟩⟩
  obtain ⟨run, hsome, hstart, hstop⟩ := hrun hcount
  simp only [List.length_nil] at hstart hstop
  exact ⟨run, hsome, by omega, by omega⟩

end

/-- The climb from the last leaf of the older tree and the climb from its last complete subtree leave
the path to the end of the newer tree at the same level. -/
theorem plans_eq_forkPlan {older newer : Word} (hpos : 0 < older) (hlt : older < newer) :
    ∃ q bottom d start, lowestBit older.toNat = bottom ∧ older.toNat = (2 * q + 1) * 2 ^ bottom ∧
      bottom ≤ d ∧ d < 64 ∧ (older.toNat - 1 ^^^ newer.toNat).log2 = d ∧
      start = (if older.toNat.isPowerOfTwo then [] else [Node.ofNat bottom (2 * q)]) ∧
      inclusionPlan (older - 1) newer = .ok (forkPlan [] (older.toNat - 1) 0 newer.toNat d) ∧
      consistencyPlan older newer = .ok (forkPlan start (older.toNat - 1) bottom newer.toNat d) := by
  obtain ⟨q, bottom, d, hbottom, ho, hb, hfork, hplan⟩ := consistencyPlan_eq hpos hlt
  obtain ⟨d', hfork', hplan'⟩ := inclusionPlan_eq (Word.sub_one_lt hpos (UInt64.le_of_lt hlt))
  have hpath := ho ▸ firstLeaf_div bottom (2 * q)
  have hwhole : older.toNat.isPowerOfTwo ↔ q = 0 := by
    rw [ho]
    exact odd_mul_two_pow_eq_two_pow_iff
  rw [Word.toNat_sub_one (UInt64.lt_iff_toNat_lt.mp hpos)] at hfork' hplan'
  have hlast := hfork.congr_left (div_two_pow_congr hb hpath)
  cases hlast.log2_eq.symm.trans hfork'.log2_eq
  rw [forkPlan_congr hb hpath] at hplan
  refine ⟨q, bottom, d, _, hbottom, ho, hb, hlast.level_lt newer.toNat_lt, hlast.log2_eq, ?_, hplan',
    hplan⟩
  simp only [hwhole]

/-- The plan for the last leaf of the older tree lists the left siblings below its last complete
subtree, and the plan for the older tree lists that subtree unless it is all of the tree. From there on
both list the same nodes and fold the same of them: the nodes behind the fork, if there are two or more. -/
theorem plans_share_path {older newer : Word} (hpos : 0 < older) (hlt : older < newer) :
    let lastLeaf := older.toNat - 1
    let below := lowestBit older.toNat
    let listed := if older.toNat.isPowerOfTwo then 0 else 1
    let fork := (lastLeaf ^^^ newer.toNat).log2
    let behind := popCount (newer.toNat % 2 ^ fork)
    ∃ inclusion consistency, inclusionPlan (older - 1) newer = .ok inclusion ∧
      consistencyPlan older newer = .ok consistency ∧
      inclusion.nodes.drop below = consistency.nodes.drop listed ∧
      inclusion.nodes.take below =
        (List.range below).map (fun level => Node.ofNat level (lastLeaf / 2 ^ level - 1)) ∧
      (listed = 1 → ∃ node s, consistency.nodes.take listed = [node] ∧
        node = Node.ofNat below (lastLeaf / 2 ^ below) ∧ node.span? = some s ∧ s.stop = older) ∧
      (behind ≤ 1 → inclusion.run? = none ∧ consistency.run? = none) ∧
      (2 ≤ behind → inclusion.RunsAfter below (fork - below) (fork - below + behind) ∧
        consistency.RunsAfter listed (fork - below) (fork - below + behind)) := by
  intro lastLeaf below listed fork behind
  obtain ⟨q, bottom, d, start, hbelow, ho, hb, hd, hfork, hstart, hinclusion, hconsistency⟩ :=
    plans_eq_forkPlan hpos hlt
  have hcount : start.length = listed := by
    rw [hstart, apply_ite List.length]
    rfl
  have hone : start.length ≤ 1 := by
    rw [hstart]
    exact length_start_le _ _
  rw [show below = bottom from hbelow, ← hcount]
  simp only [behind, show fork = d from hfork]
  refine ⟨_, _, hinclusion, hconsistency, ?_, ?_, ?_, runs_forkPlan_from_leaf hone hb hd⟩
  · rw [drop_nodes_forkPlan_from_leaf hb, drop_nodes_forkPlan]
  · rw [take_nodes_forkPlan_from_leaf hb]
    apply List.map_congr_left
    intro level hl
    exact siblingNode_of_one (ho ▸ lastLeaf_testBit (List.mem_range.mp hl))
  · intro hlist
    have hnode : start = [Node.ofNat bottom (2 * q)] := by
      rw [hstart, if_neg]
      intro hpow
      simp [hcount, listed, hpow] at hlist
    have hspan := Node.span?_ofNat (ho ▸ older.toNat_lt)
    refine ⟨_, _, (take_nodes_forkPlan _).trans hnode, ?_, hspan, ?_⟩
    · rw [show lastLeaf / 2 ^ bottom = 2 * q by rw [← lastLeaf_div bottom (2 * q), ← ho]]
    · rw [← ho, UInt64.ofNat_toNat]

/-- The plans for the leaf 11 and for the older tree of 12 leaves, in a tree of 31. -/
theorem plans_share_path_twelve_of_thirty_one :
    (0 : Word) < 12 ∧ (12 : Word) < 31 ∧
      ∃ inclusion consistency, inclusionPlan 11 31 = .ok inclusion ∧
        consistencyPlan 12 31 = .ok consistency ∧
        inclusion.nodes.drop 2 = consistency.nodes.drop 1 ∧
        inclusion.nodes.take 2 = [⟨0, 10⟩, ⟨1, 4⟩] ∧ consistency.nodes.take 1 = [⟨2, 2⟩] ∧
        inclusion.RunsAfter 2 2 6 ∧ consistency.RunsAfter 1 2 6 := by
  have hbelow : lowestBit (12 : Word).toNat = 2 := by decide +kernel
  have hlisted : (if (12 : Word).toNat.isPowerOfTwo then 0 else 1) = 1 := by decide
  have hshare := plans_share_path (by decide : (0 : Word) < 12) (by decide : (12 : Word) < 31)
  have hfork : ((12 : Word).toNat - 1 ^^^ (31 : Word).toNat).log2 = 4 := by decide +kernel
  have hbehind : popCount ((31 : Word).toNat % 2 ^ 4) = 4 := by decide +kernel
  simp only [hbelow, hlisted, hfork, hbehind] at hshare
  obtain ⟨inclusion, consistency, hinclusion, hconsistency, hdrop, htake, hnode, -, hruns⟩ := hshare
  obtain ⟨_, s, hfirst, rfl, -, -⟩ := hnode trivial
  obtain ⟨hrun, hrun'⟩ := hruns (by decide)
  exact ⟨by decide, by decide, inclusion, consistency, hinclusion, hconsistency, hdrop, htake, hfirst,
    hrun, hrun'⟩

end MerkleLog
