import MerkleLog.Proofs.CoverRow
import MerkleLog.Proofs.RequestPlan

namespace MerkleLog

universe u

/-- The nodes of a plan whose hashes are folded. -/
def Plan.runNodes (p : Plan) : List Node :=
  (p.nodes.take p.run.stop.toNat).drop p.run.start.toNat

variable {H : Type u}

section

variable {lower border upper : List Node}

theorem Plan.one_lt_length_of_run? (h : (Plan.ofParts lower border upper).run?.isSome) :
    1 < border.length := by
  by_contra hrun
  have hnone : (Plan.ofParts lower border upper).run = .nothing := if_neg hrun
  rw [Plan.run?, hnone] at h
  exact absurd h (by decide)

theorem Plan.runNodes_ofParts (hrun : 1 < border.length)
    (h : (lower ++ border).length < UInt64.size) :
    (Plan.ofParts lower border upper).runNodes = border := by
  obtain ⟨hstart, hstop⟩ := Plan.run_ofParts upper hrun h
  have hnodes : (Plan.ofParts lower border upper).nodes = lower ++ border ++ upper := rfl
  rw [Plan.runNodes, hnodes, hstart, hstop, List.take_left, List.drop_left]

/-- What the run is folded to stands in the proof where the run begins in the plan. -/
theorem Plan.exists_assemble_ofParts (combine : H → H → H) (hash : Node → H) {root : H}
    (hrun : 1 < border.length) (h : (lower ++ border).length < UInt64.size)
    (hfold : (foldRun (m := Id) combine (border.map hash)).run = [root]) :
    ∃ proof, (Plan.ofParts lower border upper).assemble combine
        ((Plan.ofParts lower border upper).nodes.map hash) = .ok proof ∧
      proof[(Plan.ofParts lower border upper).run.start.toNat]? = some root := by
  obtain ⟨hstart, -⟩ := Plan.run_ofParts upper hrun h
  refine ⟨_, Plan.assemble_ofParts combine hash h, ?_⟩
  rw [hstart, hfold, List.append_assoc, List.getElem?_append_right (by simp), List.length_map,
    Nat.sub_self]
  rfl

end

/-- The hash of the tree over the leaves of an interval. -/
def Log.spanHash (log : Log H) (s : Span) : H :=
  log.treeHash s.start.toNat (s.stop.toNat - s.start.toNat)

/-- The hashes of some nodes, folded in their order, give the hash of the tree over an interval. -/
def Log.FoldsTo (log : Log H) (nodes : List Node) (s : Span) : Prop :=
  (foldRun (m := Id) log.combine (nodes.map log.nodeHash)).run = [log.spanHash s]

/-- The run of a plan is the cover of an interval from its end to its start. It is folded to the hash of
the tree over the interval, which stands in the proof where the run begins in the plan. -/
structure Plan.FoldsBorder (p : Plan) (log : Log H) (s : Span) : Prop where
  nonempty : s.start < s.stop
  cover : s.cover = .ok p.runNodes.reverse
  leaves : Tiles p.runNodes s.Holds
  folded : log.FoldsTo p.runNodes s
  assembled : ∃ proof, p.assemble log.combine (p.nodes.map log.nodeHash) = .ok proof ∧
    proof[p.run.start.toNat]? = some (log.spanHash s)

variable (log : Log H)

/-- What hangs to the left off the path to the end of a tree, below some level, is folded to the hash of the
tree over the leaves from where the path is cut off there. -/
theorem Log.foldsTo_leftSiblings {start stop : Word} {d : Nat} (hd : d ≤ 64)
    (hstart : start.toNat = stop.toNat / 2 ^ d * 2 ^ d) (h : start < stop) :
    log.FoldsTo (leftSiblings stop.toNat 0 d) ⟨start, stop⟩ := by
  have hlt := UInt64.lt_iff_toNat_lt.mp h
  have hsplit := Nat.div_add_mod stop.toNat (2 ^ d)
  have hmod := Nat.mod_lt stop.toNat (Nat.two_pow_pos d)
  rw [Nat.mul_comm, ← hstart] at hsplit
  have hcount : leavesUnder stop.toNat d (stop.toNat / 2 ^ d) = stop.toNat - start.toNat := by
    rw [leavesUnder, ← hstart]
    exact Nat.min_eq_right (by omega)
  rw [Log.FoldsTo, log.foldRun_border hd stop.toNat_lt, if_neg (by omega), Log.clippedHash, hcount,
    ← hstart]
  rfl

theorem Log.foldsTo_cover {s : Span} {slopes : Slopes} (h : s.start < s.stop)
    (hslopes : s.slopes = .ok slopes) (hzero : slopes.rising = 0) :
    ∃ border, s.cover = .ok border ∧ log.FoldsTo border.reverse s := by
  obtain ⟨d, hd, hstart, hcover⟩ := Span.cover_of_rising_eq_zero (UInt64.le_of_lt h) hslopes hzero
  refine ⟨_, hcover, ?_⟩
  rw [List.reverse_reverse]
  exact log.foldsTo_leftSiblings hd hstart h

/-- The run of the plan of a climb is the border of the tree behind the turn at the fork. -/
theorem ForkAt.foldsBorder_forkPlan {listed : List Node} {leaf bottom d : Nat} {size : Word}
    (h : ForkAt leaf size.toNat d) (hl : listed.length ≤ 1)
    (hrun : (forkPlan listed leaf bottom size.toNat d).run?.isSome) :
    ∃ turn, (forkPlan listed leaf bottom size.toNat d).FoldsBorder log ⟨turn, size⟩ := by
  have hd := h.level_lt size.toNat_lt
  have hborder : 1 < (leftSiblings size.toNat 0 d).length := Plan.one_lt_length_of_run? hrun
  have hlength : (listed ++ (List.range' bottom (d - bottom)).map (siblingNode leaf) ++
      leftSiblings size.toNat 0 d).length < UInt64.size := length_forkPlan_lt hl hd
  obtain ⟨turn, hturn⟩ : ∃ turn : Word, turn.toNat = size.toNat / 2 ^ d * 2 ^ d :=
    ⟨_, Word.toNat_ofNat_cut size d⟩
  have hcover := Span.cover_from_turn h hturn
  have hinside : turn ≤ size := by
    rw [UInt64.le_iff_toNat_le, hturn]
    exact Nat.div_mul_le_self _ _
  -- an empty interval has no node in its cover, and the run has two or more
  have hlt : turn < size := by
    apply Span.start_lt_stop_of_cover hinside hcover
    intro hnil
    rw [List.reverse_eq_nil_iff.mp hnil] at hborder
    exact Nat.not_lt_zero 1 hborder
  have hfolded := log.foldsTo_leftSiblings hd.le hturn hlt
  have hnodes : (forkPlan listed leaf bottom size.toNat d).runNodes = leftSiblings size.toNat 0 d :=
    Plan.runNodes_ofParts hborder hlength
  refine ⟨turn, hlt, ?_, ?_, ?_, ?_⟩
  · rw [hnodes]
    exact hcover
  · rw [hnodes]
    exact (Span.tiles_of_cover hinside hcover).perm (List.reverse_perm _)
  · rw [hnodes]
    exact hfolded
  · exact Plan.exists_assemble_ofParts log.combine log.nodeHash hborder hlength hfolded

/-- The cover of an interval in which nothing rises, folded from its last node on, gives the hash of the tree
over the interval. Such is the cover of a whole tree, and of the leaves under the run of a plan. -/
theorem borders_fold_to_treeHash :
    (∀ (s : Span) (slopes : Slopes), s.start < s.stop → s.slopes = .ok slopes → slopes.rising = 0 →
      ∃ border, s.cover = .ok border ∧ log.FoldsTo border.reverse s) ∧
    (∀ stop : Word, 0 < stop →
      ∃ border, Span.cover ⟨0, stop⟩ = .ok border ∧ log.FoldsTo border.reverse ⟨0, stop⟩) ∧
    (∀ (r : Request) (plan : Plan), r.plan = .ok plan → plan.run?.isSome →
      ∃ first, plan.FoldsBorder log ⟨first, r.treeSize⟩) := by
  refine ⟨fun s slopes => log.foldsTo_cover, ?_, ?_⟩
  · intro stop h
    exact log.foldsTo_cover h (Span.slopes_from_origin stop) rfl
  · intro r plan hplan hrun
    rcases Request.plan_empty_or_fork hplan with rfl | ⟨listed, leaf, bottom, d, hl, hfork, rfl⟩
    · exact absurd hrun (by decide)
    · exact hfork.foldsBorder_forkPlan log hl hrun

/-- The border of a tree of 15 leaves from the leaf 8 on, which the plan for an older tree of 3 leaves folds. -/
theorem borders_fold_to_treeHash_in_fifteen :
    let plan : Plan := ⟨[⟨0, 2⟩, ⟨0, 3⟩, ⟨1, 0⟩, ⟨2, 1⟩, ⟨0, 14⟩, ⟨1, 6⟩, ⟨2, 2⟩], ⟨4, 7⟩⟩
    ((8 : Word) < 15 ∧ Span.slopes ⟨8, 15⟩ = .ok ⟨0, 7⟩ ∧
      Log.listing.FoldsTo [⟨0, 14⟩, ⟨1, 6⟩, ⟨2, 2⟩] ⟨8, 15⟩) ∧
    ((0 : Word) < 15 ∧ Log.listing.FoldsTo [⟨0, 14⟩, ⟨1, 6⟩, ⟨2, 2⟩, ⟨3, 0⟩] ⟨0, 15⟩) ∧
    ((Request.consistency 3 15).plan = .ok plan ∧ plan.run?.isSome ∧
      ∃ first, plan.FoldsBorder Log.listing ⟨first, 15⟩ ∧
        Log.listing.spanHash ⟨first, 15⟩ = [8, 9, 10, 11, 12, 13, 14]) := by
  intro plan
  obtain ⟨hborders, htrees, hplans⟩ := borders_fold_to_treeHash Log.listing
  have hslopes : Span.slopes ⟨8, 15⟩ = .ok ⟨0, 7⟩ := rfl
  have hplan : (Request.consistency 3 15).plan = .ok plan := by decide +kernel
  obtain ⟨border, hborder, hfold⟩ := hborders ⟨8, 15⟩ _ (by decide) hslopes rfl
  obtain ⟨tree, htree, hroot⟩ := htrees 15 (by decide)
  obtain ⟨first, hfirst⟩ := hplans _ plan hplan (by decide)
  have hlast : Span.cover ⟨8, 15⟩ = .ok [⟨2, 2⟩, ⟨1, 6⟩, ⟨0, 14⟩] := by decide +kernel
  have hwhole : Span.cover ⟨0, 15⟩ = .ok [⟨3, 0⟩, ⟨2, 2⟩, ⟨1, 6⟩, ⟨0, 14⟩] := by decide +kernel
  cases hlast.symm.trans hborder
  cases hwhole.symm.trans htree
  have hhash := List.head_eq_of_cons_eq hfirst.folded
  exact ⟨⟨by decide, hslopes, hfold⟩, ⟨by decide, hroot⟩, hplan, by decide, first, hfirst, hhash.symm⟩

end MerkleLog
