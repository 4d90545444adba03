import MerkleLog.Plan
import MerkleLog.Proofs.ClippedTree
import MerkleLog.Proofs.Row
import MerkleLog.Verifier

namespace MerkleLog

universe u

variable {H : Type u}

theorem foldRun_cons (combine : H → H → H) (first : H) (later : List H) :
    (foldRun (m := Id) combine (first :: later)).run = [climbBorder combine first later] := by
  change [Id.run (later.foldlM (fun below next => combine next below) first)] = _
  rw [List.idRun_foldlM]
  rfl

theorem foldRun_concat (combine : H → H → H) {run : List H} {root last : H}
    (h : (foldRun (m := Id) combine run).run = [root]) :
    (foldRun (m := Id) combine (run ++ [last])).run = [combine last root] := by
  cases run with
  | nil => cases h
  | cons first later =>
    rw [foldRun_cons] at h
    cases h
    rw [List.cons_append, foldRun_cons, climbBorder, List.foldl_append]
    rfl

theorem foldRun_eq_nil_iff (combine : H → H → H) {run : List H} :
    (foldRun (m := Id) combine run).run = [] ↔ run = [] := by
  cases run with
  | nil => exact ⟨fun _ => rfl, fun _ => rfl⟩
  | cons first later =>
    rw [foldRun_cons]
    simp

theorem Log.nodeHash_ofNat (log : Log H) {level index : Nat} (hl : level < 256) (hi : index < 2 ^ 64) :
    log.nodeHash (Node.ofNat level index) = log.subtreeHash level index := by
  rw [Log.nodeHash, Node.ofNat_level hl, Node.ofNat_index hi]

/-- The right border below a level, folded from the lowest node up, is the tree over the leaves that
no complete subtree of that level covers. -/
theorem Log.foldRun_border (log : Log H) {size d : Nat} (hd : d ≤ 64) (hs : size < 2 ^ 64) :
    (foldRun (m := Id) log.combine ((leftSiblings size 0 d).map log.nodeHash)).run =
      if size % 2 ^ d = 0 then [] else [log.clippedHash size d (size / 2 ^ d)] := by
  induction d with
  | zero =>
    rw [pow_zero, Nat.mod_one, if_pos rfl]
    rfl
  | succ d ih =>
    have hrest := ih (by omega)
    have hpos := Nat.two_pow_pos d
    have hmod := mod_two_pow_succ size d
    have hdiv := Nat.div_add_mod size (2 ^ d)
    have hhalf := div_two_pow_succ size d
    rw [leftSiblings_succ, List.map_append]
    rcases Nat.mod_two_eq_zero_or_one (size / 2 ^ d) with hbit | hbit
    · -- the last node of the level is a first child, and its parent has no more leaves
      have hindex : size / 2 ^ d = 2 * (size / 2 ^ (d + 1)) := by omega
      have hlast : size ≤ (2 * (size / 2 ^ (d + 1)) + 1) * 2 ^ d := by
        rw [← hindex]
        exact (lt_succ_div_mul size d).le
      rw [hmod, hbit, Nat.mul_zero, Nat.add_zero, if_neg (by decide), List.map_nil, List.append_nil,
        hrest, log.clippedHash_succ_of_le hlast, hindex]
    · -- its first child is complete and stands to the left of what is folded so far
      have hindex : size / 2 ^ d = 2 * (size / 2 ^ (d + 1)) + 1 := by omega
      have hcover : (2 * (size / 2 ^ (d + 1)) + 1) * 2 ^ d = 2 ^ d * (size / 2 ^ d) := by
        rw [← hindex, Nat.mul_comm]
      have hnode : log.nodeHash (Node.ofNat d (size / 2 ^ d - 1)) =
          log.clippedHash size d (2 * (size / 2 ^ (d + 1))) := by
        have hlt := Nat.lt_of_le_of_lt (Nat.div_le_self size (2 ^ d)) hs
        rw [log.nodeHash_ofNat (by omega) (by omega), hindex, Nat.add_sub_cancel,
          log.clippedHash_of_complete (by omega)]
      have hmore : size % 2 ^ (d + 1) ≠ 0 := by
        rw [hmod, hbit]
        omega
      rw [hbit, if_pos rfl, if_neg hmore, List.map_singleton, hnode]
      by_cases hzero : size % 2 ^ d = 0
      · rw [if_pos hzero, foldRun_eq_nil_iff] at hrest
        rw [hrest, List.nil_append, foldRun_cons, log.clippedHash_succ_of_le (by omega)]
        rfl
      · rw [if_neg hzero] at hrest
        rw [foldRun_concat log.combine hrest, log.clippedHash_succ_of_lt (by omega), hindex]

/-- A plan in three parts, of which the middle one is the run if it has two nodes or more. -/
def Plan.ofParts (lower border upper : List Node) : Plan :=
  ⟨lower ++ border ++ upper,
    if 1 < border.length then ⟨.ofNat lower.length, .ofNat (lower ++ border).length⟩ else .nothing⟩

theorem Plan.run_ofParts {lower border : List Node} (upper : List Node) (hrun : 1 < border.length)
    (h : (lower ++ border).length < UInt64.size) :
    (Plan.ofParts lower border upper).run.start.toNat = lower.length ∧
      (Plan.ofParts lower border upper).run.stop.toNat = (lower ++ border).length := by
  have hlower : lower.length < UInt64.size := by
    rw [List.length_append] at h
    omega
  rw [Plan.ofParts, if_pos hrun]
  exact ⟨UInt64.toNat_ofNat_of_lt' hlower, UInt64.toNat_ofNat_of_lt' h⟩

theorem foldRun_of_length_le_one (combine : H → H → H) {run : List H} (h : run.length ≤ 1) :
    (foldRun (m := Id) combine run).run = run := by
  match run, h with
  | [], _ => rfl
  | [first], _ => exact foldRun_cons combine first []

/-- Assembling a plan in three parts folds the middle one, also where it has no more than a node. -/
theorem Plan.assemble_ofParts (combine : H → H → H) (hash : Node → H) {lower border upper : List Node}
    (h : (lower ++ border).length < UInt64.size) :
    (Plan.ofParts lower border upper).assemble combine ((lower ++ border ++ upper).map hash) =
      .ok (lower.map hash ++ (foldRun (m := Id) combine (border.map hash)).run ++ upper.map hash) := by
  have hcount : ((lower ++ border ++ upper).map hash).length = (lower ++ border ++ upper).length :=
    List.length_map _
  have hnodes : (Plan.ofParts lower border upper).nodes = lower ++ border ++ upper := rfl
  rw [Plan.assemble, Plan.assembleM, hnodes, if_neg (fun hne => hne hcount), hcount]
  by_cases hrun : 1 < border.length
  · obtain ⟨hstart, hstop⟩ := Plan.run_ofParts upper hrun h
    have htake : ((lower ++ border ++ upper).map hash).take (lower ++ border).length =
        lower.map hash ++ border.map hash := by
      rw [List.map_append, List.take_left' (List.length_map _), List.map_append]
    have hdrop : ((lower ++ border ++ upper).map hash).drop (lower ++ border).length =
        upper.map hash := by
      rw [List.map_append, List.drop_left' (List.length_map _)]
    have hfirst : ((lower ++ border ++ upper).map hash).take lower.length = lower.map hash := by
      rw [List.append_assoc, List.map_append, List.take_left' (List.length_map _)]
    have hmiddle : (lower.map hash ++ border.map hash).drop lower.length = border.map hash :=
      List.drop_left' (List.length_map _)
    rw [hstart, hstop, if_neg, if_neg, htake, hdrop, hfirst, hmiddle]
    · rfl
    · simp only [List.length_append]
      omega
    · simp only [List.length_append]
      omega
  · have hnone : (Plan.ofParts lower border upper).run = .nothing := if_neg hrun
    rw [hnone, if_pos (show Span.nothing.stop.toNat ≤ Span.nothing.start.toNat from Nat.le_refl 0),
      foldRun_of_length_le_one combine (by rw [List.length_map]; omega),
      List.map_append, List.map_append]
    rfl

theorem Word.add_one_ofNat {n : Nat} (h : n + 1 < UInt64.size) :
    Word.add (.ofNat n) 1 = .ok (.ofNat (n + 1)) := by
  rw [Word.add_eq_ok_iff, UInt64.toNat_ofNat_of_lt' h, UInt64.toNat_ofNat_of_lt' (by omega)]
  rfl

theorem Plan.push_ofParts (node : Node) {lower border upper : List Node}
    (h : (node :: lower ++ border).length < UInt64.size) :
    (Plan.ofParts lower border upper).push node = .ok (.ofParts (node :: lower) border upper) := by
  have hnodes : (Plan.ofParts lower border upper).nodes = lower ++ border ++ upper := rfl
  have hlength : (lower ++ border).length + 1 < UInt64.size := h
  have hlower : lower.length + 1 < UInt64.size := by
    rw [List.length_append] at hlength
    omega
  rw [Plan.push, hnodes]
  by_cases hrun : 1 < border.length
  · have hlt : UInt64.ofNat lower.length < UInt64.ofNat (lower ++ border).length := by
      rw [UInt64.lt_iff_toNat_lt, UInt64.toNat_ofNat_of_lt' (by omega),
        UInt64.toNat_ofNat_of_lt' (by omega), List.length_append]
      omega
    simp only [if_pos hlt, Span.next, Word.add_one_ofNat hlower, Word.add_one_ofNat hlength, bind,
      Except.bind, pure, Except.pure, Plan.ofParts, if_pos hrun]
    rfl
  · have hlt : ¬ Span.nothing.start < Span.nothing.stop := by decide
    simp only [if_neg hlt, bind, Except.bind, pure, Except.pure, Plan.ofParts, if_neg hrun,
      List.cons_append]

end MerkleLog
