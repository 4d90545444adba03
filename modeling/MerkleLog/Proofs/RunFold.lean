import MerkleLog.Proofs.PlanInvariant

namespace MerkleLog

universe u

section

variable {σ H : Type u} {combine : H → H → StateM σ H} {hashes later rest : List H} {start next : Nat}
  {s now : σ} {below root : H} {calls : List (H × H)}

/-- The states that the fold of a run goes through, from the hash at `start` on: all hashes before the one
at `next` are folded to `below`, each call had its own hash on the left and on the right what was folded
before, and the last call left the state as it is now. -/
inductive FoldReach (combine : H → H → StateM σ H) (hashes : List H) (start : Nat) (s : σ) :
    Nat → H → σ → List (H × H) → Prop
  | first {h : H} : hashes[start]? = some h → FoldReach combine hashes start s (start + 1) h s []
  | call {next : Nat} {below h : H} {now : σ} {calls : List (H × H)} :
      FoldReach combine hashes start s next below now calls → hashes[next]? = some h →
      FoldReach combine hashes start s (next + 1) ((combine h below).run now).1
        ((combine h below).run now).2 (calls ++ [(h, below)])

theorem FoldReach.length_calls (h : FoldReach combine hashes start s next below now calls) :
    start + 1 + calls.length = next := by
  induction h with
  | first _ => rfl
  | call _ _ ih =>
    rw [List.length_append, List.length_singleton]
    omega

theorem FoldReach.unique {below' : H} {now' : σ} {calls' : List (H × H)}
    (h : FoldReach combine hashes start s next below now calls)
    (h' : FoldReach combine hashes start s next below' now' calls') :
    below = below' ∧ now = now' ∧ calls = calls' := by
  induction h generalizing below' now' calls' with
  | first hfirst =>
    generalize hnext : start + 1 = next at h'
    cases h' with
    | first hfirst' =>
      cases hfirst.symm.trans hfirst'
      exact ⟨rfl, rfl, rfl⟩
    | call reach _ =>
      have hlength := reach.length_calls
      omega
  | @call next below h now calls reach hcall ih =>
    generalize hnext : next + 1 = next' at h'
    cases h' with
    | first _ =>
      have hlength := reach.length_calls
      omega
    | call reach' hcall' =>
      cases hnext
      obtain ⟨rfl, rfl, rfl⟩ := ih reach'
      cases hcall.symm.trans hcall'
      exact ⟨rfl, rfl, rfl⟩

/-- From any of its states the fold goes on through all later hashes. -/
theorem FoldReach.foldlM (reach : FoldReach combine hashes start s next below now calls)
    (hlater : hashes.drop next = later ++ rest) :
    let last := (later.foldlM (fun below next => combine next below) below).run now
    ∃ calls, FoldReach combine hashes start s (next + later.length) last.1 last.2 calls := by
  induction later generalizing next below now calls with
  | nil => exact ⟨calls, reach⟩
  | cons h later ih =>
    obtain ⟨hnext, hrest⟩ := drop_eq_cons hlater
    have hstep := ih (.call reach hnext) hrest
    rwa [List.length_cons, Nat.add_comm later.length, ← Nat.add_assoc]

/-- Combines two hashes as given, and keeps a list of which were combined. -/
def noting (combine : H → H → StateM σ H) (l r : H) : StateM (σ × List (H × H)) H :=
  fun now =>
    let made := (combine l r).run now.1
    (made.1, made.2, now.2 ++ [(l, r)])

/-- The list that is kept is the list of the calls, and keeping it changes nothing else. -/
theorem FoldReach.of_noting {noted : σ × List (H × H)}
    (reach : FoldReach (noting combine) hashes start (s, []) next below noted calls) :
    FoldReach combine hashes start s next below noted.1 calls ∧ noted.2 = calls := by
  induction reach with
  | first hfirst => exact ⟨.first hfirst, rfl⟩
  | call _ hcall ih =>
    obtain ⟨reach, hcalls⟩ := ih
    refine ⟨.call reach hcall, ?_⟩
    rw [← hcalls]
    rfl

end

section

variable {σ H : Type u} {p : Plan} {hashes : List H}

theorem Plan.assembleM_eq_error_iff (h : p.Valid) (combine : H → H → StateM σ H) {failure : Failure} :
    p.assembleM combine hashes = .error failure ↔ hashes.length ≠ p.nodes.length ∧
      failure = .refused (.hashCount hashes.length p.nodes.length) := by
  by_cases hlen : hashes.length = p.nodes.length
  · obtain ⟨action, haction, -⟩ := Plan.exists_assembleM_state h combine hlen
    rw [haction]
    exact iff_of_false nofun fun hmismatch => hmismatch.1 hlen
  · have hrefused : p.assembleM combine hashes =
        .error (.refused (.hashCount hashes.length p.nodes.length)) := if_pos hlen
    rw [hrefused, Except.error.injEq]
    exact ⟨fun heq => ⟨hlen, heq.symm⟩, fun hmismatch => hmismatch.2.symm⟩

theorem Plan.assembleM_of_no_run (h : p.Valid) (combine : H → H → StateM σ H)
    (hlen : hashes.length = p.nodes.length) (hrun : ¬ p.run.start < p.run.stop) :
    p.assembleM combine hashes = .ok (pure hashes) := by
  rcases Plan.assembleM_of_valid h combine hlen with ⟨-, hproof⟩ | ⟨hsome, -⟩
  · exact hproof
  · simp [Plan.run?, Span.nonempty?, hrun] at hsome

theorem Plan.exists_foldReach (h : p.Valid) (combine : H → H → StateM σ H)
    (hlen : hashes.length = p.nodes.length) (hrun : p.run.start < p.run.stop) :
    ∃ action, p.assembleM combine hashes = .ok action ∧ ∀ s, ∃ root last calls,
      FoldReach combine hashes p.run.start.toNat s p.run.stop.toNat root last calls ∧
        action.run s =
          (hashes.take p.run.start.toNat ++ root :: hashes.drop p.run.stop.toNat, last) := by
  rcases Plan.assembleM_of_valid h combine hlen with
    ⟨hnone, -⟩ | ⟨-, first, later, hfold, hlater, hproof⟩
  · simp [Plan.run?, Span.nonempty?, hrun] at hnone
  · refine ⟨_, hproof, fun s => ?_⟩
    rw [UInt64.lt_iff_toNat_lt] at hrun
    have hstart : p.run.start.toNat ≤ (hashes.take p.run.stop.toNat).length := by
      have hlength := congrArg List.length hfold
      rw [List.length_drop, List.length_cons] at hlength
      omega
    have hdrop : hashes.drop p.run.start.toNat = first :: (later ++ hashes.drop p.run.stop.toNat) :=
      calc hashes.drop p.run.start.toNat
          = (hashes.take p.run.stop.toNat ++ hashes.drop p.run.stop.toNat).drop p.run.start.toNat := by
            rw [List.take_append_drop]
        _ = (hashes.take p.run.stop.toNat).drop p.run.start.toNat ++ hashes.drop p.run.stop.toNat :=
            List.drop_append_of_le_length hstart
        _ = first :: (later ++ hashes.drop p.run.stop.toNat) := by
            rw [hfold, List.cons_append]
    obtain ⟨hfirst, hrest⟩ := drop_eq_cons hdrop
    have hbegin : FoldReach combine hashes p.run.start.toNat s (p.run.start.toNat + 1) first s [] :=
      .first hfirst
    obtain ⟨calls, hreach⟩ := hbegin.foldlM hrest
    rw [show p.run.start.toNat + 1 + later.length = p.run.stop.toNat by omega] at hreach
    exact ⟨_, _, calls, hreach, rfl⟩

end

section

variable {H K : Type u} {g : H → K} {combine : H → H → H} {combine' : K → K → K}

theorem climbBorder_map (hg : ∀ l r, g (combine l r) = combine' (g l) (g r)) (seed : H)
    (proof : List H) : climbBorder combine' (g seed) (proof.map g) = g (climbBorder combine seed proof) := by
  induction proof generalizing seed with
  | nil => rfl
  | cons h proof ih =>
    have hrest := ih (combine h seed)
    rw [hg] at hrest
    exact hrest

theorem foldRun_map (hg : ∀ l r, g (combine l r) = combine' (g l) (g r)) (run : List H) :
    (foldRun (m := Id) combine' (run.map g)).run = (foldRun (m := Id) combine run).run.map g := by
  cases run with
  | nil => rfl
  | cons first later =>
    rw [List.map_cons, foldRun_cons, foldRun_cons, climbBorder_map hg]
    rfl

theorem Plan.assemble_eq (p : Plan) (combine : H → H → H) (hashes : List H) :
    p.assemble combine hashes =
      if hashes.length ≠ p.nodes.length then
        .error (.refused (.hashCount hashes.length p.nodes.length))
      else if p.run.stop.toNat ≤ p.run.start.toNat then .ok hashes
      else if hashes.length < p.run.stop.toNat then
        .error (.fault (.pastHashes p.run.stop hashes.length))
      else .ok (hashes.take p.run.start.toNat ++
        (foldRun (m := Id) combine ((hashes.take p.run.stop.toNat).drop p.run.start.toNat)).run ++
          hashes.drop p.run.stop.toNat) :=
  rfl

/-- A map that goes with the combining of hashes can be applied before or after the assembly. -/
theorem Plan.assemble_map (hg : ∀ l r, g (combine l r) = combine' (g l) (g r)) (p : Plan)
    (hashes : List H) :
    p.assemble combine' (hashes.map g) = (p.assemble combine hashes).map (List.map g) := by
  have hfold := foldRun_map hg ((hashes.take p.run.stop.toNat).drop p.run.start.toNat)
  rw [Plan.assemble_eq, Plan.assemble_eq, List.length_map]
  split
  next => rfl
  next =>
    split
    next => rfl
    next =>
      split
      next => rfl
      next =>
        rw [← List.map_take, ← List.map_drop, ← List.map_take, ← List.map_drop, hfold,
          ← List.map_append, ← List.map_append]
        rfl

end

/-- A number of hashes other than that of the nodes is refused, and there is nothing to run then. Otherwise
the hashes stay as they are, but for those of the run, if there is one: in their place stands what a fold
from the first to the last of them leads to, with a call for each hash after the first. So a list of the
calls, kept in the state, has just these. A map that goes with the combining of hashes goes with the
assembly. -/
theorem assembly_folds_run_in_order {p : Plan} (h : p.Valid) :
    (∀ (σ H : Type u) (combine : H → H → StateM σ H) (hashes : List H),
      (∀ failure, p.assembleM combine hashes = .error failure ↔ hashes.length ≠ p.nodes.length ∧
        failure = .refused (.hashCount hashes.length p.nodes.length)) ∧
      (hashes.length = p.nodes.length → ¬ p.run.start < p.run.stop →
        p.assembleM combine hashes = .ok (pure hashes)) ∧
      (hashes.length = p.nodes.length → p.run.start < p.run.stop →
        ∃ action noted, p.assembleM combine hashes = .ok action ∧
          p.assembleM (noting combine) hashes = .ok noted ∧
          ∀ s, ∃ root last calls,
            FoldReach combine hashes p.run.start.toNat s p.run.stop.toNat root last calls ∧
            calls.length = p.run.stop.toNat - p.run.start.toNat - 1 ∧
            action.run s =
              (hashes.take p.run.start.toNat ++ root :: hashes.drop p.run.stop.toNat, last) ∧
            noted.run (s, []) =
              (hashes.take p.run.start.toNat ++ root :: hashes.drop p.run.stop.toNat,
                last, calls))) ∧
    (∀ (H K : Type u) (combine : H → H → H) (combine' : K → K → K) (g : H → K),
      (∀ l r, g (combine l r) = combine' (g l) (g r)) → ∀ hashes,
        p.assemble combine' (hashes.map g) = (p.assemble combine hashes).map (List.map g)) := by
  refine ⟨fun σ H combine hashes => ⟨fun failure => Plan.assembleM_eq_error_iff h combine,
    Plan.assembleM_of_no_run h combine, ?_⟩, fun H K combine combine' g hg => Plan.assemble_map hg p⟩
  intro hlen hrun
  obtain ⟨action, haction, hreach⟩ := Plan.exists_foldReach h combine hlen hrun
  obtain ⟨noted, hnoted, hreach'⟩ := Plan.exists_foldReach h (noting combine) hlen hrun
  refine ⟨action, noted, haction, hnoted, fun s => ?_⟩
  obtain ⟨root, last, calls, hfold, hproof⟩ := hreach s
  obtain ⟨root', last', calls', hfold', hproof'⟩ := hreach' (s, [])
  obtain ⟨hsame, hcalls⟩ := hfold'.of_noting
  obtain ⟨rfl, rfl, rfl⟩ := hfold.unique hsame
  have hlength := hfold.length_calls
  exact ⟨root, _, calls, hfold, by omega, hproof, hproof'.trans (by rw [← hcalls])⟩

/-- The plan for the first of 15 leaves, whose run is the last three of six nodes. Each call puts its number
between the two hashes. -/
theorem assembly_folds_run_in_order_of_fifteen :
    let plan : Plan := ⟨[⟨0, 1⟩, ⟨1, 1⟩, ⟨2, 1⟩, ⟨0, 14⟩, ⟨1, 6⟩, ⟨2, 2⟩], ⟨3, 6⟩⟩
    let number : List Nat → List Nat → StateM Nat (List Nat) :=
      fun l r calls => (l ++ calls :: r, calls + 1)
    let hashes : List (List Nat) := [[10], [11], [12], [13], [14], [15]]
    plan.Valid ∧ inclusionPlan 0 15 = .ok plan ∧
      plan.assembleM number [[10], [11]] = .error (.refused (.hashCount 2 6)) ∧
      (hashes.length = plan.nodes.length ∧ plan.run.start < plan.run.stop ∧
        ∃ action noted, plan.assembleM number hashes = .ok action ∧
          plan.assembleM (noting number) hashes = .ok noted ∧
          action.run 0 = ([[10], [11], [12], [15, 1, 14, 0, 13]], 2) ∧
          noted.run (0, []) = ([[10], [11], [12], [15, 1, 14, 0, 13]],
            2, [([14], [13]), ([15], [14, 0, 13])])) ∧
      plan.assemble (fun a b => a + b + 1) (hashes.map List.length) = .ok [1, 1, 1, 5] := by
  intro plan number hashes
  have hvalid : plan.Valid := by decide
  have hplan : inclusionPlan 0 15 = .ok plan := by decide +kernel
  obtain ⟨hstate, hpure⟩ := assembly_folds_run_in_order hvalid
  obtain ⟨hrefused, -, -⟩ := hstate Nat (List Nat) number [[10], [11]]
  obtain ⟨-, -, hfolds⟩ := hstate Nat (List Nat) number hashes
  obtain ⟨action, noted, haction, hnoted, hruns⟩ := hfolds rfl (by decide)
  obtain ⟨root, last, calls, hreach, -, hproof, hproof'⟩ := hruns 0
  have hfirst : FoldReach number hashes 3 0 4 [13] 0 [] := .first rfl
  have hsecond : FoldReach number hashes 3 0 5 [14, 0, 13] 1 [([14], [13])] :=
    hfirst.call (show hashes[4]? = some [14] from rfl)
  have hexact : FoldReach number hashes 3 0 6 [15, 1, 14, 0, 13] 2
      [([14], [13]), ([15], [14, 0, 13])] :=
    hsecond.call (show hashes[5]? = some [15] from rfl)
  obtain ⟨rfl, rfl, rfl⟩ := hreach.unique hexact
  have hmap := hpure (List Nat) Nat (fun l r => l ++ 0 :: r) (fun a b => a + b + 1) List.length
    (by intro l r; rw [List.length_append, List.length_cons, Nat.add_assoc]) hashes
  exact ⟨hvalid, hplan, (hrefused _).mpr ⟨by decide, rfl⟩,
    ⟨rfl, by decide, action, noted, haction, hnoted, hproof, hproof'⟩, hmap⟩

end MerkleLog
