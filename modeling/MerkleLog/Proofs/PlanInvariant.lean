import MerkleLog.Proofs.RequestPlan
import MerkleLog.Session

namespace MerkleLog

universe u v

variable {p next plan : Plan} {H : Type}

theorem Plan.valid_empty : Plan.empty.Valid :=
  .inl rfl

theorem Plan.runFits_iff_valid (p : Plan) : p.runFits = true ↔ p.Valid := by
  obtain ⟨nodes, start, stop⟩ := p
  by_cases heq : start = stop
  · subst heq
    simp [Plan.runFits, Plan.Valid, Span.nothing]
  · have hnone : (⟨start, stop⟩ : Span) ≠ .nothing := by
      intro hz
      cases hz
      exact heq rfl
    have htwo : start < stop ∧ 2 ≤ stop - start ↔ start.toNat + 2 ≤ stop.toNat := by
      simp only [UInt64.lt_iff_toNat_lt, UInt64.le_iff_toNat_le]
      constructor
      · rintro ⟨hlt, hle⟩
        rw [UInt64.toNat_sub_of_le _ _ (UInt64.le_iff_toNat_le.mpr hlt.le)] at hle
        change 2 ≤ _ at hle
        omega
      · intro hle
        rw [UInt64.toNat_sub_of_le _ _ (UInt64.le_iff_toNat_le.mpr (by omega))]
        change _ ∧ 2 ≤ _
        omega
    simp only [Plan.runFits, Plan.Valid, hnone, if_neg heq, false_or, ← htwo, Bool.and_eq_true,
      decide_eq_true_eq]
    tauto

theorem Plan.valid_of_load {document : Json} (h : Plan.load document = .ok plan) : plan.Valid := by
  unfold Plan.load at h
  cases hdraft : Plan.ofJson? document with
  | none => simp [hdraft] at h
  | some draft =>
    simp only [hdraft] at h
    by_cases hfits : draft.runFits = true
    · rw [if_pos hfits] at h
      cases h
      exact (Plan.runFits_iff_valid _).mp hfits
    · rw [if_neg hfits] at h
      cases h

theorem Plan.valid_ofParts {lower border upper : List Node}
    (h : (lower ++ border).length < UInt64.size) : (Plan.ofParts lower border upper).Valid := by
  by_cases hrun : 1 < border.length
  · obtain ⟨hstart, hstop⟩ := Plan.run_ofParts upper hrun h
    right
    rw [hstart, hstop]
    simp only [Plan.ofParts, List.length_append]
    omega
  · exact .inl (if_neg hrun)

theorem valid_forkPlan {listed : List Node} {leaf bottom size d : Nat} (hl : listed.length ≤ 1)
    (hd : d < 64) : (forkPlan listed leaf bottom size d).Valid :=
  Plan.valid_ofParts (length_forkPlan_lt hl hd)

theorem Request.valid_of_plan {r : Request} (h : r.plan = .ok plan) : plan.Valid := by
  rcases Request.plan_empty_or_fork h with rfl | ⟨listed, leaf, bottom, d, hl, hfork, rfl⟩
  · exact Plan.valid_empty
  · exact valid_forkPlan hl (hfork.level_lt r.treeSize.toNat_lt)

theorem Source.valid_of_plan {source : Source} (h : source.plan = .ok plan) : plan.Valid := by
  cases source with
  | request r => exact Request.valid_of_plan h
  | document d => exact Plan.valid_of_load h
  | empty =>
    cases h
    exact Plan.valid_empty

/-- A step that succeeds leaves a valid plan behind, and shows none but valid plans. -/
theorem Step.valid_of_attempt {step : Step H} {answer : Answer H} (hp : p.Valid)
    (h : step.attempt p = .ok (answer, next)) :
    next.Valid ∧ ∀ plan, answer = .plan plan → plan.Valid := by
  cases step with
  | replace source =>
    obtain ⟨plan, hplan, h⟩ := bind_eq_ok_iff.mp h
    cases h
    have hvalid := Source.valid_of_plan hplan
    refine ⟨hvalid, fun plan heq => ?_⟩
    cases heq
    exact hvalid
  | assemble combine store =>
    obtain ⟨result, -, h⟩ := bind_eq_ok_iff.mp h
    cases h
    exact ⟨hp, nofun⟩
  | compare source =>
    obtain ⟨other, -, h⟩ := bind_eq_ok_iff.mp h
    cases h
    exact ⟨hp, nofun⟩
  | write =>
    cases h
    exact ⟨hp, nofun⟩
  | reload =>
    obtain ⟨loaded, hloaded, h⟩ := bind_eq_ok_iff.mp h
    cases h
    exact ⟨Plan.valid_of_load hloaded, nofun⟩
  | release =>
    cases h
    exact ⟨Plan.valid_empty, nofun⟩
  | describe =>
    cases h
    refine ⟨hp, fun plan heq => ?_⟩
    cases heq
    exact hp

theorem Step.valid_of_run (step : Step H) (hp : p.Valid) :
    (step.run p).value.2.Valid ∧ ∀ plan, (step.run p).value.1 = .ok (.plan plan) → plan.Valid := by
  unfold Step.run
  split
  next answer next h =>
    obtain ⟨hnext, hanswer⟩ := Step.valid_of_attempt hp h
    refine ⟨hnext, fun plan heq => ?_⟩
    exact hanswer plan (Except.ok.inj heq)
  next failure h => exact ⟨hp, nofun⟩

theorem Session.valid_of_run (steps : List (Step H)) (hp : p.Valid) :
    (Session.run p steps).value.2.Valid ∧
      ∀ plan, .ok (.plan plan) ∈ (Session.run p steps).value.1 → plan.Valid := by
  induction steps generalizing p with
  | nil => exact ⟨hp, nofun⟩
  | cons step steps ih =>
    obtain ⟨hnext, hanswer⟩ := step.valid_of_run hp
    obtain ⟨hlast, hanswers⟩ := ih hnext
    refine ⟨hlast, fun plan hmem => ?_⟩
    rcases List.mem_cons.mp hmem with heq | hmem
    · exact hanswer plan heq.symm
    · exact hanswers plan hmem

/-- How many hashes the proof has that a plan assembles to. -/
def Plan.proofLength (p : Plan) : Nat :=
  match p.run? with
  | none => p.nodes.length
  | some run => p.nodes.length - (run.stop.toNat - run.start.toNat - 1)

theorem Plan.run?_of_valid (h : p.Valid) :
    p.run? = none ∧ p.run = .nothing ∨
      p.run? = some p.run ∧ p.run.start.toNat + 2 ≤ p.run.stop.toNat ∧
        p.run.stop.toNat ≤ p.nodes.length := by
  rcases h with hnone | ⟨htwo, hend⟩
  · refine .inl ⟨?_, hnone⟩
    rw [Plan.run?, hnone]
    rfl
  · refine .inr ⟨?_, htwo, hend⟩
    exact if_pos (UInt64.lt_iff_toNat_lt.mpr (by omega))

theorem Plan.proofLength_pos (h : p.Valid) (hrun : p.run?.isSome) : 1 ≤ p.proofLength := by
  rcases Plan.run?_of_valid h with ⟨hnone, -⟩ | ⟨hsome, htwo, hend⟩
  · simp [hnone] at hrun
  · simp only [Plan.proofLength, hsome]
    omega

/-- With a hash for each node, a valid plan puts what the run is folded to in the place of the run. -/
theorem Plan.assembleM_of_valid {m : Type u → Type v} [Monad m] [LawfulMonad m] {H : Type u}
    (h : p.Valid) (combine : H → H → m H) {hashes : List H} (hlen : hashes.length = p.nodes.length) :
    (p.run? = none ∧ p.assembleM combine hashes = .ok (pure hashes)) ∨
      (p.run? = some p.run ∧ ∃ (first : H) (later : List H),
        (hashes.take p.run.stop.toNat).drop p.run.start.toNat = first :: later ∧
        later.length = p.run.stop.toNat - p.run.start.toNat - 1 ∧ p.assembleM combine hashes = .ok do
          let root ← later.foldlM (fun below next => combine next below) first
          return hashes.take p.run.start.toNat ++ root :: hashes.drop p.run.stop.toNat) := by
  rcases Plan.run?_of_valid h with ⟨hnone, hrun⟩ | ⟨hsome, htwo, hend⟩
  · refine .inl ⟨hnone, ?_⟩
    simp [Plan.assembleM, hlen, hrun, Span.nothing]
  · refine .inr ⟨hsome, ?_⟩
    have hlength : ((hashes.take p.run.stop.toNat).drop p.run.start.toNat).length =
        p.run.stop.toNat - p.run.start.toNat := by
      simp [hlen, hend]
    cases hfold : (hashes.take p.run.stop.toNat).drop p.run.start.toNat with
    | nil =>
      rw [hfold, List.length_nil] at hlength
      omega
    | cons first later =>
      rw [hfold, List.length_cons] at hlength
      refine ⟨first, later, rfl, by omega, ?_⟩
      have hbounds : ¬ p.run.stop.toNat ≤ p.run.start.toNat := by omega
      simp [Plan.assembleM, hlen, hbounds, Nat.not_lt.mpr hend, hfold, foldRun]

theorem Plan.length_replaced_run (h : p.Valid) (hsome : p.run? = some p.run) {H : Type u}
    {hashes : List H} (hlen : hashes.length = p.nodes.length) (root : H) :
    (hashes.take p.run.start.toNat ++ root :: hashes.drop p.run.stop.toNat).length =
      p.proofLength := by
  rcases Plan.run?_of_valid h with ⟨hnone, -⟩ | ⟨-, htwo, hend⟩
  · simp [hsome] at hnone
  · simp only [Plan.proofLength, hsome, List.length_append, List.length_take, List.length_cons,
      List.length_drop]
    omega

theorem Plan.exists_assemble (h : p.Valid) {H : Type u} (combine : H → H → H) {hashes : List H}
    (hlen : hashes.length = p.nodes.length) :
    ∃ proof, p.assemble combine hashes = .ok proof ∧ proof.length = p.proofLength := by
  rcases Plan.assembleM_of_valid (m := Id) h combine hlen with
    ⟨hnone, hproof⟩ | ⟨hsome, _, _, -, -, hproof⟩
  · refine ⟨hashes, hproof, ?_⟩
    simp only [Plan.proofLength, hnone, hlen]
  · exact ⟨_, hproof, Plan.length_replaced_run h hsome hlen _⟩

theorem Plan.exists_assembleM_state (h : p.Valid) {σ H : Type u} (combine : H → H → StateM σ H)
    {hashes : List H} (hlen : hashes.length = p.nodes.length) :
    ∃ action : StateM σ (List H), p.assembleM combine hashes = .ok action ∧
      ∀ s, (action.run s).1.length = p.proofLength := by
  rcases Plan.assembleM_of_valid h combine hlen with
    ⟨hnone, hproof⟩ | ⟨hsome, _, _, -, -, hproof⟩
  · refine ⟨_, hproof, fun s => ?_⟩
    simp only [Plan.proofLength, hnone, ← hlen]
    rfl
  · exact ⟨_, hproof, fun s => Plan.length_replaced_run h hsome hlen _⟩

/-- Plans that are asked for, loaded or empty are valid, and a session keeps its plan valid. A valid
plan has no run or one of two nodes or more, and with a hash for each node it assembles to a proof,
one hash in the place of the run. -/
theorem session_plans_valid_and_assemble :
    (∀ (source : Source) (plan : Plan), source.plan = .ok plan → plan.Valid) ∧
    (∀ (H : Type) (p : Plan) (steps : List (Step H)), p.Valid →
      (Session.run p steps).value.2.Valid ∧
        ∀ plan, .ok (.plan plan) ∈ (Session.run p steps).value.1 → plan.Valid) ∧
    (∀ p : Plan, p.Valid →
      (p.run? = none ∧ p.run = .nothing ∨
        p.run? = some p.run ∧ p.run.start.toNat + 2 ≤ p.run.stop.toNat ∧
          p.run.stop.toNat ≤ p.nodes.length) ∧
      (p.run?.isSome → 1 ≤ p.proofLength) ∧
      ∀ (σ H : Type u) (hashes : List H), hashes.length = p.nodes.length →
        (∀ combine : H → H → H,
          ∃ proof, p.assemble combine hashes = .ok proof ∧ proof.length = p.proofLength) ∧
        (∀ combine : H → H → StateM σ H,
          ∃ action : StateM σ (List H), p.assembleM combine hashes = .ok action ∧
            ∀ s, (action.run s).1.length = p.proofLength)) := by
  refine ⟨fun _ _ => Source.valid_of_plan, fun _ _ steps => Session.valid_of_run steps, ?_⟩
  intro p h
  refine ⟨Plan.run?_of_valid h, Plan.proofLength_pos h, fun σ H hashes hlen => ⟨?_, ?_⟩⟩
  · intro combine
    exact Plan.exists_assemble h combine hlen
  · intro combine
    exact Plan.exists_assembleM_state h combine hlen

/-- A session that drops its plan, and ends with the plan for an older tree of 3 leaves. -/
theorem session_plans_valid_and_assemble_in_seven :
    let plan : Plan := ⟨[⟨0, 3⟩, ⟨1, 0⟩, ⟨0, 6⟩, ⟨1, 2⟩], ⟨2, 4⟩⟩
    let last : Plan := ⟨[⟨0, 2⟩, ⟨0, 3⟩, ⟨1, 0⟩, ⟨0, 6⟩, ⟨1, 2⟩], ⟨3, 5⟩⟩
    let steps : List (Step String) := [.reload, .release, .replace (.request (.consistency 3 7))]
    (Source.request (.inclusion 2 7)).plan = .ok plan ∧ plan.Valid ∧
      (Session.run plan steps).value.2 = last ∧ last.Valid ∧ last.run? = some ⟨3, 5⟩ ∧
      ∃ proof, last.assemble (· ++ ·) ["c", "d", "ab", "g", "ef"] = .ok proof ∧ proof.length = 4 := by
  intro plan last steps
  obtain ⟨hsources, hsessions, hproofs⟩ := session_plans_valid_and_assemble
  have hplan : (Source.request (.inclusion 2 7)).plan = .ok plan := by decide +kernel
  have hvalid := hsources _ _ hplan
  have hlast : (Session.run plan steps).value.2 = last := by decide +kernel
  have hkept := (hsessions String plan steps hvalid).1
  rw [hlast] at hkept
  have hproof := ((hproofs last hkept).2.2 Nat String ["c", "d", "ab", "g", "ef"] rfl).1 (· ++ ·)
  exact ⟨hplan, hvalid, hlast, hkept, rfl, hproof⟩

end MerkleLog
