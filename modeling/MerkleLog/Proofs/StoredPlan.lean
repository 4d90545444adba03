import MerkleLog.Proofs.PlanInvariant

namespace MerkleLog

theorem Json.word?_ofWord (w : Word) : (Json.ofWord w).word? = some w := by
  have hrange : (0 : Int) ≤ w.toNat ∧ (w.toNat : Int) < UInt64.size :=
    ⟨Int.natCast_nonneg _, Int.ofNat_lt.mpr w.toNat_lt⟩
  rw [Json.ofWord, Json.word?, if_pos hrange, Int.toNat_natCast, UInt64.ofNat_toNat]

theorem Json.level?_integer (level : UInt8) : (Json.integer level.toNat).level? = some level := by
  have hrange : (0 : Int) ≤ level.toNat ∧ (level.toNat : Int) < UInt8.size :=
    ⟨Int.natCast_nonneg _, Int.ofNat_lt.mpr level.toNat_lt⟩
  rw [Json.level?, if_pos hrange, Int.toNat_natCast, UInt8.ofNat_toNat]

theorem Node.ofJson?_object {fields : List (String × Json)} {level index : Json} {n : Node}
    (hl : fields.lookup "level" = some level) (hi : fields.lookup "index" = some index)
    (hlevel : level.level? = some n.level) (hindex : index.word? = some n.index) :
    Node.ofJson? (.object fields) = some n := by
  simp only [Node.ofJson?, hl, hi, hlevel, hindex, Option.bind_eq_bind, Option.bind_some]
  rfl

theorem Node.ofJson?_toJson (n : Node) : Node.ofJson? n.toJson = some n :=
  Node.ofJson?_object rfl rfl (Json.level?_integer n.level) (Json.word?_ofWord n.index)

theorem Node.toJson_inj {m n : Node} : m.toJson = n.toJson ↔ m = n := by
  constructor
  · intro h
    have hread := congrArg Node.ofJson? h
    rw [Node.ofJson?_toJson, Node.ofJson?_toJson] at hread
    exact Option.some.inj hread
  · exact congrArg Node.toJson

theorem mapM_ofJson?_toJson (nodes : List Node) :
    (nodes.map Node.toJson).mapM Node.ofJson? = some nodes := by
  induction nodes with
  | nil => rfl
  | cons n nodes ih => simp [List.mapM_cons, Node.ofJson?_toJson, ih]

theorem Plan.ofJson?_object (nodes start stop : Json) :
    Plan.ofJson? (.object [("ids", nodes), ("begin", start), ("end", stop)]) =
      Plan.draft? nodes start stop :=
  rfl

theorem Plan.draft?_eq {nodes start stop : Json} {items : List Json} {p : Plan}
    (hitems : nodes.items? = some items) (hnodes : items.mapM Node.ofJson? = some p.nodes)
    (hstart : start.word? = some p.run.start) (hstop : stop.word? = some p.run.stop) :
    Plan.draft? nodes start stop = some p := by
  simp only [Plan.draft?, hitems, hnodes, hstart, hstop, Option.bind_eq_bind, Option.bind_some]
  rfl

theorem Plan.ofJson?_toJson (p : Plan) : Plan.ofJson? p.toJson = some p := by
  rw [Plan.toJson, Plan.ofJson?_object]
  exact Plan.draft?_eq rfl (mapM_ofJson?_toJson p.nodes) (Json.word?_ofWord p.run.start)
    (Json.word?_ofWord p.run.stop)

theorem Plan.toJson_inj {p q : Plan} : p.toJson = q.toJson ↔ p = q := by
  constructor
  · intro h
    have hread := congrArg Plan.ofJson? h
    rw [Plan.ofJson?_toJson, Plan.ofJson?_toJson] at hread
    exact Option.some.inj hread
  · exact congrArg Plan.toJson

theorem Plan.load_toJson_iff {p : Plan} : Plan.load p.toJson = .ok p ↔ p.Valid := by
  constructor
  · exact Plan.valid_of_load
  · intro h
    have hfits := p.runFits_iff_valid.mpr h
    simp only [Plan.load, Plan.ofJson?_toJson, if_pos hfits]

theorem Step.run_reload {p : Plan} (H : Type) (h : p.Valid) :
    (Step.run p (.reload : Step H)).value = (.ok (.verdict true), p) := by
  have hattempt : Step.attempt p (.reload : Step H) = .ok (.verdict true, p) := by
    simp [Step.attempt, Plan.load_toJson_iff.mpr h, bind, Except.bind, pure, Except.pure]
  rw [Step.run, hattempt]

/-- A plan loads back from what is written of it exactly when it is valid, as all plans are that are
asked for, loaded or empty. So a loaded plan is known by what is written of it, whatever the document
looked like. Nodes are written and read back alike. -/
theorem stored_plans_load_back :
    (∀ p : Plan, Plan.load p.toJson = .ok p ↔ p.Valid) ∧
    (∀ (source : Source) (p : Plan), source.plan = .ok p → Plan.load p.toJson = .ok p) ∧
    (∀ (document : Json) (p : Plan), Plan.load document = .ok p → Plan.load p.toJson = .ok p) ∧
    (∀ (d e : Json) (p q : Plan), Plan.load d = .ok p → Plan.load e = .ok q →
      (p = q ↔ p.toJson = q.toJson)) ∧
    (∀ (H : Type) (p : Plan), p.Valid →
      (Step.run p (.reload : Step H)).value = (.ok (.verdict true), p)) ∧
    (∀ n : Node, Node.ofJson? n.toJson = some n) ∧
    (∀ (document : Json) (n : Node), Node.ofJson? document = some n →
      Node.ofJson? n.toJson = some n) ∧
    (∀ (d e : Json) (m n : Node), Node.ofJson? d = some m → Node.ofJson? e = some n →
      (m = n ↔ m.toJson = n.toJson)) := by
  refine ⟨fun p => Plan.load_toJson_iff, ?_, ?_, ?_, fun H p => Step.run_reload H, Node.ofJson?_toJson,
    ?_, ?_⟩
  · intro source p h
    exact Plan.load_toJson_iff.mpr (Source.valid_of_plan h)
  · intro document p h
    exact Plan.load_toJson_iff.mpr (Plan.valid_of_load h)
  · intro d e p q _ _
    exact Plan.toJson_inj.symm
  · intro document n _
    exact Node.ofJson?_toJson n
  · intro d e m n _ _
    exact Node.toJson_inj.symm

/-- A document made of arrays, one of whose nodes is an object with a key too many. -/
theorem stored_plans_load_back_from_arrays :
    let plan : Plan := ⟨[⟨0, 3⟩, ⟨1, 0⟩, ⟨0, 6⟩, ⟨1, 2⟩], ⟨2, 4⟩⟩
    let first : Json := .object [("index", .integer 3), ("hash", .null), ("level", .integer 0)]
    let document : Json := .array [.array [first, .array [.integer 1, .integer 0],
      .array [.integer 0, .integer 6], .array [.integer 1, .integer 2]], .integer 2, .integer 4]
    (Source.request (.inclusion 2 7)).plan = .ok plan ∧ Plan.load document = .ok plan ∧
      plan.Valid ∧ Plan.load plan.toJson = .ok plan ∧ plan.toJson ≠ Plan.empty.toJson ∧
      (Step.run plan (.reload : Step String)).value = (.ok (.verdict true), plan) ∧
      Node.ofJson? first = some ⟨0, 3⟩ ∧ Node.ofJson? (Node.toJson ⟨0, 3⟩) = some ⟨0, 3⟩ ∧
      Node.toJson ⟨0, 3⟩ ≠ Node.toJson ⟨1, 0⟩ := by
  intro plan first document
  obtain ⟨hvalid, hsources, hdocuments, hplans, hreload, -, hback, hnodes⟩ := stored_plans_load_back
  have hplan : (Source.request (.inclusion 2 7)).plan = .ok plan := by decide +kernel
  have hloaded : Plan.load document = .ok plan := rfl
  have hempty : Plan.load Plan.empty.toJson = .ok .empty := rfl
  have hfirst : Node.ofJson? first = some ⟨0, 3⟩ := rfl
  have hsecond : Node.ofJson? (.array [.integer 1, .integer 0]) = some ⟨1, 0⟩ := rfl
  have hfits := (hvalid plan).mp (hsources _ plan hplan)
  refine ⟨hplan, hloaded, hfits, hdocuments document plan hloaded, ?_, hreload String plan hfits, hfirst,
    hback first _ hfirst, ?_⟩
  · exact mt (hplans _ _ _ _ hloaded hempty).mpr (by decide)
  · exact mt (hnodes _ _ _ _ hfirst hsecond).mpr (by decide)

end MerkleLog
