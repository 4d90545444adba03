import Mathlib.Data.List.Forall2
import MerkleLog.Proofs.StoredPlan

namespace MerkleLog

/-- The documents that stand for a node: an object, whatever else it holds, or an array of just the level
and the index. -/
inductive Json.DenotesNode : Json → Node → Prop
  | object {fields : List (String × Json)} {n : Node}
      (level : fields.lookup "level" = some (.integer n.level.toNat))
      (index : fields.lookup "index" = some (.integer n.index.toNat)) : DenotesNode (.object fields) n
  | array (n : Node) : DenotesNode (.array [.integer n.level.toNat, .integer n.index.toNat]) n

/-- The documents that stand for nodes and the bounds of a run, whether or not these fit each other. -/
inductive Json.DenotesPlan : Json → Plan → Prop
  | object {fields : List (String × Json)} {items : List Json} {p : Plan}
      (ids : fields.lookup "ids" = some (.array items))
      (nodes : List.Forall₂ DenotesNode items p.nodes)
      (start : fields.lookup "begin" = some (.integer p.run.start.toNat))
      (stop : fields.lookup "end" = some (.integer p.run.stop.toNat)) : DenotesPlan (.object fields) p
  | array {items : List Json} {p : Plan} (nodes : List.Forall₂ DenotesNode items p.nodes) :
      DenotesPlan (.array [.array items, .integer p.run.start.toNat, .integer p.run.stop.toNat]) p

variable {document nodes start stop : Json} {items : List Json} {n : Node} {p : Plan}

theorem exists_eq_natCast {value : Int} {size : Nat} (h : 0 ≤ value ∧ value < size) :
    ∃ count, count < size ∧ value = count := by
  obtain ⟨count, rfl⟩ := Int.eq_ofNat_of_zero_le h.1
  exact ⟨count, Int.ofNat_lt.mp h.2, rfl⟩

theorem Json.word?_eq_some_iff {w : Word} : document.word? = some w ↔ document = .integer w.toNat := by
  constructor
  · intro h
    unfold Json.word? at h
    split at h
    next value =>
      split at h
      next hrange =>
        cases Option.some.inj h
        obtain ⟨count, hlt, rfl⟩ := exists_eq_natCast hrange
        rw [Int.toNat_natCast, UInt64.toNat_ofNat_of_lt' hlt]
      next => simp at h
    next => simp at h
  · rintro rfl
    exact Json.word?_ofWord w

theorem Json.level?_eq_some_iff {level : UInt8} :
    document.level? = some level ↔ document = .integer level.toNat := by
  constructor
  · intro h
    unfold Json.level? at h
    split at h
    next value =>
      split at h
      next hrange =>
        cases Option.some.inj h
        obtain ⟨count, hlt, rfl⟩ := exists_eq_natCast hrange
        rw [Int.toNat_natCast, UInt8.toNat_ofNat_of_lt' hlt]
      next => simp at h
    next => simp at h
  · rintro rfl
    exact Json.level?_integer level

theorem Json.items?_eq_some_iff : document.items? = some items ↔ document = .array items := by
  cases document <;> simp [Json.items?]

theorem Node.denotes_of_ofJson? (h : Node.ofJson? document = some n) : document.DenotesNode n := by
  unfold Node.ofJson? at h
  split at h
  next fields =>
    obtain ⟨level, hlevel, h⟩ := Option.bind_eq_some_iff.mp h
    obtain ⟨l, hl, h⟩ := Option.bind_eq_some_iff.mp h
    obtain ⟨index, hindex, h⟩ := Option.bind_eq_some_iff.mp h
    obtain ⟨i, hi, h⟩ := Option.bind_eq_some_iff.mp h
    cases Option.some.inj h
    cases Json.level?_eq_some_iff.mp hl
    cases Json.word?_eq_some_iff.mp hi
    exact .object hlevel hindex
  next level index =>
    obtain ⟨l, hl, h⟩ := Option.bind_eq_some_iff.mp h
    obtain ⟨i, hi, h⟩ := Option.bind_eq_some_iff.mp h
    cases Option.some.inj h
    cases Json.level?_eq_some_iff.mp hl
    cases Json.word?_eq_some_iff.mp hi
    exact .array ⟨l, i⟩
  next => simp at h

theorem Node.ofJson?_array {level index : Json} (hlevel : level.level? = some n.level)
    (hindex : index.word? = some n.index) : Node.ofJson? (.array [level, index]) = some n := by
  simp only [Node.ofJson?, hlevel, hindex, Option.bind_eq_bind, Option.bind_some]
  rfl

theorem Node.ofJson?_of_denotes (h : document.DenotesNode n) : Node.ofJson? document = some n := by
  cases h with
  | object level index =>
    exact Node.ofJson?_object level index (Json.level?_integer n.level) (Json.word?_ofWord n.index)
  | array => exact Node.ofJson?_array (Json.level?_integer n.level) (Json.word?_ofWord n.index)

theorem Node.ofJson?_eq_some_iff : Node.ofJson? document = some n ↔ document.DenotesNode n :=
  ⟨Node.denotes_of_ofJson?, Node.ofJson?_of_denotes⟩

/-- A list is read if each of its documents stands for a node. -/
theorem mapM_ofJson?_eq_some_iff {nodes : List Node} :
    items.mapM Node.ofJson? = some nodes ↔ List.Forall₂ Json.DenotesNode items nodes := by
  induction items generalizing nodes with
  | nil => simp [eq_comm]
  | cons item items ih =>
    simp only [List.mapM_cons, Option.bind_eq_bind, Option.bind_eq_some_iff,
      Node.ofJson?_eq_some_iff, ih]
    constructor
    · rintro ⟨n, hn, rest, hrest, h⟩
      cases Option.some.inj h
      exact .cons hn hrest
    · intro h
      cases h with
      | cons hn hrest => exact ⟨_, hn, _, hrest, rfl⟩

theorem Plan.draft?_eq_some_iff :
    Plan.draft? nodes start stop = some p ↔ ∃ items, nodes = .array items ∧
      List.Forall₂ Json.DenotesNode items p.nodes ∧ start = .integer p.run.start.toNat ∧
        stop = .integer p.run.stop.toNat := by
  constructor
  · intro h
    obtain ⟨items, hitems, h⟩ := Option.bind_eq_some_iff.mp h
    obtain ⟨read, hread, h⟩ := Option.bind_eq_some_iff.mp h
    obtain ⟨first, hfirst, h⟩ := Option.bind_eq_some_iff.mp h
    obtain ⟨last, hlast, h⟩ := Option.bind_eq_some_iff.mp h
    cases Option.some.inj h
    exact ⟨items, Json.items?_eq_some_iff.mp hitems, mapM_ofJson?_eq_some_iff.mp hread,
      Json.word?_eq_some_iff.mp hfirst, Json.word?_eq_some_iff.mp hlast⟩
  · rintro ⟨items, rfl, hnodes, rfl, rfl⟩
    exact Plan.draft?_eq rfl (mapM_ofJson?_eq_some_iff.mpr hnodes) (Json.word?_ofWord p.run.start)
      (Json.word?_ofWord p.run.stop)

theorem Plan.denotes_of_ofJson? (h : Plan.ofJson? document = some p) : document.DenotesPlan p := by
  unfold Plan.ofJson? at h
  split at h
  next fields =>
    obtain ⟨nodes, hids, h⟩ := Option.bind_eq_some_iff.mp h
    obtain ⟨start, hstart, h⟩ := Option.bind_eq_some_iff.mp h
    obtain ⟨stop, hstop, h⟩ := Option.bind_eq_some_iff.mp h
    obtain ⟨items, rfl, hnodes, rfl, rfl⟩ := Plan.draft?_eq_some_iff.mp h
    exact .object hids hnodes hstart hstop
  next =>
    obtain ⟨items, rfl, hnodes, rfl, rfl⟩ := Plan.draft?_eq_some_iff.mp h
    exact .array hnodes
  next => simp at h

theorem Plan.ofJson?_of_denotes (h : document.DenotesPlan p) : Plan.ofJson? document = some p := by
  cases h with
  | object ids nodes start stop =>
    simp only [Plan.ofJson?, ids, start, stop, Option.bind_eq_bind, Option.bind_some]
    exact Plan.draft?_eq_some_iff.mpr ⟨_, rfl, nodes, rfl, rfl⟩
  | array nodes => exact Plan.draft?_eq_some_iff.mpr ⟨_, rfl, nodes, rfl, rfl⟩

theorem Plan.load_of_denotes (h : document.DenotesPlan p) :
    Plan.load document =
      if p.Valid then .ok p else .error (.refused (.strayRun p.run p.nodes.length)) := by
  unfold Plan.load
  simp only [Plan.ofJson?_of_denotes h, Plan.runFits_iff_valid]

theorem Plan.load_of_not_denotes (h : ¬ ∃ p, document.DenotesPlan p) :
    Plan.load document = .error .misshapen := by
  have hnone : Plan.ofJson? document = none := by
    rw [Option.eq_none_iff_forall_ne_some]
    intro p hp
    exact h ⟨p, Plan.denotes_of_ofJson? hp⟩
  unfold Plan.load
  rw [hnone]

/-- A document that stands for a plan is judged by the run of that plan, and any other is misshapen. -/
theorem Plan.load_eq_iff {result : Except Failure Plan} :
    Plan.load document = result ↔
      (∃ p, document.DenotesPlan p ∧ p.Valid ∧ result = .ok p) ∨
      (∃ p, document.DenotesPlan p ∧ ¬ p.Valid ∧
        result = .error (.refused (.strayRun p.run p.nodes.length))) ∨
      (¬ ∃ p, document.DenotesPlan p) ∧ result = .error .misshapen := by
  constructor
  · rintro rfl
    by_cases hdenotes : ∃ p, document.DenotesPlan p
    · obtain ⟨p, hp⟩ := hdenotes
      rw [Plan.load_of_denotes hp]
      by_cases hvalid : p.Valid
      · exact .inl ⟨p, hp, hvalid, if_pos hvalid⟩
      · exact .inr (.inl ⟨p, hp, hvalid, if_neg hvalid⟩)
    · exact .inr (.inr ⟨hdenotes, Plan.load_of_not_denotes hdenotes⟩)
  · rintro (⟨p, hp, hvalid, rfl⟩ | ⟨p, hp, hstray, rfl⟩ | ⟨hnone, rfl⟩)
    · rw [Plan.load_of_denotes hp, if_pos hvalid]
    · rw [Plan.load_of_denotes hp, if_neg hstray]
    · exact Plan.load_of_not_denotes hnone

/-- The plan that a document stands for is loaded if its run is nothing, or holds two nodes or more and ends
within the nodes, and is refused with its run and the number of its nodes if not. A document that stands for
no plan is misshapen, whatever bounds it gives. -/
theorem load_accepts_just_denoted_plans (document : Json) :
    (∀ p, Plan.load document = .ok p ↔ document.DenotesPlan p ∧ p.Valid) ∧
    (∀ run count, Plan.load document = .error (.refused (.strayRun run count)) ↔
      ∃ p, document.DenotesPlan p ∧ ¬ p.Valid ∧ run = p.run ∧ count = p.nodes.length) ∧
    (Plan.load document = .error .misshapen ↔ ¬ ∃ p, document.DenotesPlan p) ∧
    ((∃ p, Plan.load document = .ok p) ∨
      (∃ run count, Plan.load document = .error (.refused (.strayRun run count))) ∨
      Plan.load document = .error .misshapen) := by
  refine ⟨?_, ?_, ?_, ?_⟩
  · intro p
    simp [Plan.load_eq_iff]
  · intro run count
    simp [Plan.load_eq_iff]
  · simp [Plan.load_eq_iff]
  · rcases Plan.load_eq_iff.mp rfl with ⟨p, -, -, hload⟩ | ⟨p, -, -, hload⟩ | ⟨-, hload⟩
    · exact .inl ⟨p, hload⟩
    · exact .inr (.inl ⟨_, _, hload⟩)
    · exact .inr (.inr hload)

/-- Three nodes with bounds that fit them, with bounds that are too far apart or the wrong way round, and with
one that is no integer. -/
theorem load_accepts_just_denoted_plans_of_three_nodes :
    let first : Json := .object [("index", .integer 2), ("hash", .null), ("level", .integer 0)]
    let items : List Json :=
      [first, .array [.integer 0, .integer 3], .array [.integer 1, .integer 0]]
    let document := fun start stop : Json =>
      Json.object [("begin", start), ("ids", .array items), ("size", .integer 7), ("end", stop)]
    let plan : Plan := ⟨[⟨0, 2⟩, ⟨0, 3⟩, ⟨1, 0⟩], ⟨1, 3⟩⟩
    Plan.load (document (.integer 1) (.integer 3)) = .ok plan ∧
      (document (.integer 1) (.integer 3)).DenotesPlan plan ∧ plan.Valid ∧
      (∃ p, (document (.integer 1) (.integer 4)).DenotesPlan p ∧ ¬ p.Valid) ∧
      (∃ p, (document (.integer 0xffffffffffffffff) (.integer 1)).DenotesPlan p ∧ ¬ p.Valid) ∧
      ¬ ∃ p, (document (.integer 1) (.decimal "3.0")).DenotesPlan p := by
  intro first items document plan
  obtain ⟨hloaded, -, -, -⟩ :=
    load_accepts_just_denoted_plans (document (.integer 1) (.integer 3))
  obtain ⟨-, hwide, -, -⟩ := load_accepts_just_denoted_plans (document (.integer 1) (.integer 4))
  obtain ⟨-, hinverted, -, -⟩ :=
    load_accepts_just_denoted_plans (document (.integer 0xffffffffffffffff) (.integer 1))
  obtain ⟨-, -, hmisshapen, -⟩ :=
    load_accepts_just_denoted_plans (document (.integer 1) (.decimal "3.0"))
  obtain ⟨hplan, hvalid⟩ := (hloaded plan).mp rfl
  obtain ⟨p, hp, hstray, -⟩ := (hwide ⟨1, 4⟩ 3).mp rfl
  obtain ⟨q, hq, hstray', -⟩ := (hinverted ⟨0xffffffffffffffff, 1⟩ 3).mp rfl
  exact ⟨rfl, hplan, hvalid, ⟨p, hp, hstray⟩, ⟨q, hq, hstray'⟩, hmisshapen.mp rfl⟩

end MerkleLog
