import MerkleLog.Document
import MerkleLog.Request

namespace MerkleLog

/-- A plan is asked for, loaded from a document, or empty. -/
inductive Source where
  | request (request : Request)
  | document (document : Json)
  | empty

def Source.plan : Source → Except Failure Plan
  | request r => r.plan
  | document d => Plan.load d
  | empty => .ok .empty

def Source.records : Source → List Record
  | request r => r.records
  | _ => []

def Source.journal (s : Source) : Journal (Except Failure Plan) :=
  ⟨s.plan, s.records⟩

/-- What can be done with the plan that a session holds. -/
inductive Step (H : Type) where
  | replace (source : Source)
  /-- Makes a proof of the hashes that a store has for the nodes. -/
  | assemble (combine : Nat → H → H → H) (store : List Node → List H)
  | compare (source : Source)
  | write
  /-- Stores the plan, loads it again and tells whether it is the same. -/
  | reload
  /-- Hands over the nodes and leaves the empty plan behind. -/
  | release
  | describe

inductive Answer (H : Type) where
  | plan (plan : Plan)
  | proof (result : Assembled H)
  | verdict (same : Bool)
  | text (text : String)
  | nodes (nodes : List Node)

variable {H : Type}

/-- Carries out a step that may fail, and gives its answer with the plan that the session then
holds. -/
def Step.attempt (p : Plan) : Step H → Except Failure (Answer H × Plan)
  | replace source => do
    let plan ← source.plan
    return (.plan plan, plan)
  | assemble combine store => return (.proof (← p.assembleCounting combine (store p.nodes)), p)
  | compare source => return (.verdict (p = (← source.plan)), p)
  | write => return (.text p.text, p)
  | reload => do
    let loaded ← Plan.load p.toJson
    return (.verdict (p = loaded), loaded)
  | release => return (.nodes p.nodes, .empty)
  | describe => return (.plan p, p)

def Step.records (p : Plan) : Step H → List Record
  | replace source => source.records
  | compare source => source.records
  | assemble _ store => p.records (store p.nodes).length
  | _ => []

/-- Carries out a step. One that fails leaves the plan as it was. -/
def Step.run (p : Plan) (s : Step H) : Journal (Except Failure (Answer H) × Plan) :=
  match s.attempt p with
  | .ok (answer, next) => ⟨(.ok answer, next), s.records p⟩
  | .error failure => ⟨(.error failure, p), s.records p⟩

/-- Carries out steps one after the other, and gives their answers with the last plan. -/
def Session.run (p : Plan) : List (Step H) → Journal (List (Except Failure (Answer H)) × Plan)
  | [] => pure ([], p)
  | step :: steps => do
    let (answer, next) ← step.run p
    let (answers, last) ← Session.run next steps
    return (answer :: answers, last)

end MerkleLog
