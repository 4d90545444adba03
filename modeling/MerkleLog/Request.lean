import MerkleLog.Climb
import MerkleLog.Plan

namespace MerkleLog

/-- A question about a log that a proof answers. -/
inductive Request where
  /-- Is the leaf at `index` one of the first `size`? -/
  | inclusion (index size : Word)
  /-- Does the log of `newer` leaves begin with the log of `older` leaves? -/
  | consistency (older newer : Word)
  deriving DecidableEq, Repr

/-- The climb that answers a request, if it takes one. For consistency it starts at the largest
complete subtree that ends where the older log did. -/
def Request.climb? : Request → Except Failure (Option Climb)
  | .inclusion index size =>
    if index < size then .ok (some ⟨⟨0, index⟩, size⟩)
    else .error (.refused (.leafOutside index size))
  | .consistency older newer =>
    if newer < older then .error (.refused (.shrunkLog older newer))
    else if older = newer ∨ older = 0 then .ok none
    else do
      let node ← Node.above (← Word.sub older 1) (lowestBit older.toNat)
      return some ⟨node, newer⟩

/-- Whether the node where the climb starts is part of the plan. The leaf of an inclusion proof is
known to whoever asks, and so is a subtree that is the whole older log. -/
def Request.listsStart : Request → Node → Bool
  | .inclusion .., _ => false
  | .consistency .., node => node.index ≠ 0

def Request.plan (r : Request) : Except Failure Plan := do
  match ← r.climb? with
  | none => return .empty
  | some climb =>
    let plan ← climb.plan
    if r.listsStart climb.node then plan.push climb.node else return plan

/-- The plan of a proof that the leaf at `index` is in the log of the given size. -/
def inclusionPlan (index size : Word) : Except Failure Plan :=
  (Request.inclusion index size).plan

/-- The plan of a proof that the log of `older` leaves is the beginning of the log of `newer`. -/
def consistencyPlan (older newer : Word) : Except Failure Plan :=
  (Request.consistency older newer).plan

inductive Severity where
  | trace
  | debug
  deriving DecidableEq, Repr

/-- What is worth a line in the journal. -/
inductive Record where
  | leafOutside (index size : Word)
  | shrunkLog (older newer : Word)
  | hashCount (got want : Nat)
  /-- A climb, with the plan it gives before the starting node is listed. -/
  | climbed (climb : Climb) (plan : Plan)
  deriving DecidableEq, Repr

/-- Refusals and mismatches matter more than climbs. -/
def Record.severity : Record → Severity
  | climbed .. => .trace
  | _ => .debug

def Record.text : Record → String
  | leafOutside index size => s!"inclusion: index {index} out of bounds for tree size {size}"
  | shrunkLog older newer => s!"consistency: tree size {older} > {newer}"
  | hashCount got want => s!"rehash: got {got} hashes for {want} nodes"
  | climbed ⟨⟨level, index⟩, size⟩ ⟨nodes, ⟨start, stop⟩⟩ =>
    let count := nodes.length
    s!"nodes({level}, {index}) in tree of size {size}: {count} ids, rehash [{start}, {stop})"

def Request.records (r : Request) : List Record :=
  match r.climb? with
  | .error (.refused (.leafOutside index size)) => [.leafOutside index size]
  | .error (.refused (.shrunkLog older newer)) => [.shrunkLog older newer]
  | .error _ | .ok none => []
  | .ok (some climb) => climb.plan.toOption.toList.map (.climbed climb)

def Plan.records (p : Plan) (count : Nat) : List Record :=
  if count = p.nodes.length then [] else [.hashCount count p.nodes.length]

/-- A value and the records made on the way to it. -/
structure Journal (α : Type) where
  value : α
  records : List Record

instance : Monad Journal where
  pure value := ⟨value, []⟩
  bind entry next :=
    let later := next entry.value
    ⟨later.value, entry.records ++ later.records⟩

end MerkleLog
