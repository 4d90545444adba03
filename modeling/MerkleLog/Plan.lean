import MerkleLog.Node

namespace MerkleLog

/-- What a proof is made of: the nodes whose stored hashes it needs, from the leaves towards the
root, and the run of positions among them whose hashes are folded into one. -/
structure Plan where
  nodes : List Node
  run : Span
  deriving DecidableEq, Repr

def Plan.empty : Plan := ⟨[], .nothing⟩

def Plan.run? (p : Plan) : Option Span :=
  p.run.nonempty?

/-- A node that comes before all others moves the run one position on. -/
def Plan.push (node : Node) (p : Plan) : Except Fault Plan := do
  let run ← if p.run.start < p.run.stop then p.run.next else .ok p.run
  return ⟨node :: p.nodes, run⟩

/-- Whether the run is absent or holds at least two of the nodes. -/
def Plan.runFits (p : Plan) : Bool :=
  if p.run.start = p.run.stop then p.run.start = 0
  else p.run.start < p.run.stop && p.run.stop.toNat ≤ p.nodes.length && 2 ≤ p.run.stop - p.run.start

/-- A plan that some request may have: there is no run and its bounds are zero, or the run holds
two nodes or more and ends within the nodes. -/
def Plan.Valid (p : Plan) : Prop :=
  p.run = .nothing ∨
    p.run.start.toNat + 2 ≤ p.run.stop.toNat ∧ p.run.stop.toNat ≤ p.nodes.length

instance (p : Plan) : Decidable p.Valid := by
  unfold Plan.Valid
  infer_instance

/-- Why a request, a list of hashes or a stored plan is turned away. -/
inductive Refusal where
  | leafOutside (index size : Word)
  /-- A log never shrinks. -/
  | shrunkLog (older newer : Word)
  /-- A plan takes one hash for each of its nodes. -/
  | hashCount (got want : Nat)
  /-- The run of a stored plan does not fit its nodes. -/
  | strayRun (run : Span) (count : Nat)
  deriving DecidableEq, Repr

def Refusal.message : Refusal → String
  | leafOutside index size => s!"index {index} out of bounds for tree size {size}"
  | shrunkLog older newer => s!"tree size {older} > {newer}"
  | hashCount got want => s!"got {got} hashes but expected {want}"
  | strayRun ⟨start, stop⟩ count => s!"invalid rehash range [{start}, {stop}) for {count} nodes"

/-- What keeps an operation from giving an answer. -/
inductive Failure where
  | fault (fault : Fault)
  | refused (refusal : Refusal)
  /-- The document does not have the shape of what is read from it. -/
  | misshapen
  deriving DecidableEq, Repr

instance : MonadLift (Except Fault) (Except Failure) where
  monadLift := Except.mapError .fault

universe u v

/-- Folds a run of hashes into one. Each later node stands above what is folded so far and to its
left. -/
def foldRun {m : Type u → Type v} [Monad m] {H : Type u} (combine : H → H → m H) :
    List H → m (List H)
  | [] => pure []
  | first :: later => do
    let root ← later.foldlM (fun below next => combine next below) first
    return [root]

/-- Makes a proof from the hashes of the nodes of a plan, in their order: the hashes of the run
become one. A wrong number of hashes is refused before any two are combined. -/
def Plan.assembleM {m : Type u → Type v} [Monad m] {H : Type u} (p : Plan)
    (combine : H → H → m H) (hashes : List H) : Except Failure (m (List H)) :=
  let start := p.run.start.toNat
  let stop := p.run.stop.toNat
  if hashes.length ≠ p.nodes.length then
    .error (.refused (.hashCount hashes.length p.nodes.length))
  else if stop ≤ start then .ok (pure hashes)
  else if hashes.length < stop then .error (.fault (.pastHashes p.run.stop hashes.length))
  else .ok do
    let root ← foldRun combine ((hashes.take stop).drop start)
    return hashes.take start ++ root ++ hashes.drop stop

def Plan.assemble {H : Type u} (p : Plan) (combine : H → H → H) (hashes : List H) :
    Except Failure (List H) :=
  p.assembleM (m := Id) combine hashes

structure Assembled (H : Type u) where
  proof : List H
  calls : Nat
  deriving DecidableEq, Repr

/-- Makes a proof with a way to combine hashes that may depend on the number of the call, the first
being 1. -/
def Plan.assembleCounting {H : Type} (p : Plan) (combine : Nat → H → H → H) (hashes : List H) :
    Except Failure (Assembled H) := do
  let count (l r : H) : StateM Nat H := fun calls => (combine (calls + 1) l r, calls + 1)
  let (proof, calls) := (← p.assembleM count hashes).run 0
  return ⟨proof, calls⟩

end MerkleLog
