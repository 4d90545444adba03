import MerkleLog.Cover
import MerkleLog.Plan

namespace MerkleLog

/-- A climb from a node to the root of the tree with the given number of leaves. -/
structure Climb where
  node : Node
  size : Word
  deriving DecidableEq, Repr

/-- The subtrees on either side of a climb, lowest first. -/
structure Sides where
  left : List Node
  /-- The subtrees after the node that have a right sibling. -/
  middle : List Node
  /-- The right border of the tree, which has no complete subtree above it. -/
  border : List Node
  /-- The level at which the path to the first leaf under the node leaves the path to the end. -/
  fork : Nat
  deriving DecidableEq, Repr

def Climb.sides (c : Climb) : Except Fault Sides := do
  let span ← c.node.span
  if c.size < span.stop then .error (.pastTree span.stop c.size)
  else do
    let left ← Span.cover ⟨0, span.start⟩
    let turn ← Word.add span.stop (← Span.slopes ⟨span.stop, c.size⟩).rising
    let middle ← Span.cover ⟨span.stop, turn⟩
    let border ← Span.cover ⟨turn, c.size⟩
    let fork ← Word.highestBit (span.start ^^^ c.size)
    return ⟨left.reverse, middle, border.reverse, fork⟩

def Climb.levels (c : Climb) : Except Fault (List Nat) := do
  let height := bitLength (← Word.sub c.size 1).toNat
  let bottom := c.node.level.toNat
  return List.range' bottom (height - bottom)

/-- The next node of a list, if it is of the given level. -/
def nextAt? (nodes : List Node) (place level : Nat) : Except Fault (Option Node) :=
  if place < nodes.length then
    match nodes[place]? with
    | none => .error (.pastNodes place nodes.length)
    | some node => .ok (if node.level.toNat = level then some node else none)
  else .ok none

/-- How far a climb is: the places of the next nodes on the left and in the middle, what is listed so
far, and the run to fold. -/
structure Merge where
  left : Nat
  middle : Nat
  nodes : List Node
  run : Span
  deriving DecidableEq, Repr

def Merge.start : Merge := ⟨0, 0, [], .nothing⟩

/-- Lists the subtree that joins the climb at a level: the one on the left if it is next there. -/
def Sides.join (s : Sides) (m : Merge) (level : Nat) : Except Fault Merge := do
  match ← nextAt? s.left m.left level with
  | some node => return { m with left := m.left + 1, nodes := m.nodes ++ [node] }
  | none =>
    match ← nextAt? s.middle m.middle level with
    | some node => return { m with middle := m.middle + 1, nodes := m.nodes ++ [node] }
    | none => return m

/-- Lists the right border. One of two nodes or more is the run to fold. -/
def Sides.listBorder (s : Sides) (m : Merge) : Except Fault Merge := do
  let nodes := m.nodes ++ s.border
  if 1 < s.border.length then
    let stop ← Word.ofCount nodes.length
    let start ← Word.sub stop (← Word.ofCount s.border.length)
    return { m with nodes := nodes, run := ⟨start, stop⟩ }
  else return { m with nodes := nodes }

/-- Climbs past a level. The border is listed at the fork. -/
def Sides.passLevel (s : Sides) (m : Merge) (level : Nat) : Except Fault Merge := do
  let joined ← s.join m level
  if level = s.fork then s.listBorder joined else return joined

def Sides.plan (s : Sides) (levels : List Nat) : Except Fault Plan := do
  let merged ← levels.foldlM s.passLevel .start
  return ⟨merged.nodes, merged.run⟩

/-- The nodes whose hashes, joined to the hash of the node where the climb starts, give the
root. -/
def Climb.plan (c : Climb) : Except Fault Plan :=
  if c.size = 0 then .ok .empty
  else do
    (← c.sides).plan (← c.levels)

end MerkleLog
