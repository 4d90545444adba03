import MerkleLog.Word

namespace MerkleLog

/-- The positions from `start` up to, and not including, `stop`. -/
structure Span where
  start : Word
  stop : Word
  deriving DecidableEq, Repr

/-- The interval at the origin that holds no position. -/
def Span.nothing : Span := ⟨0, 0⟩

def Span.nonempty? (s : Span) : Option Span :=
  if s.start < s.stop then some s else none

def Span.next (s : Span) : Except Fault Span := do
  return ⟨← Word.add s.start 1, ← Word.add s.stop 1⟩

/-- A node of a binary tree: its level above the leaves, and how many nodes of that level
stand to its left. -/
structure Node where
  level : UInt8
  index : Word
  deriving DecidableEq, Repr

def Node.origin : Node := ⟨0, 0⟩

instance : Inhabited Node := ⟨.origin⟩

/-- The node of a level whose leaves include the given position. -/
def Node.above (position : Word) (level : Nat) : Except Fault Node :=
  if level < UInt8.size then do
    return ⟨UInt8.ofNat level, ← Word.shiftDown position level⟩
  else .error (.highLevel level)

def Node.span (n : Node) : Except Fault Span := do
  let start ← Word.shiftUp n.index n.level.toNat
  let stop ← Word.shiftUp (← Word.add n.index 1) n.level.toNat
  return ⟨start, stop⟩

/-- The leaves under a node, or `none` if a bound is no word. -/
def Node.span? (n : Node) : Option Span :=
  n.span.toOption

/-- Lower levels come first, and within a level the order is from left to right. -/
instance : Ord Node where
  compare a b := (compare a.level b.level).then (compare a.index b.index)

def Node.text : Node → String
  | ⟨level, index⟩ => s!"({level}, {index})"

end MerkleLog
