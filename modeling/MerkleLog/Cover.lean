import MerkleLog.Node

namespace MerkleLog

/-- The sizes of the two parts of the cover of an interval. The levels of the first part rise and
those of the second fall; the ones of each size are the levels of that part's subtrees. -/
structure Slopes where
  rising : Word
  falling : Word
  deriving DecidableEq, Repr

/-- Splits an interval where its cover turns. The paths from the root to the leaf before the
interval and to the leaf at its end part at some level, and only nodes below that level lie
between them: right siblings along the first path, left siblings along the second. -/
def Span.slopes (s : Span) : Except Fault Slopes :=
  if s.stop < s.start then .error (.invertedSpan s.start s.stop)
  else if s.start = 0 then .ok ⟨0, s.stop⟩
  else do
    let before ← Word.sub s.start 1
    let below ← Word.mask (← Word.highestBit (before ^^^ s.stop))
    return ⟨~~~before &&& below, s.stop &&& below⟩

def Span.coverSize (s : Span) : Except Fault Nat := do
  let slopes ← s.slopes
  return popCount slopes.rising.toNat + popCount slopes.falling.toNat

/-- Stands a subtree of the given level at a position, and says where it ends. -/
def layNode (position : Word) (level : Nat) : Except Fault (Node × Word) := do
  let node ← Node.above position level
  return (node, ← Word.add position (← Word.bit level))

/-- Lays subtrees side by side from a position on and says where they end. Their levels are the ones of
a word: the lowest one is next, and is cleared when its subtree stands. -/
def layRising (position rest : Word) : Except Fault (List Node × Word) :=
  if rest = 0 then .ok ([], position)
  else do
    let level := lowestBit rest.toNat
    let (node, next) ← layNode position level
    let (row, stop) ← layRising next (rest.flip level)
    return (node :: row, stop)
termination_by rest.toNat
decreasing_by exact Word.toNat_flip_lt (Word.testBit_lowestBit ‹_›)

/-- Lays the subtree of the highest one first. -/
def layFalling (position rest : Word) : Except Fault (List Node × Word) :=
  if rest = 0 then .ok ([], position)
  else
    match _high : rest.highestBit with
    | .error fault => .error fault
    | .ok level => do
      let (node, next) ← layNode position level
      let (row, stop) ← layFalling next (rest.flip level)
      return (node :: row, stop)
termination_by rest.toNat
decreasing_by exact Word.toNat_flip_lt (Word.testBit_highestBit _high)

/-- The fewest complete subtrees that hold the leaves of an interval and no other, from left to
right. -/
def Span.cover (s : Span) : Except Fault (List Node) := do
  let slopes ← s.slopes
  let (rising, turn) ← layRising s.start slopes.rising
  let (falling, reached) ← layFalling turn slopes.falling
  if reached = s.stop then return rising ++ falling else .error (.unevenCover reached s.stop)

end MerkleLog
