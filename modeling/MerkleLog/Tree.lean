import MerkleLog.Node

namespace MerkleLog

universe u

/-- An endless sequence of leaf hashes, and how two hashes make the hash of their parent. -/
structure Log (H : Type u) where
  leaf : Nat → H
  combine : H → H → H

variable {H : Type u}

/-- The hash of the complete subtree of a level, whose leaves are counted in units of its size. -/
def Log.subtreeHash (log : Log H) : Nat → Nat → H
  | 0, index => log.leaf index
  | level + 1, index =>
    log.combine (log.subtreeHash level (2 * index)) (log.subtreeHash level (2 * index + 1))

def Log.nodeHash (log : Log H) (n : Node) : H :=
  log.subtreeHash n.level.toNat n.index.toNat

/-- The largest power of two below `n`, for `n` at least 2: so many leaves are in the left
subtree. -/
def splitPoint (n : Nat) : Nat :=
  1 <<< (n - 1).log2

theorem splitPoint_pos (n : Nat) : 0 < splitPoint n := by
  rw [splitPoint, Nat.one_shiftLeft]
  exact Nat.two_pow_pos _

theorem splitPoint_lt {n : Nat} (h : 1 < n) : splitPoint n < n := by
  have hle : splitPoint n ≤ n - 1 := by
    rw [splitPoint, Nat.one_shiftLeft]
    exact Nat.log2_self_le (by omega)
  omega

/-- The hash of the tree over `n` leaves from `start` on: of its only leaf, or of its two subtrees,
where the left one takes as many leaves as a complete tree can have. -/
def Log.treeHash (log : Log H) (start n : Nat) : H :=
  if 1 < n then
    log.combine (log.treeHash start (splitPoint n))
      (log.treeHash (start + splitPoint n) (n - splitPoint n))
  else log.leaf start
termination_by n
decreasing_by
  · exact splitPoint_lt ‹_›
  · have := splitPoint_pos n
    omega

/-- The hashes missing to get from the leaf at `start + index` to the root of the tree over `n`
leaves from `start` on, lowest first. -/
def Log.auditPath (log : Log H) (index start n : Nat) : List H :=
  if 1 < n then
    let k := splitPoint n
    if index < k then log.auditPath index start k ++ [log.treeHash (start + k) (n - k)]
    else log.auditPath (index - k) (start + k) (n - k) ++ [log.treeHash start k]
  else []
termination_by n
decreasing_by
  · exact splitPoint_lt ‹_›
  · have := splitPoint_pos n
    omega

/-- How many steps down from the root the leaf at `index` is in a tree of `n` leaves. -/
def leafDepth (index n : Nat) : Nat :=
  if 1 < n then
    let k := splitPoint n
    if index < k then leafDepth index k + 1 else leafDepth (index - k) (n - k) + 1
  else 0
termination_by n
decreasing_by
  · exact splitPoint_lt ‹_›
  · have := splitPoint_pos n
    omega

/-- The hashes that tie the first `m` of `n` leaves from `start` on to all of them. Where the two
trees are one, its hash is known if it is the whole older tree, and given otherwise. -/
def Log.subproof (log : Log H) (m start n : Nat) (whole : Bool) : List H :=
  if m = n then if whole then [] else [log.treeHash start n]
  else if 1 < n then
    let k := splitPoint n
    if m ≤ k then log.subproof m start k whole ++ [log.treeHash (start + k) (n - k)]
    else log.subproof (m - k) (start + k) (n - k) false ++ [log.treeHash start k]
  else []
termination_by n
decreasing_by
  · exact splitPoint_lt ‹_›
  · have := splitPoint_pos n
    omega

/-- The hashes that show the log of `m` leaves to be the beginning of the log of `n`. -/
def Log.consistencyProof (log : Log H) (m n : Nat) : List H :=
  log.subproof m 0 n true

end MerkleLog
