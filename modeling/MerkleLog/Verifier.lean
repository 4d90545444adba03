import MerkleLog.Word

namespace MerkleLog

universe u

variable {H : Type u}

/-- Joins hashes to a seed, each on the left where the path goes up from a right child and on the
right where it goes up from a left one. The binary digits of `path` tell which, lowest first. -/
def climbTurns (combine : H → H → H) (seed : H) (path : Nat) : List H → H
  | [] => seed
  | h :: proof =>
    let next := if path % 2 = 0 then combine seed h else combine h seed
    climbTurns combine next (path / 2) proof

/-- Joins only the hashes that go on the left. -/
def climbLeftTurns (combine : H → H → H) (seed : H) (path : Nat) : List H → H
  | [] => seed
  | h :: proof =>
    let next := if path % 2 = 0 then seed else combine h seed
    climbLeftTurns combine next (path / 2) proof

/-- Joins every hash on the left. -/
def climbBorder (combine : H → H → H) (seed : H) (proof : List H) : H :=
  proof.foldl (fun below h => combine h below) seed

/-- The root that the audit path of a leaf leads to, or `none` if the path has the wrong length. -/
def auditRoot (combine : H → H → H) (index size : Nat) (leaf : H) (proof : List H) : Option H :=
  let inner := bitLength (index ^^^ (size - 1))
  let border := popCount (index >>> inner)
  if proof.length = inner + border then
    let turned := climbTurns combine leaf index (proof.take inner)
    some (climbBorder combine turned (proof.drop inner))
  else none

/-- The roots of the older and the newer log that follow from a seed, the hash of the last complete
subtree of the older one, or `none` if the proof has the wrong length. -/
def seededRoots (combine : H → H → H) (older newer : Nat) (seed : H) (proof : List H) :
    Option (H × H) :=
  let shift := lowestBit older
  let turns := bitLength ((older - 1) ^^^ (newer - 1))
  let inner := turns - shift
  let border := popCount ((older - 1) >>> turns)
  if proof.length = inner + border then
    let path := (older - 1) >>> shift
    let inOlder := climbLeftTurns combine seed path (proof.take inner)
    let inNewer := climbTurns combine seed path (proof.take inner)
    let root := fun turned => climbBorder combine turned (proof.drop inner)
    some (root inOlder, root inNewer)
  else none

/-- The roots of the older and the newer log that a consistency proof leads to, or `none` if the
proof has the wrong length. Its first hash is the seed, unless the older log is one complete
subtree: then the seed is the root of the older log, which is known. -/
def bothRoots (combine : H → H → H) (older newer : Nat) (olderRoot : H) (proof : List H) :
    Option (H × H) :=
  if older = 1 <<< lowestBit older then seededRoots combine older newer olderRoot proof
  else
    match proof with
    | [] => none
    | seed :: rest => seededRoots combine older newer seed rest

end MerkleLog
