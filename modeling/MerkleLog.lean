import MerkleLog.Session
import MerkleLog.Tree
import MerkleLog.Verifier
import MerkleLog.Proofs.WordExact
import MerkleLog.Proofs.Digits
import MerkleLog.Proofs.Fork
import MerkleLog.Proofs.CoverLoops
import MerkleLog.Proofs.Row
import MerkleLog.Proofs.Cover
import MerkleLog.Proofs.PlanParts
import MerkleLog.Proofs.ClimbLoop
import MerkleLog.Proofs.ClimbPlan
import MerkleLog.Proofs.TreePaths
import MerkleLog.Proofs.ForkHashes
import MerkleLog.Proofs.RequestPlan
import MerkleLog.Proofs.VerifierClimb
import MerkleLog.Proofs.VerifierRoots
import MerkleLog.Proofs.AssembledProof
import MerkleLog.Proofs.ProofUniqueness
import MerkleLog.Proofs.Nesting
import MerkleLog.Proofs.Tiling
import MerkleLog.Proofs.CoverRow
import MerkleLog.Proofs.MinimalCover
import MerkleLog.Proofs.PeakSplit
import MerkleLog.Proofs.CoverSlopes
import MerkleLog.Proofs.SiblingWalk
import MerkleLog.Proofs.PlanTiling
import MerkleLog.Proofs.PlanInvariant
import MerkleLog.Proofs.SharedPath
import MerkleLog.Proofs.LogGrowth
import MerkleLog.Proofs.StoredPlan
import MerkleLog.Proofs.Totality
import MerkleLog.Proofs.ProofLength
import MerkleLog.Proofs.Laminar
import MerkleLog.Proofs.PlanIdentity
import MerkleLog.Proofs.PlanGrammar
import MerkleLog.Proofs.RunFold
import MerkleLog.Proofs.BorderHash
