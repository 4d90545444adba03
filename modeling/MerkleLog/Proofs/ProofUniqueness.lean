import Mathlib.Algebra.Free
import MerkleLog.Proofs.AssembledProof

namespace MerkleLog

universe u

variable {H : Type u} {combine : H → H → H} {x y : H} {p q : List H}

/-- The result of a climb gives back its seed and its hashes, each of which went in on a side that
only the path decides. -/
theorem climbTurns_injective (hinj : Function.Injective2 combine) {path : Nat}
    (hlen : p.length = q.length) (h : climbTurns combine x path p = climbTurns combine y path q) :
    x = y ∧ p = q := by
  induction p generalizing x y path q with
  | nil =>
    obtain rfl := List.length_eq_zero_iff.mp hlen.symm
    exact ⟨h, rfl⟩
  | cons a p ih =>
    cases q with
    | nil => simp at hlen
    | cons b q =>
      obtain ⟨hnext, rfl⟩ := ih (Nat.succ.inj hlen) h
      rcases Nat.mod_two_eq_zero_or_one path with hd | hd
      · simp only [hd, ↓reduceIte] at hnext
        obtain ⟨rfl, rfl⟩ := hinj hnext
        exact ⟨rfl, rfl⟩
      · simp only [hd, Nat.one_ne_zero, ↓reduceIte] at hnext
        obtain ⟨rfl, rfl⟩ := hinj hnext
        exact ⟨rfl, rfl⟩

theorem climbBorder_injective (hinj : Function.Injective2 combine) (hlen : p.length = q.length)
    (h : climbBorder combine x p = climbBorder combine y q) : x = y ∧ p = q := by
  induction p generalizing x y q with
  | nil =>
    obtain rfl := List.length_eq_zero_iff.mp hlen.symm
    exact ⟨h, rfl⟩
  | cons a p ih =>
    cases q with
    | nil => simp at hlen
    | cons b q =>
      obtain ⟨hnext, rfl⟩ := ih (Nat.succ.inj hlen) h
      obtain ⟨rfl, rfl⟩ := hinj hnext
      exact ⟨rfl, rfl⟩

theorem climb_injective (hinj : Function.Injective2 combine) {path inner : Nat}
    (hlen : p.length = q.length)
    (h : climbBorder combine (climbTurns combine x path (p.take inner)) (p.drop inner) =
      climbBorder combine (climbTurns combine y path (q.take inner)) (q.drop inner)) :
    x = y ∧ p = q := by
  obtain ⟨hturned, hdrop⟩ := climbBorder_injective hinj (by simp [hlen]) h
  obtain ⟨hseed, htake⟩ := climbTurns_injective hinj (by simp [hlen]) hturned
  refine ⟨hseed, ?_⟩
  rw [← p.take_append_drop inner, ← q.take_append_drop inner, htake, hdrop]

theorem auditRoot_eq_some_iff {index size : Nat} {root : H} :
    auditRoot combine index size x p = some root ↔
      let inner := bitLength (index ^^^ (size - 1))
      p.length = inner + popCount (index >>> inner) ∧
        climbBorder combine (climbTurns combine x index (p.take inner)) (p.drop inner) = root := by
  simp [auditRoot]

theorem seededRoots_eq_some_iff {older newer : Nat} {olderRoot newerRoot : H} :
    seededRoots combine older newer x p = some (olderRoot, newerRoot) ↔
      let turns := bitLength ((older - 1) ^^^ (newer - 1))
      let inner := turns - lowestBit older
      let path := (older - 1) >>> lowestBit older
      p.length = inner + popCount ((older - 1) >>> turns) ∧
        climbBorder combine (climbLeftTurns combine x path (p.take inner)) (p.drop inner) = olderRoot ∧
          climbBorder combine (climbTurns combine x path (p.take inner)) (p.drop inner) = newerRoot := by
  simp [seededRoots]

/-- No two leaf hashes and no two paths lead to the same root. -/
theorem auditRoot_injective (hinj : Function.Injective2 combine) {index size : Nat} {root : H}
    (hp : auditRoot combine index size x p = some root)
    (hq : auditRoot combine index size y q = some root) : x = y ∧ p = q := by
  obtain ⟨hplen, hproot⟩ := auditRoot_eq_some_iff.mp hp
  obtain ⟨hqlen, hqroot⟩ := auditRoot_eq_some_iff.mp hq
  exact climb_injective hinj (hplen.trans hqlen.symm) (hproot.trans hqroot.symm)

theorem seededRoots_injective (hinj : Function.Injective2 combine) {older newer : Nat} {roots : H × H}
    (hp : seededRoots combine older newer x p = some roots)
    (hq : seededRoots combine older newer y q = some roots) : x = y ∧ p = q := by
  obtain ⟨hplen, -, hproot⟩ := seededRoots_eq_some_iff.mp hp
  obtain ⟨hqlen, -, hqroot⟩ := seededRoots_eq_some_iff.mp hq
  -- the newer tree is above every hash of the proof, so its root alone tells them all
  exact climb_injective hinj (hplen.trans hqlen.symm) (hproot.trans hqroot.symm)

theorem bothRoots_injective (hinj : Function.Injective2 combine) {older newer : Nat} {olderRoot : H}
    {roots : H × H} (hp : bothRoots combine older newer olderRoot p = some roots)
    (hq : bothRoots combine older newer olderRoot q = some roots) : p = q := by
  unfold bothRoots at hp hq
  split at hp
  next hwhole =>
    rw [if_pos hwhole] at hq
    exact (seededRoots_injective hinj hp hq).2
  next hwhole =>
    rw [if_neg hwhole] at hq
    cases p with
    | nil => simp at hp
    | cons seed rest =>
      cases q with
      | nil => simp at hq
      | cons seed' rest' =>
        obtain ⟨rfl, rfl⟩ := seededRoots_injective hinj hp hq
        rfl

variable (log : Log H)

/-- Where the hash of two children tells both of them, a proof is accepted only if it is the one that
the plan assembles to, and a leaf only if it is the one in the log. -/
theorem accepted_proof_iff_assembled (hinj : Function.Injective2 log.combine) :
    (∀ index size : Word, index < size →
      ∃ plan honest, inclusionPlan index size = .ok plan ∧
        plan.assemble log.combine (plan.nodes.map log.nodeHash) = .ok honest ∧
        ∀ claimed proof,
          auditRoot log.combine index.toNat size.toNat claimed proof =
              some (log.treeHash 0 size.toNat) ↔
            claimed = log.leaf index.toNat ∧ proof = honest) ∧
    (∀ older newer : Word, 0 < older → older < newer →
      ∃ plan honest, consistencyPlan older newer = .ok plan ∧
        plan.assemble log.combine (plan.nodes.map log.nodeHash) = .ok honest ∧
        ∀ proof,
          bothRoots log.combine older.toNat newer.toNat (log.treeHash 0 older.toNat) proof =
              some (log.treeHash 0 older.toNat, log.treeHash 0 newer.toNat) ↔
            proof = honest) := by
  constructor
  · intro index size h
    obtain ⟨plan, hplan, hproof⟩ := log.assemble_inclusionPlan h
    rw [← log.auditPath_word h] at hproof
    have hroot := log.auditRoot_auditPath (UInt64.lt_iff_toNat_lt.mp h)
    refine ⟨plan, _, hplan, hproof, fun claimed proof => ⟨?_, ?_⟩⟩
    · intro haccepted
      exact auditRoot_injective hinj haccepted hroot
    · rintro ⟨rfl, rfl⟩
      exact hroot
  · intro older newer hpos hlt
    obtain ⟨plan, hplan, hproof⟩ := log.assemble_consistencyPlan hpos hlt
    have hroots := log.bothRoots_consistencyProof (UInt64.lt_iff_toNat_lt.mp hpos)
      (UInt64.lt_iff_toNat_lt.mp hlt)
    refine ⟨plan, _, hplan, hproof, fun proof => ⟨?_, ?_⟩⟩
    · intro haccepted
      exact bothRoots_injective hinj haccepted hroots
    · rintro rfl
      exact hroots

/-- A log whose hashes are the terms that make them. -/
def Log.terms : Log (FreeMagma Nat) :=
  ⟨.of, .mul⟩

theorem Log.terms_injective : Function.Injective2 Log.terms.combine := by
  intro l l' r r' h
  injection h with hl hr
  exact ⟨hl, hr⟩

theorem accepted_proof_iff_assembled_in_seven :
    Function.Injective2 Log.terms.combine ∧
      (∀ claimed proof,
        auditRoot Log.terms.combine 2 7 claimed proof = some (Log.terms.treeHash 0 7) ↔
          claimed = .of 2 ∧ proof = [.of 3, .of 0 * .of 1, .of 4 * .of 5 * .of 6]) ∧
      (∀ proof,
        bothRoots Log.terms.combine 3 7 (Log.terms.treeHash 0 3) proof =
            some (Log.terms.treeHash 0 3, Log.terms.treeHash 0 7) ↔
          proof = [.of 2, .of 3, .of 0 * .of 1, .of 4 * .of 5 * .of 6]) := by
  obtain ⟨hinclusion, hconsistency⟩ := accepted_proof_iff_assembled Log.terms Log.terms_injective
  obtain ⟨plan, honest, hplan, hhonest, hleaf⟩ := hinclusion 2 7 (by decide)
  obtain ⟨plan', honest', hplan', hhonest', htrees⟩ := hconsistency 3 7 (by decide) (by decide)
  have hnodes : consistencyPlan 3 7 = .ok ⟨[⟨0, 2⟩, ⟨0, 3⟩, ⟨1, 0⟩, ⟨0, 6⟩, ⟨1, 2⟩], ⟨3, 5⟩⟩ := by
    decide +kernel
  have hpath : inclusionPlan 2 7 = .ok ⟨[⟨0, 3⟩, ⟨1, 0⟩, ⟨0, 6⟩, ⟨1, 2⟩], ⟨2, 4⟩⟩ := by decide +kernel
  cases hpath.symm.trans hplan
  cases hhonest
  cases hnodes.symm.trans hplan'
  cases hhonest'
  exact ⟨Log.terms_injective, hleaf, htrees⟩

end MerkleLog
