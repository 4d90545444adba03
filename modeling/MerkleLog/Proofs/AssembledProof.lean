import MerkleLog.Proofs.ForkHashes
import MerkleLog.Proofs.RequestPlan
import MerkleLog.Proofs.VerifierRoots

namespace MerkleLog

universe u

variable {H : Type u} (log : Log H) {index size older newer : Word}

theorem Log.assemble_inclusionPlan (h : index < size) :
    ∃ plan, inclusionPlan index size = .ok plan ∧
      plan.assemble log.combine (plan.nodes.map log.nodeHash) =
        .ok (log.siblingHashes size.toNat index.toNat 0 64) := by
  obtain ⟨d, hfork, hplan⟩ := inclusionPlan_eq h
  exact ⟨_, hplan, hfork.assemble_forkPlan log (Nat.zero_le 1) (Nat.zero_le d) size.toNat_lt⟩

theorem Log.auditPath_word (h : index < size) :
    log.auditPath index.toNat 0 size.toNat = log.siblingHashes size.toNat index.toNat 0 64 :=
  log.auditPath_eq (UInt64.lt_iff_toNat_lt.mp h) size.toNat_lt.le

/-- The proof that a plan for inclusion assembles to is the audit path of the leaf. -/
theorem inclusionPlan_assembles_auditPath (h : index < size) :
    ∃ plan, inclusionPlan index size = .ok plan ∧
      plan.assemble log.combine (plan.nodes.map log.nodeHash) =
        .ok (log.auditPath index.toNat 0 size.toNat) := by
  obtain ⟨plan, hplan, hproof⟩ := log.assemble_inclusionPlan h
  rw [← log.auditPath_word h] at hproof
  exact ⟨plan, hplan, hproof⟩

theorem inclusionPlan_assembles_auditPath_of_seven :
    (2 : Word) < 7 ∧ ∃ plan, inclusionPlan 2 7 = .ok plan ∧
      plan.assemble Log.listing.combine (plan.nodes.map Log.listing.nodeHash) =
        .ok [[3], [0, 1], [4, 5, 6]] := by
  have hpath : Log.listing.auditPath 2 0 7 = [[3], [0, 1], [4, 5, 6]] := by decide +kernel
  rw [← hpath]
  exact ⟨by decide, inclusionPlan_assembles_auditPath Log.listing (by decide)⟩

/-- The proof that a plan for inclusion assembles to leads from the leaf to the root of the tree. -/
theorem inclusionPlan_proof_verifies (h : index < size) :
    ∃ plan proof, inclusionPlan index size = .ok plan ∧
      plan.assemble log.combine (plan.nodes.map log.nodeHash) = .ok proof ∧
      auditRoot log.combine index.toNat size.toNat (log.leaf index.toNat) proof =
        some (log.treeHash 0 size.toNat) := by
  obtain ⟨plan, hplan, hproof⟩ := log.assemble_inclusionPlan h
  rw [← log.auditPath_word h] at hproof
  exact ⟨plan, _, hplan, hproof, log.auditRoot_auditPath (UInt64.lt_iff_toNat_lt.mp h)⟩

theorem inclusionPlan_proof_verifies_in_seven :
    (2 : Word) < 7 ∧ ∃ plan proof, inclusionPlan 2 7 = .ok plan ∧
      plan.assemble Log.listing.combine (plan.nodes.map Log.listing.nodeHash) = .ok proof ∧
      auditRoot Log.listing.combine 2 7 [2] proof = some [0, 1, 2, 3, 4, 5, 6] := by
  have hroot : Log.listing.treeHash 0 7 = [0, 1, 2, 3, 4, 5, 6] := by decide +kernel
  rw [← hroot]
  exact ⟨by decide, inclusionPlan_proof_verifies Log.listing (by decide)⟩

theorem Log.assemble_consistencyPlan (hpos : 0 < older) (hlt : older < newer) :
    ∃ plan, consistencyPlan older newer = .ok plan ∧
      plan.assemble log.combine (plan.nodes.map log.nodeHash) =
        .ok (log.consistencyProof older.toNat newer.toNat) := by
  obtain ⟨q, bottom, d, -, ho, hb, hfork, hplan⟩ := consistencyPlan_eq hpos hlt
  have hlt' := UInt64.lt_iff_toNat_lt.mp hlt
  have hword := newer.toNat_lt
  have hlevel := hfork.level_lt hword
  obtain ⟨-, hindex⟩ := odd_mul_two_pow_lt (ho ▸ older.toNat_lt)
  have hleaf := ho ▸ firstLeaf_div bottom (2 * q)
  have hlisted : (if q = 0 then [] else [Node.ofNat bottom (2 * q)]).map log.nodeHash =
      if q = 0 then [] else [log.subtreeHash bottom (2 * q)] := by
    rw [← log.nodeHash_ofNat (by omega) hindex]
    split
    next => rfl
    next => rfl
  refine ⟨_, hplan, ?_⟩
  rw [hfork.assemble_forkPlan log (length_start_le _ _) hb hword, hlisted,
    log.siblingHashes_congr hleaf, log.consistencyProof_eq ho hlt' hword.le]

theorem Log.subtreeHash_last {older q bottom : Nat} (ho : older = (2 * q + 1) * 2 ^ bottom) :
    log.subtreeHash bottom (2 * q) = log.treeHash (older - 2 ^ bottom) (2 ^ bottom) := by
  rw [← log.treeHash_complete, ho, odd_mul_two_pow_sub]

/-- The proof that a plan for consistency assembles to is the consistency proof of the two trees. It
begins with the root of the last complete subtree of the older tree exactly when that subtree is not
the whole of it. -/
theorem consistencyPlan_assembles_consistencyProof (hpos : 0 < older) (hlt : older < newer) :
    ∃ plan, consistencyPlan older newer = .ok plan ∧
      plan.assemble log.combine (plan.nodes.map log.nodeHash) =
        .ok (log.consistencyProof older.toNat newer.toNat) ∧
      let last := lowestBit older.toNat
      let siblings := log.siblingHashes newer.toNat (older.toNat - 1) last (64 - last)
      ((∃ k, older.toNat = 2 ^ k) → log.consistencyProof older.toNat newer.toNat = siblings) ∧
      ((¬ ∃ k, older.toNat = 2 ^ k) → log.consistencyProof older.toNat newer.toNat =
        log.treeHash (older.toNat - 2 ^ last) (2 ^ last) :: siblings) := by
  obtain ⟨plan, hplan, hproof⟩ := log.assemble_consistencyPlan hpos hlt
  have hlt' := UInt64.lt_iff_toNat_lt.mp hlt
  obtain ⟨q, ho⟩ := lowestBit_factor (UInt64.lt_iff_toNat_lt.mp hpos)
  have hparts := log.consistencyProof_eq ho hlt' newer.toNat_lt.le
  have hwhole : (∃ k, (2 * q + 1) * 2 ^ lowestBit older.toNat = 2 ^ k) ↔ q = 0 :=
    odd_mul_two_pow_eq_two_pow_iff
  rw [← ho] at hwhole
  refine ⟨plan, hplan, hproof, ?_, ?_⟩
  · intro hpow
    rw [hparts, if_pos (hwhole.mp hpow), List.nil_append]
  · intro hpow
    rw [hparts, if_neg (mt hwhole.mpr hpow), log.subtreeHash_last ho]
    rfl

theorem consistencyPlan_assembles_consistencyProof_three_of_seven :
    (0 : Word) < 3 ∧ (3 : Word) < 7 ∧ ∃ plan, consistencyPlan 3 7 = .ok plan ∧
      plan.assemble Log.listing.combine (plan.nodes.map Log.listing.nodeHash) =
        .ok [[2], [3], [0, 1], [4, 5, 6]] := by
  have hproof : Log.listing.consistencyProof 3 7 = [[2], [3], [0, 1], [4, 5, 6]] := by
    decide +kernel
  obtain ⟨plan, hplan, hassemble, -⟩ :=
    consistencyPlan_assembles_consistencyProof Log.listing (by decide : (0 : Word) < 3)
      (by decide : (3 : Word) < 7)
  exact ⟨by decide, by decide, plan, hplan, hassemble.trans (congrArg _ hproof)⟩

/-- The proof that a plan for consistency assembles to leads from the root of the older tree to the
roots of both. -/
theorem consistencyPlan_proof_verifies (hpos : 0 < older) (hlt : older < newer) :
    ∃ plan proof, consistencyPlan older newer = .ok plan ∧
      plan.assemble log.combine (plan.nodes.map log.nodeHash) = .ok proof ∧
      bothRoots log.combine older.toNat newer.toNat (log.treeHash 0 older.toNat) proof =
        some (log.treeHash 0 older.toNat, log.treeHash 0 newer.toNat) := by
  obtain ⟨plan, hplan, hproof⟩ := log.assemble_consistencyPlan hpos hlt
  have hroots := log.bothRoots_consistencyProof (UInt64.lt_iff_toNat_lt.mp hpos)
    (UInt64.lt_iff_toNat_lt.mp hlt)
  exact ⟨plan, _, hplan, hproof, hroots⟩

theorem consistencyPlan_proof_verifies_three_of_seven :
    (0 : Word) < 3 ∧ (3 : Word) < 7 ∧ ∃ plan proof, consistencyPlan 3 7 = .ok plan ∧
      plan.assemble Log.listing.combine (plan.nodes.map Log.listing.nodeHash) = .ok proof ∧
      bothRoots Log.listing.combine 3 7 [0, 1, 2] proof = some ([0, 1, 2], [0, 1, 2, 3, 4, 5, 6]) := by
  have holder : Log.listing.treeHash 0 3 = [0, 1, 2] := by decide +kernel
  have hnewer : Log.listing.treeHash 0 7 = [0, 1, 2, 3, 4, 5, 6] := by decide +kernel
  rw [← holder, ← hnewer]
  exact ⟨by decide, by decide, consistencyPlan_proof_verifies Log.listing (by decide) (by decide)⟩

end MerkleLog
