import MerkleLog.Proofs.AssembledProof
import MerkleLog.Proofs.PlanInvariant
import MerkleLog.Proofs.SharedPath

namespace MerkleLog

universe u

section

variable {p : Plan}

/-- How many times two hashes are combined where a plan is assembled to a proof. -/
def Plan.foldCalls (p : Plan) : Nat :=
  match p.run? with
  | none => 0
  | some run => run.stop.toNat - run.start.toNat - 1

/-- With a hash for each node, a plan assembles to a proof of so many hashes, and on the way two hashes
are combined so many times. -/
structure Plan.AssemblesIn (p : Plan) (length calls : Nat) : Prop where
  proof : ∀ {H : Type u} (combine : H → H → H) (hashes : List H), hashes.length = p.nodes.length →
    ∃ proof, p.assemble combine hashes = .ok proof ∧ proof.length = length
  counted : ∀ {H : Type} (combine : Nat → H → H → H) (hashes : List H),
    hashes.length = p.nodes.length →
      ∃ made, p.assembleCounting combine hashes = .ok made ∧ made.proof.length = length ∧
        made.calls = calls

/-- Combines two hashes with the number of the call, the state being the number of calls before. -/
def countCall {H : Type} (combine : Nat → H → H → H) (l r : H) : StateM Nat H :=
  fun calls => (combine (calls + 1) l r, calls + 1)

theorem calls_foldlM_countCall {H : Type} (combine : Nat → H → H → H) (later : List H) (first : H)
    (calls : Nat) :
    ((later.foldlM (fun below next => countCall combine next below) first).run calls).2 =
      calls + later.length := by
  induction later generalizing first calls with
  | nil => rfl
  | cons next later ih =>
    have hrest := ih (combine (calls + 1) next first) (calls + 1)
    rw [List.length_cons, Nat.add_comm later.length, ← Nat.add_assoc, ← hrest]
    rfl

theorem Plan.assembleCounting_of_assembleM {H : Type} {combine : Nat → H → H → H} {hashes : List H}
    {action : StateM Nat (List H)} (h : p.assembleM (countCall combine) hashes = .ok action) :
    p.assembleCounting combine hashes = .ok ⟨(action.run 0).1, (action.run 0).2⟩ := by
  unfold Plan.assembleCounting
  unfold countCall at h
  simp only [h]
  rfl

theorem Plan.exists_assembleCounting (h : p.Valid) {H : Type} (combine : Nat → H → H → H)
    {hashes : List H} (hlen : hashes.length = p.nodes.length) :
    ∃ made, p.assembleCounting combine hashes = .ok made ∧ made.proof.length = p.proofLength ∧
      made.calls = p.foldCalls := by
  rcases Plan.assembleM_of_valid h (countCall combine) hlen with
    ⟨hnone, hproof⟩ | ⟨hsome, first, later, -, hlater, hproof⟩
  · refine ⟨_, Plan.assembleCounting_of_assembleM hproof, ?_, ?_⟩
    · simp only [Plan.proofLength, hnone, ← hlen]
      rfl
    · simp only [Plan.foldCalls, hnone]
      rfl
  · have hcalls := calls_foldlM_countCall combine later first 0
    refine ⟨_, Plan.assembleCounting_of_assembleM hproof, Plan.length_replaced_run h hsome hlen _, ?_⟩
    simp only [Plan.foldCalls, hsome, ← hlater]
    rw [Nat.zero_add] at hcalls
    exact hcalls

theorem Plan.Valid.assemblesIn (h : p.Valid) : p.AssemblesIn p.proofLength p.foldCalls where
  proof combine _ hlen := Plan.exists_assemble h combine hlen
  counted combine _ hlen := Plan.exists_assembleCounting h combine hlen

/-- How long a proof is does not depend on the log, so one log will do to find its length. -/
theorem Plan.proofLength_eq (h : p.Valid) {H : Type u} {log : Log H} {proof : List H}
    (hproof : p.assemble log.combine (p.nodes.map log.nodeHash) = .ok proof) :
    p.proofLength = proof.length := by
  obtain ⟨proof', hproof', hlength⟩ := Plan.exists_assemble h log.combine (List.length_map log.nodeHash)
  cases hproof.symm.trans hproof'
  exact hlength.symm

end

theorem foldCalls_forkPlan (listed : List Node) (leaf bottom size : Nat) {d : Nat}
    (hl : listed.length ≤ 1) (hd : d < 64) :
    (forkPlan listed leaf bottom size d).foldCalls = max (popCount (size % 2 ^ d)) 1 - 1 := by
  obtain ⟨hnone, hrun⟩ := run?_forkPlan listed leaf bottom size hl hd
  rcases Nat.lt_or_ge (popCount (size % 2 ^ d)) 2 with hcount | hcount
  · simp only [Plan.foldCalls, hnone (Nat.le_of_lt_succ hcount)]
    omega
  · obtain ⟨run, hsome, hstart, hstop⟩ := hrun hcount
    simp only [Plan.foldCalls, hsome]
    omega

section

variable {H : Type u} (log : Log H)

theorem Log.length_auditPath (index start n : Nat) :
    (log.auditPath index start n).length = leafDepth index n := by
  fun_induction leafDepth index n generalizing start with
  | case1 index n hn k hk ih =>
    rw [Log.auditPath, if_pos hn]
    simp only [if_pos hk, List.length_append, List.length_singleton, ih, k]
  | case2 index n hn k hk ih =>
    rw [Log.auditPath, if_pos hn]
    simp only [if_neg hk, List.length_append, List.length_singleton, ih, k]
  | case3 index n hn =>
    rw [Log.auditPath, if_neg hn]
    rfl

theorem Log.length_siblingHashes_le (size leaf bottom count : Nat) :
    (log.siblingHashes size leaf bottom count).length ≤ count := by
  simpa [Log.siblingHashes] using
    List.length_filterMap_le (log.siblingHash? size leaf) (List.range' bottom count)

theorem Log.length_consistencyProof_le {older size level : Nat} (hpos : 0 < older) (h : older < size)
    (hs : size ≤ 2 ^ level) :
    (log.consistencyProof older size).length + lowestBit older ≤ level + 1 := by
  obtain ⟨q, ho⟩ := lowestBit_factor hpos
  obtain ⟨hlevel, -⟩ := odd_mul_two_pow_lt (ho ▸ Nat.lt_of_lt_of_le h hs)
  have hsiblings := log.length_siblingHashes_le size (older - 1) (lowestBit older)
    (level - lowestBit older)
  rw [log.consistencyProof_eq ho h hs, List.length_append]
  split
  next => simp only [List.length_nil]; omega
  next => simp only [List.length_singleton]; omega

end

theorem leafDepth_le_bitLength {index n : Nat} (h : index < n) : leafDepth index n ≤ bitLength (n - 1) := by
  -- the path passes at most one sibling at each level below the root
  rw [← Log.length_auditPath Log.listing index 0 n, Log.listing.auditPath_eq h le_two_pow_bitLength]
  exact Log.listing.length_siblingHashes_le n index 0 _

theorem inclusionPlan_assemblesIn {index size : Word} (h : index < size) :
    ∃ plan, inclusionPlan index size = .ok plan ∧ plan.AssemblesIn (leafDepth index.toNat size.toNat)
      (max (popCount (size.toNat % 2 ^ (index.toNat ^^^ size.toNat).log2)) 1 - 1) := by
  obtain ⟨plan, hplan, hproof⟩ := Log.listing.assemble_inclusionPlan h
  obtain ⟨d, hfork, hfork'⟩ := inclusionPlan_eq h
  cases hplan.symm.trans hfork'
  have hvalid := Request.valid_of_plan (r := .inclusion index size) hplan
  have hlength := Plan.proofLength_eq hvalid hproof
  rw [← Log.listing.auditPath_word h, Log.length_auditPath] at hlength
  rw [hfork.log2_eq, ← hlength,
    ← foldCalls_forkPlan [] index.toNat 0 size.toNat (Nat.zero_le 1) (hfork.level_lt size.toNat_lt)]
  exact ⟨_, hplan, hvalid.assemblesIn⟩

theorem consistencyPlan_assemblesIn {older newer : Word} (hpos : 0 < older) (hlt : older < newer) :
    let first := older.toNat - 2 ^ lowestBit older.toNat
    ∃ plan, consistencyPlan older newer = .ok plan ∧
      plan.AssemblesIn plan.proofLength
        (max (popCount (newer.toNat % 2 ^ (first ^^^ newer.toNat).log2)) 1 - 1) := by
  obtain ⟨q, bottom, d, hbottom, ho, -, hfork, hplan⟩ := consistencyPlan_eq hpos hlt
  have hfirst : older.toNat - 2 ^ lowestBit older.toNat = 2 * q * 2 ^ bottom := by
    rw [hbottom, ho, odd_mul_two_pow_sub]
  have hstart := length_start_le (q = 0) (Node.ofNat bottom (2 * q))
  have hvalid := Request.valid_of_plan (r := .consistency older newer) hplan
  simp only [hfirst]
  rw [hfork.log2_eq, ← foldCalls_forkPlan _ _ _ _ hstart (hfork.level_lt newer.toNat_lt)]
  exact ⟨_, hplan, hvalid.assemblesIn⟩

/-- Whatever the log, its proof for an older tree is as long as those the plan assembles to. -/
theorem Log.length_consistencyProof {H : Type u} (log : Log H) {older newer : Word} {plan : Plan}
    (hpos : 0 < older) (hlt : older < newer) (hplan : consistencyPlan older newer = .ok plan) :
    (log.consistencyProof older.toNat newer.toNat).length = plan.proofLength := by
  obtain ⟨plan', hplan', hproof⟩ := log.assemble_consistencyPlan hpos hlt
  cases hplan.symm.trans hplan'
  exact (Plan.proofLength_eq (Request.valid_of_plan (r := .consistency older newer) hplan) hproof).symm

/-- A proof for inclusion has a hash for each step from its leaf up to the root, and so at most one for
each level. A proof for consistency is as long as the consistency proof of any log, and has at most one hash
for each level from the last complete subtree of the older tree on, and one to start with. Hashes are combined only to make one hash of the border that the
path leaves behind at its fork. -/
theorem proofs_no_longer_than_path :
    (∀ index size : Word, index < size → ∃ plan, inclusionPlan index size = .ok plan ∧
      plan.AssemblesIn (leafDepth index.toNat size.toNat)
        (max (popCount (size.toNat % 2 ^ (index.toNat ^^^ size.toNat).log2)) 1 - 1) ∧
      leafDepth index.toNat size.toNat ≤ bitLength (size.toNat - 1) ∧
      bitLength (size.toNat - 1) ≤ 64) ∧
    (∀ older newer : Word, 0 < older → older < newer →
      let first := older.toNat - 2 ^ lowestBit older.toNat
      ∃ plan length, consistencyPlan older newer = .ok plan ∧
        (∀ (H : Type u) (log : Log H),
          (log.consistencyProof older.toNat newer.toNat).length = length) ∧
        plan.AssemblesIn length
          (max (popCount (newer.toNat % 2 ^ (first ^^^ newer.toNat).log2)) 1 - 1) ∧
        length + lowestBit older.toNat ≤ bitLength (newer.toNat - 1) + 1) := by
  constructor
  · intro index size h
    obtain ⟨plan, hplan, hlength⟩ := inclusionPlan_assemblesIn h
    exact ⟨plan, hplan, hlength, leafDepth_le_bitLength (UInt64.lt_iff_toNat_lt.mp h),
      size.bitLength_pred_le⟩
  · intro older newer hpos hlt first
    obtain ⟨plan, hplan, hlength⟩ := consistencyPlan_assemblesIn hpos hlt
    have hbound := Log.listing.length_consistencyProof_le (UInt64.lt_iff_toNat_lt.mp hpos)
      (UInt64.lt_iff_toNat_lt.mp hlt) le_two_pow_bitLength
    rw [Log.listing.length_consistencyProof hpos hlt hplan] at hbound
    exact ⟨plan, _, hplan, fun _ log => log.length_consistencyProof hpos hlt hplan, hlength, hbound⟩

/-- In a tree of 7 leaves, the proofs for the leaf 2 and for the older tree of 3 leaves. -/
theorem proofs_no_longer_than_path_in_seven :
    (2 : Word) < 7 ∧ (0 : Word) < 3 ∧ (3 : Word) < 7 ∧
      (∃ plan, inclusionPlan 2 7 = .ok plan ∧ plan.AssemblesIn.{0} 3 1) ∧
      ∃ plan, consistencyPlan 3 7 = .ok plan ∧ plan.AssemblesIn.{0} 4 1 := by
  have hdepth : leafDepth (2 : Word).toNat (7 : Word).toNat = 3 := by decide +kernel
  have hlowest : lowestBit (3 : Word).toNat = 0 := by decide +kernel
  have hproof : (Log.listing.consistencyProof (3 : Word).toNat (7 : Word).toNat).length = 4 := by
    decide +kernel
  have hcount : popCount ((7 : Word).toNat % 2 ^ ((2 : Word).toNat ^^^ (7 : Word).toNat).log2) = 2 := by
    decide +kernel
  obtain ⟨hinclusion, hconsistency⟩ := proofs_no_longer_than_path.{0}
  obtain ⟨plan, hplan, hlength, -, -⟩ := hinclusion 2 7 (by decide)
  obtain ⟨older, length, holder, hlogs, hcalls, -⟩ := hconsistency 3 7 (by decide) (by decide)
  obtain rfl : length = 4 := (hlogs (List Nat) Log.listing).symm.trans hproof
  have hfirst : (3 : Word).toNat - 2 ^ 0 = (2 : Word).toNat := rfl
  rw [hdepth, hcount] at hlength
  rw [hlowest, hfirst, hcount] at hcalls
  exact ⟨by decide, by decide, by decide, ⟨plan, hplan, hlength⟩, older, holder, hcalls⟩

end MerkleLog
