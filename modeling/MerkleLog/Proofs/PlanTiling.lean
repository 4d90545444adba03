import MerkleLog.Proofs.CoverRow
import MerkleLog.Proofs.RequestPlan

namespace MerkleLog

/-- The siblings on the way up are those to the left of the path and those to the right of it. -/
theorem siblingNodes_perm (leaf bottom count : Nat) :
    ((List.range' bottom count).map (siblingNode leaf)).Perm
      (leftSiblings leaf bottom count ++ rightSiblings leaf bottom count) := by
  have hperm := (List.filter_append_perm leaf.testBit (List.range' bottom count)).map (siblingNode leaf)
  rw [List.map_append, ← leftSiblings_eq_map_siblingNode, ← rightSiblings_eq_map_siblingNode] at hperm
  exact hperm.symm

/-- Each node of the plan is listed first, or stands to the left of the path from `bottom` on, or to
the right of it below the fork, or on the right border. -/
theorem ForkAt.nodes_forkPlan_perm {listed : List Node} {leaf size bottom d : Nat}
    (h : ForkAt leaf size d) (hb : bottom ≤ d) (hd : d < 64) :
    (forkPlan listed leaf bottom size d).nodes.Perm
      (listed ++ leftSiblings leaf bottom (64 - bottom) ++
        (rightSiblings leaf bottom (d - bottom) ++ leftSiblings size 0 d)) := by
  rw [List.perm_iff_count]
  intro n
  have hsiblings := (siblingNodes_perm leaf bottom (d - bottom)).count_eq n
  simp only [forkPlan, Plan.ofParts, h.leftSiblings_eq hb hd, List.count_append] at hsiblings ⊢
  omega

/-- A tree whose size is an odd number of units ends with a subtree of one unit. -/
theorem leftSiblings_odd_mul {q bottom : Nat} (h : bottom < 64) :
    leftSiblings ((2 * q + 1) * 2 ^ bottom) 0 64 =
      Node.ofNat bottom (2 * q) :: leftSiblings (2 * q * 2 ^ bottom) bottom (64 - bottom) := by
  have hodd : (2 * q + 1) * 2 ^ bottom / 2 ^ bottom = 2 * q + 1 :=
    Nat.mul_div_cancel _ (Nat.two_pow_pos bottom)
  have heven : 2 * q * 2 ^ bottom / 2 ^ bottom = 2 * q := Nat.mul_div_cancel _ (Nat.two_pow_pos bottom)
  have habove : leftSiblings ((2 * q + 1) * 2 ^ bottom) (bottom + 1) (63 - bottom) =
      leftSiblings (2 * q * 2 ^ bottom) (bottom + 1) (63 - bottom) := by
    apply leftSiblings_congr
    rw [div_two_pow_succ, div_two_pow_succ, hodd, heven]
    omega
  rw [leftSiblings_firstLeaf h.le, show 64 - bottom = 63 - bottom + 1 by omega,
    leftSiblings_cons_of_odd (by omega), leftSiblings_cons_of_even (by omega), hodd, habove,
    Nat.add_sub_cancel]

theorem toNat_succ_of_lt {index size : Word} (h : index < size) :
    (index + 1).toNat = index.toNat + 1 := by
  rw [UInt64.toNat_add]
  exact Nat.mod_eq_of_lt (Nat.lt_of_le_of_lt (UInt64.lt_iff_toNat_lt.mp h) size.toNat_lt)

theorem inclusionPlan_nodes_perm {index size : Word} (h : index < size) :
    ∃ plan left right, inclusionPlan index size = .ok plan ∧
      Span.cover ⟨0, index⟩ = .ok left ∧ Span.cover ⟨index + 1, size⟩ = .ok right ∧
      plan.nodes.Perm (left ++ right) := by
  obtain ⟨d, hfork, hplan⟩ := inclusionPlan_eq h
  have hnext := toNat_succ_of_lt h
  have hfork' : ForkAt ((index + 1).toNat - 1) size.toNat d := by
    rwa [hnext, Nat.add_sub_cancel]
  have hright := Span.cover_of_fork (s := ⟨index + 1, size⟩) (by simp [hnext]) hfork'
  refine ⟨_, _, _, hplan, Span.cover_from_origin index, hright, ?_⟩
  refine (hfork.nodes_forkPlan_perm (Nat.zero_le d) (hfork.level_lt size.toNat_lt)).trans ?_
  simp only [List.nil_append, Nat.sub_zero, hnext, Nat.add_sub_cancel]
  exact (List.reverse_perm _).symm.append ((List.reverse_perm _).symm.append_left _)

/-- The subtree that is all of the older tree is known to whoever asks, and any other is listed. -/
theorem consistencyPlan_nodes_perm {older newer : Word} (hpos : 0 < older) (hlt : older < newer) :
    ∃ plan left right, consistencyPlan older newer = .ok plan ∧
      Span.cover ⟨0, older⟩ = .ok left ∧ Span.cover ⟨older, newer⟩ = .ok right ∧
      ((¬ ∃ k, older.toNat = 2 ^ k) → plan.nodes.Perm (left ++ right)) ∧
      ((∃ k, older.toNat = 2 ^ k) → (∃ node, left = [node]) ∧ plan.nodes.Perm right) := by
  obtain ⟨q, bottom, d, -, ho, hb, hfork, hplan⟩ := consistencyPlan_eq hpos hlt
  have hd := hfork.level_lt newer.toNat_lt
  have hpath := ho ▸ firstLeaf_div bottom (2 * q)
  have hright := Span.cover_of_fork (s := ⟨older, newer⟩) (UInt64.lt_iff_toNat_lt.mp hpos)
    (hfork.congr_left (div_two_pow_congr hb hpath))
  have hleft := Span.cover_from_origin older
  have hwhole : (∃ k, older.toNat = 2 ^ k) ↔ q = 0 := by
    rw [ho]
    exact odd_mul_two_pow_eq_two_pow_iff
  have hperm : (forkPlan (if q = 0 then [] else [Node.ofNat bottom (2 * q)]) _ _ _ _).nodes.Perm _ :=
    hfork.nodes_forkPlan_perm hb hd
  rw [ho, leftSiblings_odd_mul (by omega)] at hleft
  rw [ho, rightSiblings_lastLeaf hb] at hright
  refine ⟨_, _, _, hplan, hleft, hright, ?_, ?_⟩
  · intro hpow
    rw [if_neg (mt hwhole.mpr hpow)] at hperm ⊢
    exact hperm.trans ((List.reverse_perm _).symm.append ((List.reverse_perm _).symm.append_left _))
  · intro hpow
    obtain rfl := hwhole.mp hpow
    have hnil : leftSiblings (2 * 0 * 2 ^ bottom) bottom (64 - bottom) = [] :=
      leftSiblings_eq_nil fun level _ _ => by simp
    rw [hnil] at hperm ⊢
    rw [if_pos rfl, List.nil_append, List.nil_append] at hperm
    exact ⟨⟨_, rfl⟩, hperm.trans ((List.reverse_perm _).symm.append_left _)⟩

/-- The covers before and after a leaf tile all other leaves. -/
theorem tiles_around_leaf {index size : Word} {left right : List Node} (h : index < size)
    (hleft : Span.cover ⟨0, index⟩ = .ok left) (hright : Span.cover ⟨index + 1, size⟩ = .ok right) :
    Tiles (left ++ right) fun leaf => leaf < size ∧ leaf ≠ index := by
  have hnext := toNat_succ_of_lt h
  have hle : index + 1 ≤ size := by
    rw [UInt64.le_iff_toNat_le, hnext]
    exact UInt64.lt_iff_toNat_lt.mp h
  have hbefore := Span.tiles_of_cover (UInt64.zero_le) hleft
  have hafter := Span.tiles_of_cover hle hright
  have hturn : index ≤ index + 1 := by
    rw [UInt64.le_iff_toNat_le, hnext]
    exact Nat.le_succ _
  rw [UInt64.lt_iff_toNat_lt] at h
  refine (hbefore.append_after hafter hturn).congr fun leaf => ?_
  simp only [Span.Holds, UInt64.le_iff_toNat_le, UInt64.lt_iff_toNat_lt, hnext, Ne,
    ← UInt64.toNat_inj, UInt64.toNat_zero]
  omega

theorem tiles_around_turn {older newer : Word} {left right : List Node} (h : older < newer)
    (hleft : Span.cover ⟨0, older⟩ = .ok left) (hright : Span.cover ⟨older, newer⟩ = .ok right) :
    Tiles (left ++ right) (· < newer) := by
  have hbefore := Span.tiles_of_cover (UInt64.zero_le) hleft
  have hafter := Span.tiles_of_cover (UInt64.le_of_lt h) hright
  rw [UInt64.lt_iff_toNat_lt] at h
  refine (hbefore.append_after hafter (UInt64.le_refl _)).congr fun leaf => ?_
  simp only [Span.Holds, UInt64.le_iff_toNat_le, UInt64.lt_iff_toNat_lt, UInt64.toNat_zero]
  omega

/-- The nodes of a plan are those of the covers on both sides of the leaf or of the end of the older
tree, but for the one node that the older tree may be. So they tile the leaves there. -/
theorem plan_nodes_tile_leaves :
    (∀ index size : Word, index < size →
      ∃ plan left right, inclusionPlan index size = .ok plan ∧
        Span.cover ⟨0, index⟩ = .ok left ∧ Span.cover ⟨index + 1, size⟩ = .ok right ∧
        plan.nodes.Perm (left ++ right) ∧
        (∀ n ∈ plan.nodes, ∃ s, n.span? = some s ∧ s.stop ≤ size) ∧
        Tiles plan.nodes fun leaf => leaf < size ∧ leaf ≠ index) ∧
    (∀ older newer : Word, 0 < older → older < newer →
      ∃ plan left right, consistencyPlan older newer = .ok plan ∧
        Span.cover ⟨0, older⟩ = .ok left ∧ Span.cover ⟨older, newer⟩ = .ok right ∧
        (∀ n ∈ plan.nodes, ∃ s, n.span? = some s ∧ s.stop ≤ newer) ∧
        ((¬ ∃ k, older.toNat = 2 ^ k) →
          plan.nodes.Perm (left ++ right) ∧ Tiles plan.nodes (· < newer)) ∧
        ((∃ k, older.toNat = 2 ^ k) →
          (∃ node, left = [node]) ∧ plan.nodes.Perm right ∧
            Tiles plan.nodes (Span.Holds ⟨older, newer⟩))) := by
  constructor
  · intro index size h
    obtain ⟨plan, left, right, hplan, hleft, hright, hperm⟩ := inclusionPlan_nodes_perm h
    have htiles := (tiles_around_leaf h hleft hright).perm hperm.symm
    exact ⟨plan, left, right, hplan, hleft, hright, hperm,
      fun n hn => htiles.exists_span_le (fun leaf hleaf => hleaf.1) hn, htiles⟩
  · intro older newer hpos hlt
    obtain ⟨plan, left, right, hplan, hleft, hright, hparts, hwhole⟩ :=
      consistencyPlan_nodes_perm hpos hlt
    refine ⟨plan, left, right, hplan, hleft, hright, ?_, ?_, ?_⟩
    · intro n hn
      by_cases hpow : ∃ k, older.toNat = 2 ^ k
      · have htiles := Span.tiles_of_cover (UInt64.le_of_lt hlt) hright
        exact htiles.exists_span_le (fun leaf hleaf => hleaf.2) ((hwhole hpow).2.mem_iff.mp hn)
      · have htiles := tiles_around_turn hlt hleft hright
        exact htiles.exists_span_le (fun leaf hleaf => hleaf) ((hparts hpow).mem_iff.mp hn)
    · intro hpow
      exact ⟨hparts hpow, (tiles_around_turn hlt hleft hright).perm (hparts hpow).symm⟩
    · intro hpow
      obtain ⟨hnode, hperm⟩ := hwhole hpow
      exact ⟨hnode, hperm, (Span.tiles_of_cover (UInt64.le_of_lt hlt) hright).perm hperm.symm⟩

theorem plan_nodes_tile_leaves_in_seven :
    ((2 : Word) < 7 ∧
      Tiles [⟨0, 3⟩, ⟨1, 0⟩, ⟨0, 6⟩, ⟨1, 2⟩] fun leaf => leaf < 7 ∧ leaf ≠ 2) ∧
    ((0 : Word) < 3 ∧ (3 : Word) < 7 ∧ (¬ ∃ k, (3 : Word).toNat = 2 ^ k) ∧
      Tiles [⟨0, 2⟩, ⟨0, 3⟩, ⟨1, 0⟩, ⟨0, 6⟩, ⟨1, 2⟩] (· < 7)) ∧
    ((0 : Word) < 4 ∧ (4 : Word) < 7 ∧ (∃ k, (4 : Word).toNat = 2 ^ k) ∧
      Tiles [⟨0, 6⟩, ⟨1, 2⟩] (Span.Holds ⟨4, 7⟩)) := by
  have hodd : ¬ ∃ k, (3 : Word).toNat = 2 ^ k := by
    rintro ⟨k, hk⟩
    have hthree : (2 * 1 + 1) * 2 ^ 0 = 2 ^ k := hk
    exact absurd (odd_mul_two_pow_eq_two_pow_iff.mp ⟨k, hthree⟩) Nat.one_ne_zero
  have hfour : ∃ k, (4 : Word).toNat = 2 ^ k := ⟨2, rfl⟩
  obtain ⟨hinclusion, hconsistency⟩ := plan_nodes_tile_leaves
  obtain ⟨plan, left, right, hplan, -, -, -, -, htiles⟩ := hinclusion 2 7 (by decide)
  obtain ⟨plan', left', right', hplan', -, -, -, hparts, -⟩ := hconsistency 3 7 (by decide) (by decide)
  obtain ⟨plan'', left'', right'', hplan'', -, -, -, -, hwhole⟩ :=
    hconsistency 4 7 (by decide) (by decide)
  have hnodes : inclusionPlan 2 7 = .ok ⟨[⟨0, 3⟩, ⟨1, 0⟩, ⟨0, 6⟩, ⟨1, 2⟩], ⟨2, 4⟩⟩ := by decide +kernel
  have hnodes' : consistencyPlan 3 7 = .ok ⟨[⟨0, 2⟩, ⟨0, 3⟩, ⟨1, 0⟩, ⟨0, 6⟩, ⟨1, 2⟩], ⟨3, 5⟩⟩ := by
    decide +kernel
  have hnodes'' : consistencyPlan 4 7 = .ok ⟨[⟨0, 6⟩, ⟨1, 2⟩], ⟨0, 2⟩⟩ := by decide +kernel
  cases hnodes.symm.trans hplan
  cases hnodes'.symm.trans hplan'
  cases hnodes''.symm.trans hplan''
  exact ⟨⟨by decide, htiles⟩, ⟨by decide, by decide, hodd, (hparts hodd).2⟩,
    ⟨by decide, by decide, hfour, (hwhole hfour).2.2⟩⟩

end MerkleLog
