import Mathlib.Data.List.Nodup
import Mathlib.Data.List.Perm.Subperm
import MerkleLog.Proofs.CoverRow

namespace MerkleLog

variable {s : Span} {nodes others : List Node} {m n : Node}

/-- A node inside the interval is under each node of the row that it shares a leaf with. -/
theorem Span.MaximalRow.holds_of_common (h : s.MaximalRow nodes) (hn : n ∈ nodes)
    (hinside : ∀ leaf, m.Holds leaf → s.Holds leaf) {common : Word} (hmc : m.Holds common)
    (hnc : n.Holds common) {leaf : Word} (hleaf : m.Holds leaf) : n.Holds leaf := by
  obtain ⟨t, ht⟩ := h.tiles.fits n hn
  have hle : m.level.toNat ≤ n.level.toNat := by
    by_contra hlt
    -- a higher node would have the leaves under the parent, and some of them are outside
    obtain ⟨outside, hparent, hout⟩ := h.parent n hn
    obtain ⟨u, hu, -⟩ := id hmc
    have hpath := hnc.onPath.of_level_lt hmc.onPath (Nat.lt_of_not_le hlt) hparent
    exact hout (hinside outside ((Node.holds_iff hu).mpr hpath))
  exact (Node.holds_iff ht).mpr (hmc.onPath.of_level_le hnc.onPath hle hleaf.onPath)

theorem Span.MaximalRow.exists_pick (h : s.MaximalRow nodes) (ho : Tiles others s.Holds) :
    ∃ pick : Node → Node, ∀ n ∈ nodes,
      pick n ∈ others ∧ ∃ leaf, (pick n).Holds leaf ∧ n.Holds leaf := by
  have hexists : ∀ n ∈ nodes, ∃ m, m ∈ others ∧ ∃ leaf, m.Holds leaf ∧ n.Holds leaf := by
    intro n hn
    obtain ⟨t, ht⟩ := h.tiles.fits n hn
    have hfirst := Node.holds_start ht
    obtain ⟨m, hm, hml⟩ := (ho.holds_iff _).mpr ((h.tiles.holds_iff _).mp ⟨n, hn, hfirst⟩)
    exact ⟨m, hm, t.start, hml, hfirst⟩
  choose! pick hpick using hexists
  exact ⟨pick, hpick⟩

section

variable {pick : Node → Node} (h : s.MaximalRow nodes) (ho : Tiles others s.Holds)
  (hpick : ∀ n ∈ nodes, pick n ∈ others ∧ ∃ leaf, (pick n).Holds leaf ∧ n.Holds leaf)

include h ho hpick

theorem Span.MaximalRow.holds_of_pick (hn : n ∈ nodes) {leaf : Word} (hleaf : (pick n).Holds leaf) :
    n.Holds leaf := by
  obtain ⟨hmem, common, hpc, hnc⟩ := hpick n hn
  have hinside : ∀ leaf, (pick n).Holds leaf → s.Holds leaf :=
    fun leaf hleaf => (ho.holds_iff leaf).mp ⟨pick n, hmem, hleaf⟩
  exact h.holds_of_common hn hinside hpc hnc hleaf

/-- Different nodes of the row share leaves with different nodes of a tiling. -/
theorem Span.MaximalRow.nodup_pick : (nodes.map pick).Nodup := by
  refine h.tiles.nodup.map_on ?_
  intro m hm n hn heq
  obtain ⟨-, leaf, hpl, hnl⟩ := hpick n hn
  exact h.tiles.eq_of_holds hm hn (h.holds_of_pick ho hpick hm (heq ▸ hpl)) hnl

theorem Span.MaximalRow.subperm_pick : (nodes.map pick).Subperm others := by
  refine (h.nodup_pick ho hpick).subperm ?_
  intro m hm
  obtain ⟨n, hn, rfl⟩ := List.mem_map.mp hm
  exact (hpick n hn).1

/-- If a tiling has no other nodes than those, each of them has all leaves of its node of the row. -/
theorem Span.MaximalRow.pick_eq (hperm : (nodes.map pick).Perm others) (hn : n ∈ nodes) :
    pick n = n := by
  obtain ⟨t, ht⟩ := ho.fits _ (hpick n hn).1
  obtain ⟨u, hu⟩ := h.tiles.fits n hn
  refine Node.eq_of_holds_iff ht hu fun leaf => ⟨h.holds_of_pick ho hpick hn, ?_⟩
  intro hnl
  obtain ⟨m, hm, hml⟩ := (ho.holds_iff leaf).mpr ((h.tiles.holds_iff leaf).mp ⟨n, hn, hnl⟩)
  obtain ⟨n', hn', rfl⟩ := List.mem_map.mp (hperm.mem_iff.mpr hm)
  obtain rfl := h.tiles.eq_of_holds hn' hn (h.holds_of_pick ho hpick hn' hml) hnl
  exact hml

end

theorem Span.MaximalRow.length_le (h : s.MaximalRow nodes) (ho : Tiles others s.Holds) :
    nodes.length ≤ others.length := by
  obtain ⟨pick, hpick⟩ := h.exists_pick ho
  have hle := (h.subperm_pick ho hpick).length_le
  rwa [List.length_map] at hle

theorem Span.MaximalRow.perm_of_length_eq (h : s.MaximalRow nodes) (ho : Tiles others s.Holds)
    (hlen : others.length = nodes.length) : others.Perm nodes := by
  obtain ⟨pick, hpick⟩ := h.exists_pick ho
  have hperm : (nodes.map pick).Perm others :=
    (h.subperm_pick ho hpick).perm_of_length_le (by rw [List.length_map, hlen])
  have hsame : nodes.map pick = nodes := by
    rw [List.map_congr_left fun n hn => h.pick_eq ho hpick hperm hn, List.map_id']
  rw [hsame] at hperm
  exact hperm.symm

/-- The cover of an interval is a row of as many nodes as its size says, from its start to its stop.
No tiling of the interval has fewer nodes, and none but a reordered cover has as few. -/
theorem cover_unique_minimal_tiling (h : s.start ≤ s.stop) :
    ∃ nodes, s.cover = .ok nodes ∧ s.coverSize = .ok nodes.length ∧
      rowStop? s.start nodes = some s.stop ∧ (nodes = [] ↔ s.start = s.stop) ∧
      Tiles nodes s.Holds ∧
      ∀ others, Tiles others s.Holds →
        nodes.length ≤ others.length ∧ (others.length = nodes.length → others.Perm nodes) := by
  obtain ⟨nodes, hcover, hmax⟩ := Span.exists_cover h
  refine ⟨nodes, hcover, Span.coverSize_of_cover hcover, hmax.row, rowStop?_eq_nil_iff hmax.row,
    hmax.tiles, fun others ho => ?_⟩
  exact ⟨hmax.length_le ho, hmax.perm_of_length_eq ho⟩

/-- The cover of the leaves 3 to 20, and a tiling that splits one of its nodes. -/
theorem cover_unique_minimal_tiling_three_to_twenty_one :
    (3 : Word) ≤ 21 ∧
      Tiles [⟨0, 3⟩, ⟨2, 1⟩, ⟨2, 2⟩, ⟨2, 3⟩, ⟨2, 4⟩, ⟨0, 20⟩] (Span.Holds ⟨3, 21⟩) ∧
      ∀ others, Tiles others (Span.Holds ⟨3, 21⟩) →
        5 ≤ others.length ∧
          (others.length = 5 → others.Perm [⟨0, 3⟩, ⟨2, 1⟩, ⟨3, 1⟩, ⟨2, 4⟩, ⟨0, 20⟩]) := by
  obtain ⟨nodes, hcover, -, -, -, -, hothers⟩ :=
    cover_unique_minimal_tiling (s := ⟨3, 21⟩) (by decide)
  have hvalue : Span.cover ⟨3, 21⟩ = .ok [⟨0, 3⟩, ⟨2, 1⟩, ⟨3, 1⟩, ⟨2, 4⟩, ⟨0, 20⟩] := by decide +kernel
  cases hvalue.symm.trans hcover
  exact ⟨by decide, tiles_of_rowStop? (by decide), hothers⟩

end MerkleLog
