import MerkleLog.Proofs.CoverRow

namespace MerkleLog

/-- The node before a node on its level; for a right child, the other child of its parent. -/
def Node.leftSibling (n : Node) : Node :=
  ⟨n.level, n.index - 1⟩

/-- Right children whose levels rise and are the ones of a word. The leaf before `start` is under the
left sibling of each. -/
structure RisingPart (start ones : Word) (nodes : List Node) : Prop where
  sorted : (levelsOf nodes).Pairwise (· < ·)
  level_iff : ∀ level, level ∈ levelsOf nodes ↔ ones.toNat.testBit level = true
  rightChild : ∀ n ∈ nodes, n.index.toNat % 2 = 1 ∧ n.leftSibling.Holds (start - 1)

/-- Left children whose levels fall and are the ones of a word. The position `stop` is under the right
sibling of each, which need not have a span. -/
structure FallingPart (stop ones : Word) (nodes : List Node) : Prop where
  sorted : (levelsOf nodes).Pairwise (· > ·)
  level_iff : ∀ level, level ∈ levelsOf nodes ↔ ones.toNat.testBit level = true
  leftChild : ∀ n ∈ nodes, n.index.toNat % 2 = 0 ∧
    (n.index.toNat + 1) * 2 ^ n.level.toNat ≤ stop.toNat ∧
    stop.toNat < (n.index.toNat + 2) * 2 ^ n.level.toNat

theorem Node.holds_leftSibling {n : Node} {s : Span} {leaf : Word} (h : n.span? = some s)
    (hindex : n.index.toNat = leaf.toNat / 2 ^ n.level.toNat + 1) : n.leftSibling.Holds leaf := by
  have hpos : 0 < n.index.toNat := hindex ▸ Nat.succ_pos _
  have hprev : (n.index - 1).toNat = n.index.toNat - 1 := Word.toNat_sub_one hpos
  have hstart := s.start.toNat_lt
  rw [(Node.span?_eq_some_iff.mp h).1] at hstart
  have hfit : (n.leftSibling.index.toNat + 1) * 2 ^ n.leftSibling.level.toNat < 2 ^ 64 := by
    rwa [Node.leftSibling, hprev, Nat.sub_add_cancel hpos]
  obtain ⟨t, ht⟩ := Node.exists_span hfit
  have ht' : n.leftSibling.span? = some t := by rw [Node.span?, ht]; rfl
  rw [Node.holds_iff ht', Node.OnPath, Node.leftSibling, hprev, hindex, Nat.add_sub_cancel]

theorem risingPart_rightSiblings {start stop ones : Word} {d : Nat} (hpos : 0 < start.toNat)
    (h : ForkAt (start.toNat - 1) stop.toNat d)
    (hones : ones.toNat = 2 ^ d - ((start.toNat - 1) % 2 ^ d + 1)) :
    RisingPart start ones (rightSiblings (start.toNat - 1) 0 d) := by
  have hd := h.level_lt stop.toNat_lt
  have hstart := start.toNat_lt
  have hlevels : levelsOf (rightSiblings (start.toNat - 1) 0 d) = setBits ones := by
    rw [levelsOf_rightSiblings (by omega), setBits_of_mod_complement hd.le hones]
  refine ⟨?_, fun level => ?_, fun n hn => ?_⟩
  · rw [hlevels]
    exact setBits_sorted ones
  · rw [hlevels]
    exact mem_setBits
  · obtain ⟨hindex, hodd⟩ := index_of_mem_rightSiblings (by omega) (by omega) hn
    have hmax := Span.maximalRow_of_fork (s := ⟨start, stop⟩) hpos h
    obtain ⟨s, hs⟩ := hmax.tiles.fits n (List.mem_append_left _ hn)
    refine ⟨hodd, Node.holds_leftSibling hs ?_⟩
    rw [Word.toNat_sub_one hpos, hindex]

theorem fallingPart_leftSiblings {stop ones : Word} {d : Nat} (hd : d ≤ 64)
    (hones : ones.toNat = stop.toNat % 2 ^ d) :
    FallingPart stop ones (leftSiblings stop.toNat 0 d).reverse := by
  have hlevels : levelsOf (leftSiblings stop.toNat 0 d).reverse = (setBits ones).reverse := by
    rw [levelsOf, List.map_reverse, ← levelsOf, levelsOf_leftSiblings (by omega),
      setBits_of_mod hd hones]
  refine ⟨?_, fun level => ?_, fun n hn => ?_⟩
  · rw [hlevels, List.pairwise_reverse]
    exact setBits_sorted ones
  · rw [hlevels, List.mem_reverse]
    exact mem_setBits
  · obtain ⟨hindex, heven⟩ := index_of_mem_leftSiblings (by omega) stop.toNat_lt (List.mem_reverse.mp hn)
    refine ⟨heven, ?_, ?_⟩
    · rw [hindex]
      exact Nat.div_mul_le_self _ _
    · rw [show n.index.toNat + 2 = n.index.toNat + 1 + 1 from rfl, hindex]
      exact lt_succ_div_mul _ _

/-- The cover of an interval turns where its slopes say. On both sides of the turn it is the cover of
that part of the interval: right children on the way up to it, and left children on the way down. -/
theorem cover_turns_between_slopes {s : Span} (h : s.start ≤ s.stop) :
    ∃ slopes turn rising falling, s.slopes = .ok slopes ∧
      turn.toNat = s.start.toNat + slopes.rising.toNat ∧
      Span.cover ⟨s.start, turn⟩ = .ok rising ∧ Span.cover ⟨turn, s.stop⟩ = .ok falling ∧
      s.cover = .ok (rising ++ falling) ∧
      RisingPart s.start slopes.rising rising ∧ FallingPart s.stop slopes.falling falling := by
  rcases Span.origin_or_fork h with ⟨stop, rfl⟩ | ⟨hpos, d, hfork⟩
  · have hrise := Span.cover_from_origin 0
    have hfall := Span.cover_from_origin stop
    -- nothing rises from the first leaf, so the turn is there
    refine ⟨_, 0, [], _, Span.slopes_from_origin stop, rfl, hrise, hfall, hfall, ?_, ?_⟩
    · exact ⟨.nil, by simp [levelsOf], by simp⟩
    · exact fallingPart_leftSiblings (Nat.le_refl 64) (Nat.mod_eq_of_lt stop.toNat_lt).symm
  · obtain ⟨slopes, hslopes, hrise, hfall⟩ := Span.slopes_of_fork hpos hfork
    have hturn := Word.toNat_ofNat_cut s.stop d
    refine ⟨slopes, _, _, _, hslopes, ?_, Span.cover_to_turn hpos hfork hturn,
      Span.cover_from_turn hfork hturn, Span.cover_of_fork hpos hfork,
      risingPart_rightSiblings hpos hfork hrise,
      fallingPart_leftSiblings (hfork.level_lt s.stop.toNat_lt).le hfall⟩
    rw [hturn, hrise, ← hfork.turn, Nat.sub_add_cancel hpos]

/-- The cover of the leaves 3 to 20 turns at 16. -/
theorem cover_turns_between_slopes_three_to_twenty_one :
    (3 : Word) ≤ 21 ∧ Span.slopes ⟨3, 21⟩ = .ok ⟨13, 5⟩ ∧
      RisingPart 3 13 [⟨0, 3⟩, ⟨2, 1⟩, ⟨3, 1⟩] ∧ FallingPart 21 5 [⟨2, 4⟩, ⟨0, 20⟩] := by
  obtain ⟨slopes, turn, rising, falling, hslopes, hturn, hleft, hright, -, hrise, hfall⟩ :=
    cover_turns_between_slopes (s := ⟨3, 21⟩) (by decide)
  have hvalue : Span.slopes ⟨3, 21⟩ = .ok ⟨13, 5⟩ := rfl
  cases hvalue.symm.trans hslopes
  obtain rfl : turn = 16 := UInt64.toNat_inj.mp hturn
  have hrising : Span.cover ⟨3, 16⟩ = .ok [⟨0, 3⟩, ⟨2, 1⟩, ⟨3, 1⟩] := by decide +kernel
  have hfalling : Span.cover ⟨16, 21⟩ = .ok [⟨2, 4⟩, ⟨0, 20⟩] := by decide +kernel
  cases hrising.symm.trans hleft
  cases hfalling.symm.trans hright
  exact ⟨by decide, hvalue, hrise, hfall⟩

end MerkleLog
