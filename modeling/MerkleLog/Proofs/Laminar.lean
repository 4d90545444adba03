import MerkleLog.Proofs.Nesting

namespace MerkleLog

/-- Whether an interval lies in another. -/
def Span.Within (s t : Span) : Prop :=
  ∀ leaf, s.Holds leaf → t.Holds leaf

/-- Whether two intervals have no position in common. -/
def Span.Apart (s t : Span) : Prop :=
  ∀ leaf, ¬ (s.Holds leaf ∧ t.Holds leaf)

variable {m n : Node} {s t : Span} {x : Nat} {leaf : Word}

theorem Node.span?_isSome_iff :
    n.span?.isSome ↔ (n.index.toNat + 1) * 2 ^ n.level.toNat ≤ 2 ^ 64 - 1 := by
  constructor
  · intro h
    obtain ⟨s, hs⟩ := Option.isSome_iff_exists.mp h
    have hstop := (Node.span?_eq_some_iff.mp hs).2
    have hlt : s.stop.toNat < 2 ^ 64 := s.stop.toNat_lt
    omega
  · intro hfit
    obtain ⟨s, hs⟩ := Node.exists_span (n := n) (by omega)
    simp [Node.span?, hs, Except.toOption]

/-- On the path up from a leaf, the index of a node is that of any node below it, shifted by the levels
between the two. -/
theorem Node.OnPath.onPath_iff_shiftRight (hm : m.OnPath x) (hle : m.level.toNat ≤ n.level.toNat) :
    n.OnPath x ↔ m.index.toNat >>> (n.level.toNat - m.level.toNat) = n.index.toNat := by
  obtain ⟨k, hk⟩ := Nat.exists_eq_add_of_le hle
  unfold Node.OnPath at hm ⊢
  rw [← hm, hk, Nat.add_sub_cancel_left, Nat.shiftRight_eq_div_pow, Nat.div_div_eq_div_mul, ← pow_add]

theorem Node.within_of_level_le (hm : m.span? = some s) (hn : n.span? = some t)
    (hle : m.level.toNat ≤ n.level.toNat) (hs : s.Holds leaf) (ht : t.Holds leaf) : s.Within t := by
  intro other hother
  have hmpath := (Node.onPath_iff hm).mpr hs
  have hnpath := (Node.onPath_iff hn).mpr ht
  exact (Node.onPath_iff hn).mp
    (hmpath.of_level_le hnpath hle ((Node.onPath_iff hm).mpr hother))

/-- Two nodes that share a leaf are one above the other. -/
theorem Node.spans_apart_or_within (hm : m.span? = some s) (hn : n.span? = some t) :
    s.Apart t ∨ s.Within t ∨ t.Within s := by
  by_cases h : ∃ leaf, s.Holds leaf ∧ t.Holds leaf
  · obtain ⟨leaf, hs, ht⟩ := h
    rcases Nat.le_total m.level.toNat n.level.toNat with hle | hle
    · exact .inr (.inl (Node.within_of_level_le hm hn hle hs ht))
    · exact .inr (.inr (Node.within_of_level_le hn hm hle ht hs))
  · exact .inl fun leaf hboth => h ⟨leaf, hboth⟩

theorem Node.within_iff (hm : m.span? = some s) (hn : n.span? = some t) :
    s.Within t ↔ m.level ≤ n.level ∧
      m.index.toNat >>> (n.level.toNat - m.level.toNat) = n.index.toNat := by
  have hfirst := (Node.holds_start hm).onPath
  constructor
  · intro h
    have hle : m.level.toNat ≤ n.level.toNat := by
      apply Node.level_le_of_holds hm hn
      rintro leaf ⟨u, hu, hleaf⟩
      cases hm.symm.trans hu
      exact ⟨t, hn, h leaf hleaf⟩
    have hstart := (Node.onPath_iff hn).mpr (h _ ((Node.onPath_iff hm).mp hfirst))
    exact ⟨UInt8.le_iff_toNat_le.mpr hle, (hfirst.onPath_iff_shiftRight hle).mp hstart⟩
  · rintro ⟨hle, hshift⟩ leaf hleaf
    have hpath := (Node.onPath_iff hm).mpr hleaf
    exact (Node.onPath_iff hn).mp
      ((hpath.onPath_iff_shiftRight (UInt8.le_iff_toNat_le.mp hle)).mpr hshift)

theorem Node.eq_of_span?_eq (hm : m.span? = some s) (hn : n.span? = some s) : m = n := by
  apply Node.eq_of_holds_iff hm hn
  intro leaf
  unfold Node.Holds
  rw [hm, hn]

/-- A node has a span exactly when its leaves end within the words, and then both bounds are exact. Two
spans are apart, or one lies in the other: then the node of the smaller is not higher, and its index,
shifted by the levels between the two, is that of the other. Different nodes have different spans. -/
theorem Node.spans_exact_and_laminar :
    (∀ n : Node, (n.span?.isSome ↔ (n.index.toNat + 1) * 2 ^ n.level.toNat ≤ 2 ^ 64 - 1) ∧
      ∀ s, n.span? = some s ↔ s.start.toNat = n.index.toNat * 2 ^ n.level.toNat ∧
        s.stop.toNat = (n.index.toNat + 1) * 2 ^ n.level.toNat) ∧
    (∀ (m n : Node) (s t : Span), m.span? = some s → n.span? = some t →
      (s.Apart t ∨ s.Within t ∨ t.Within s) ∧ (s = t → m = n) ∧
        (t.Within s ↔ n.level ≤ m.level ∧
          n.index.toNat >>> (m.level.toNat - n.level.toNat) = m.index.toNat)) := by
  refine ⟨fun n => ⟨Node.span?_isSome_iff, fun s => Node.span?_eq_some_iff⟩, ?_⟩
  intro m n s t hm hn
  refine ⟨Node.spans_apart_or_within hm hn, ?_, Node.within_iff hn hm⟩
  rintro rfl
  exact Node.eq_of_span?_eq hm hn

/-- The last node of level 62 that has a span, and the last one of level 3 under it. -/
theorem Node.spans_exact_and_laminar_at_level_62 :
    let high : Node := ⟨62, 2⟩
    let low : Node := ⟨3, 0x17ffffffffffffff⟩
    let s : Span := ⟨0x8000000000000000, 0xc000000000000000⟩
    let t : Span := ⟨0xbffffffffffffff8, 0xc000000000000000⟩
    high.span? = some s ∧ low.span? = some t ∧ t.Within s ∧ ¬ s.Within t ∧
      ¬ (Node.mk 62 3).span?.isSome := by
  intro high low s t
  obtain ⟨hexact, hlaminar⟩ := Node.spans_exact_and_laminar
  have hhigh : high.span? = some s := (hexact high).2 s |>.mpr (by decide)
  have hlow : low.span? = some t := (hexact low).2 t |>.mpr (by decide)
  refine ⟨hhigh, hlow, ?_, ?_, ?_⟩
  · exact (hlaminar high low s t hhigh hlow).2.2.mpr (by decide)
  · exact mt (hlaminar low high t s hlow hhigh).2.2.mp (by decide)
  · exact mt (hexact ⟨62, 3⟩).1.mp (by decide)

end MerkleLog
