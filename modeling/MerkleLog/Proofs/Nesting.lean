import MerkleLog.Proofs.Digits
import MerkleLog.Proofs.NodeSpan

namespace MerkleLog

/-- Whether a position is in an interval. -/
def Span.Holds (s : Span) (leaf : Word) : Prop :=
  s.start ≤ leaf ∧ leaf < s.stop

/-- Whether a leaf is under a node. No leaf is under a node whose span has a bound that is no word. -/
def Node.Holds (n : Node) (leaf : Word) : Prop :=
  ∃ s, n.span? = some s ∧ s.Holds leaf

/-- Whether the path up from a leaf goes through a node. -/
def Node.OnPath (n : Node) (leaf : Nat) : Prop :=
  leaf / 2 ^ n.level.toNat = n.index.toNat

/-- Whether the path up from a leaf goes through the parent of a node. -/
def Node.ParentOnPath (n : Node) (leaf : Nat) : Prop :=
  leaf / 2 ^ (n.level.toNat + 1) = n.index.toNat / 2

variable {m n : Node} {s t : Span} {x y : Nat} {leaf : Word}

theorem Node.span?_eq_some_iff :
    n.span? = some s ↔ s.start.toNat = n.index.toNat * 2 ^ n.level.toNat ∧
      s.stop.toNat = (n.index.toNat + 1) * 2 ^ n.level.toNat := by
  rw [← Node.span_eq_ok_iff, Node.span?]
  cases n.span with
  | error e => simp [Except.toOption]
  | ok t => simp [Except.toOption]

theorem Node.span?_ofNat {level index : Nat} (h : (index + 1) * 2 ^ level < 2 ^ 64) :
    (Node.ofNat level index).span? =
      some ⟨.ofNat (index * 2 ^ level), .ofNat ((index + 1) * 2 ^ level)⟩ := by
  have hlevel := level_lt_of_stop_lt h
  have hindex := Nat.le_mul_of_pos_right (index + 1) (Nat.two_pow_pos level)
  have hstart : index * 2 ^ level ≤ (index + 1) * 2 ^ level := Nat.mul_le_mul_right _ (Nat.le_succ _)
  rw [Node.span?_eq_some_iff, Node.ofNat_level (by omega), Node.ofNat_index (by omega)]
  exact ⟨UInt64.toNat_ofNat_of_lt' (Nat.lt_of_le_of_lt hstart h), UInt64.toNat_ofNat_of_lt' h⟩

theorem Node.stop_eq_start_add (h : n.span? = some s) :
    s.stop.toNat = s.start.toNat + 2 ^ n.level.toNat := by
  obtain ⟨hstart, hstop⟩ := Node.span?_eq_some_iff.mp h
  rw [hstart, hstop, Nat.add_one_mul]

theorem Node.onPath_iff (h : n.span? = some s) :
    n.OnPath x ↔ s.start.toNat ≤ x ∧ x < s.stop.toNat := by
  obtain ⟨hstart, hstop⟩ := Node.span?_eq_some_iff.mp h
  rw [hstart, hstop, Node.OnPath, ← Nat.le_div_iff_mul_le (Nat.two_pow_pos _),
    ← Nat.div_lt_iff_lt_mul (Nat.two_pow_pos _)]
  omega

theorem Node.holds_iff (h : n.span? = some s) : n.Holds leaf ↔ n.OnPath leaf.toNat := by
  rw [Node.onPath_iff h, Node.Holds]
  constructor
  · rintro ⟨t, ht, hleaf⟩
    cases h.symm.trans ht
    exact hleaf
  · intro hleaf
    exact ⟨s, h, hleaf⟩

theorem Node.Holds.onPath (h : n.Holds leaf) : n.OnPath leaf.toNat := by
  obtain ⟨s, hs, hleaf⟩ := h
  exact (Node.onPath_iff hs).mpr hleaf

theorem Node.holds_start (h : n.span? = some s) : n.Holds s.start := by
  have hstop := Node.stop_eq_start_add h
  have hpos := Nat.two_pow_pos n.level.toNat
  rw [Node.holds_iff h, Node.onPath_iff h]
  omega

/-- Of two nodes on the path up from a leaf, the higher one is on every path that goes through the
lower one. -/
theorem Node.OnPath.of_level_le (hm : m.OnPath x) (hn : n.OnPath x)
    (hle : m.level.toNat ≤ n.level.toNat) (hy : m.OnPath y) : n.OnPath y :=
  (div_two_pow_congr hle (hy.trans hm.symm)).trans hn

theorem Node.OnPath.of_level_lt (hm : m.OnPath x) (hn : n.OnPath x)
    (hlt : m.level.toNat < n.level.toNat) (hy : m.ParentOnPath y) : n.OnPath y := by
  have hparent : x / 2 ^ (m.level.toNat + 1) = m.index.toNat / 2 := by
    rw [div_two_pow_succ, hm]
  exact (div_two_pow_congr hlt (hy.trans hparent.symm)).trans hn

theorem Node.OnPath.eq_of_level_eq (hm : m.OnPath x) (hn : n.OnPath x) (h : m.level = n.level) :
    m = n := by
  obtain ⟨level, index⟩ := m
  obtain ⟨level', index'⟩ := n
  cases h
  have hindex : index = index' := UInt64.toNat_inj.mp (hm.symm.trans hn)
  rw [hindex]

theorem Node.holds_last (h : n.span? = some s) :
    n.Holds (s.stop - 1) ∧ (s.stop - 1).toNat + 1 = s.stop.toNat := by
  have hstop := Node.stop_eq_start_add h
  have hpos := Nat.two_pow_pos n.level.toNat
  have hlast := Word.toNat_sub_one (show 0 < s.stop.toNat by omega)
  rw [Node.holds_iff h, Node.onPath_iff h]
  omega

theorem Node.level_le_of_holds (hm : m.span? = some s) (hn : n.span? = some t)
    (h : ∀ leaf, m.Holds leaf → n.Holds leaf) : m.level.toNat ≤ n.level.toNat := by
  have hmstop := Node.stop_eq_start_add hm
  have hnstop := Node.stop_eq_start_add hn
  obtain ⟨hheld, hlast⟩ := Node.holds_last hm
  have hfirst := (Node.onPath_iff hn).mp (h _ (Node.holds_start hm)).onPath
  have hfinal := (Node.onPath_iff hn).mp (h _ hheld).onPath
  exact (Nat.pow_le_pow_iff_right (by decide)).mp (by omega : 2 ^ m.level.toNat ≤ 2 ^ n.level.toNat)

theorem Node.eq_of_holds_iff (hm : m.span? = some s) (hn : n.span? = some t)
    (h : ∀ leaf, m.Holds leaf ↔ n.Holds leaf) : m = n := by
  have hle := Node.level_le_of_holds hm hn fun leaf => (h leaf).mp
  have hge := Node.level_le_of_holds hn hm fun leaf => (h leaf).mpr
  have hfirst := Node.holds_start hm
  exact hfirst.onPath.eq_of_level_eq ((h _).mp hfirst).onPath (UInt8.toNat_inj.mp (by omega))

end MerkleLog
