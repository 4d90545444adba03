import Mathlib.Data.List.Pairwise
import MerkleLog.Proofs.Nesting

namespace MerkleLog

/-- Each node has a span, no leaf is under two of the nodes, and under all of them together are just
the given leaves. -/
structure Tiles (nodes : List Node) (leaves : Word → Prop) : Prop where
  fits : ∀ n ∈ nodes, ∃ s, n.span? = some s
  disjoint : nodes.Pairwise fun m n => ∀ leaf, ¬ (m.Holds leaf ∧ n.Holds leaf)
  holds_iff : ∀ leaf, (∃ n ∈ nodes, n.Holds leaf) ↔ leaves leaf

/-- Where a row of nodes ends that begins at a position, if each of them begins where the one before
it ends. -/
def rowStop? (start : Word) : List Node → Option Word
  | [] => some start
  | n :: row => do
    let s ← n.span?
    if s.start = start then rowStop? s.stop row else none

variable {nodes others : List Node} {leaves leaves' : Word → Prop} {m n : Node}
  {start turn stop : Word}

theorem Tiles.congr (h : Tiles nodes leaves) (heq : ∀ leaf, leaves leaf ↔ leaves' leaf) :
    Tiles nodes leaves' :=
  ⟨h.fits, h.disjoint, fun leaf => (h.holds_iff leaf).trans (heq leaf)⟩

theorem Tiles.perm (h : Tiles nodes leaves) (hperm : nodes.Perm others) : Tiles others leaves := by
  refine ⟨fun n hn => h.fits n (hperm.mem_iff.mpr hn), ?_, fun leaf => ?_⟩
  · refine h.disjoint.perm hperm ?_
    intro m n hmn leaf hboth
    exact hmn leaf hboth.symm
  · simp only [← h.holds_iff leaf, hperm.mem_iff]

theorem Tiles.append (h : Tiles nodes leaves) (h' : Tiles others leaves')
    (hapart : ∀ leaf, ¬ (leaves leaf ∧ leaves' leaf)) :
    Tiles (nodes ++ others) fun leaf => leaves leaf ∨ leaves' leaf := by
  refine ⟨?_, ?_, ?_⟩
  · intro n hn
    rcases List.mem_append.mp hn with hn | hn
    · exact h.fits n hn
    · exact h'.fits n hn
  · refine List.pairwise_append.mpr ⟨h.disjoint, h'.disjoint, ?_⟩
    intro m hm n hn leaf hboth
    exact hapart leaf ⟨(h.holds_iff leaf).mp ⟨m, hm, hboth.1⟩, (h'.holds_iff leaf).mp ⟨n, hn, hboth.2⟩⟩
  · intro leaf
    simp only [← h.holds_iff leaf, ← h'.holds_iff leaf, List.mem_append, or_and_right, exists_or]

/-- Tilings of two intervals, the second of which begins where the first ends or later. -/
theorem Tiles.append_after {before after : Span} (h : Tiles nodes before.Holds)
    (h' : Tiles others after.Holds) (hle : before.stop ≤ after.start) :
    Tiles (nodes ++ others) fun leaf => before.Holds leaf ∨ after.Holds leaf := by
  refine h.append h' ?_
  rintro leaf ⟨hleft, hright⟩
  have hlt := UInt64.lt_of_lt_of_le hleft.2 (UInt64.le_trans hle hright.1)
  exact UInt64.lt_irrefl leaf hlt

theorem tiles_nil (h : ∀ leaf, ¬ leaves leaf) : Tiles [] leaves :=
  ⟨by simp, .nil, by simp [h]⟩

theorem tiles_singleton {s : Span} (h : n.span? = some s) : Tiles [n] s.Holds := by
  refine ⟨by simp [h], by simp, ?_⟩
  simp [Node.Holds, h]

theorem Tiles.eq_of_holds (h : Tiles nodes leaves) (hm : m ∈ nodes) (hn : n ∈ nodes) {leaf : Word}
    (hml : m.Holds leaf) (hnl : n.Holds leaf) : m = n := by
  by_contra hne
  have hsymm : Std.Symm fun m n : Node => ∀ leaf, ¬ (m.Holds leaf ∧ n.Holds leaf) :=
    ⟨fun _ _ h leaf hboth => h leaf hboth.symm⟩
  exact h.disjoint.forall hm hn hne leaf ⟨hml, hnl⟩

theorem Tiles.exists_span_le (h : Tiles nodes leaves) {size : Word}
    (hsize : ∀ leaf, leaves leaf → leaf < size) (hn : n ∈ nodes) :
    ∃ s, n.span? = some s ∧ s.stop ≤ size := by
  obtain ⟨s, hs⟩ := h.fits n hn
  obtain ⟨hheld, hlast⟩ := Node.holds_last hs
  have hlt := UInt64.lt_iff_toNat_lt.mp (hsize _ ((h.holds_iff _).mp ⟨n, hn, hheld⟩))
  refine ⟨s, hs, UInt64.le_iff_toNat_le.mpr ?_⟩
  omega

theorem Tiles.nodup (h : Tiles nodes leaves) : nodes.Nodup := by
  refine h.disjoint.imp_of_mem ?_
  rintro m n hm hn hapart rfl
  obtain ⟨s, hs⟩ := h.fits m hm
  exact hapart s.start ⟨Node.holds_start hs, Node.holds_start hs⟩

theorem rowStop?_append (h : rowStop? start nodes = some turn) :
    rowStop? start (nodes ++ others) = rowStop? turn others := by
  induction nodes generalizing start with
  | nil =>
    cases h
    rfl
  | cons n row ih =>
    obtain ⟨s, hs, hrest⟩ := Option.bind_eq_some_iff.mp h
    split at hrest
    next heq => simp [rowStop?, hs, heq, ih hrest]
    next => simp at hrest

theorem rowStop?_cons_eq_some_iff :
    rowStop? start (n :: nodes) = some stop ↔
      ∃ turn, n.span? = some ⟨start, turn⟩ ∧ rowStop? turn nodes = some stop := by
  constructor
  · intro h
    obtain ⟨s, hs, hrest⟩ := Option.bind_eq_some_iff.mp h
    split at hrest
    next heq => exact ⟨s.stop, heq ▸ hs, hrest⟩
    next => simp at hrest
  · rintro ⟨turn, hs, h⟩
    simp [rowStop?, hs, h]

theorem Node.span?_start_lt (h : n.span? = some ⟨start, turn⟩) : start < turn := by
  have hstop := Node.stop_eq_start_add h
  have hpos := Nat.two_pow_pos n.level.toNat
  rw [UInt64.lt_iff_toNat_lt]
  exact hstop ▸ Nat.lt_add_of_pos_right hpos

theorem start_le_of_rowStop? (h : rowStop? start nodes = some stop) : start ≤ stop := by
  induction nodes generalizing start with
  | nil =>
    cases h
    exact UInt64.le_refl _
  | cons n row ih =>
    obtain ⟨turn, hs, h⟩ := rowStop?_cons_eq_some_iff.mp h
    exact UInt64.le_trans (UInt64.le_of_lt (Node.span?_start_lt hs)) (ih h)

theorem rowStop?_eq_nil_iff (h : rowStop? start nodes = some stop) : nodes = [] ↔ start = stop := by
  cases nodes with
  | nil =>
    cases h
    simp
  | cons n row =>
    obtain ⟨turn, hs, h⟩ := rowStop?_cons_eq_some_iff.mp h
    have hlt := UInt64.lt_of_lt_of_le (Node.span?_start_lt hs) (start_le_of_rowStop? h)
    simp [UInt64.ne_of_lt hlt]

/-- A row of nodes tiles the interval from where it begins to where it ends. -/
theorem tiles_of_rowStop? (h : rowStop? start nodes = some stop) :
    Tiles nodes (Span.Holds ⟨start, stop⟩) := by
  induction nodes generalizing start with
  | nil =>
    cases h
    apply tiles_nil
    intro leaf hleaf
    exact absurd (UInt64.lt_of_le_of_lt hleaf.1 hleaf.2) (UInt64.lt_irrefl _)
  | cons n row ih =>
    obtain ⟨turn, hs, h⟩ := rowStop?_cons_eq_some_iff.mp h
    have hle := start_le_of_rowStop? h
    have hlt := Node.span?_start_lt hs
    refine ((tiles_singleton hs).append_after (ih h) (UInt64.le_refl _)).congr fun leaf => ?_
    simp only [Span.Holds, UInt64.le_iff_toNat_le, UInt64.lt_iff_toNat_lt] at hle hlt ⊢
    omega

end MerkleLog
