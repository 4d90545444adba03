import MerkleLog.Node
import MerkleLog.Proofs.WordExact

namespace MerkleLog

theorem bind_eq_ok_iff {ε α β : Type} {x : Except ε α} {f : α → Except ε β} {b : β} :
    (x >>= f) = .ok b ↔ ∃ a, x = .ok a ∧ f a = .ok b := by
  cases x with
  | error e => simp [bind, Except.bind]
  | ok a => simp [bind, Except.bind]

/-- The node with a level below 256 and an index below 2 to the power of 64. -/
def Node.ofNat (level index : Nat) : Node :=
  ⟨UInt8.ofNat level, UInt64.ofNat index⟩

theorem Node.ofNat_level {level index : Nat} (h : level < 256) :
    (Node.ofNat level index).level.toNat = level :=
  UInt8.toNat_ofNat_of_lt' h

theorem Node.ofNat_index {level index : Nat} (h : index < 2 ^ 64) :
    (Node.ofNat level index).index.toNat = index :=
  UInt64.toNat_ofNat_of_lt' h

theorem Node.above_eq {position : Word} {level : Nat} (h : level < 64) :
    Node.above position level = .ok (Node.ofNat level (position.toNat / 2 ^ level)) := by
  have hlt : position.toNat / 2 ^ level < UInt64.size :=
    Nat.lt_of_le_of_lt (Nat.div_le_self _ _) position.toNat_lt
  have hdown : Word.shiftDown position level = .ok (UInt64.ofNat (position.toNat / 2 ^ level)) :=
    Word.shiftDown_eq_ok_iff.mpr ⟨h, UInt64.toNat_ofNat_of_lt' hlt⟩
  have hbyte : level < UInt8.size := Nat.lt_trans h (by decide)
  rw [Node.above, if_pos hbyte, hdown]
  rfl

theorem Node.level_of_above {position : Word} {level : Nat} {n : Node}
    (h : Node.above position level = .ok n) : n.level.toNat = level := by
  unfold Node.above at h
  split at h
  next hl =>
    obtain ⟨index, -, h⟩ := bind_eq_ok_iff.mp h
    cases h
    exact UInt8.toNat_ofNat_of_lt' hl
  next => cases h

theorem level_lt_of_stop_lt {level index : Nat} (h : (index + 1) * 2 ^ level < 2 ^ 64) : level < 64 := by
  have hle := Nat.le_mul_of_pos_left (2 ^ level) (Nat.succ_pos index)
  exact (Nat.pow_lt_pow_iff_right (by decide)).mp (Nat.lt_of_le_of_lt hle h)

theorem Node.span_eq_ok_iff {n : Node} {s : Span} :
    n.span = .ok s ↔ s.start.toNat = n.index.toNat * 2 ^ n.level.toNat ∧
      s.stop.toNat = (n.index.toNat + 1) * 2 ^ n.level.toNat := by
  constructor
  · intro h
    obtain ⟨start, hstart, h⟩ := bind_eq_ok_iff.mp h
    obtain ⟨next, hnext, h⟩ := bind_eq_ok_iff.mp h
    obtain ⟨stop, hstop, h⟩ := bind_eq_ok_iff.mp h
    cases h
    have hn : next.toNat = n.index.toNat + 1 := Word.add_eq_ok_iff.mp hnext
    rw [← hn]
    exact ⟨(Word.shiftUp_eq_ok_iff.mp hstart).2, (Word.shiftUp_eq_ok_iff.mp hstop).2⟩
  · rintro ⟨hstart, hstop⟩
    have hpos := Nat.two_pow_pos n.level.toNat
    have hfit : (n.index.toNat + 1) * 2 ^ n.level.toNat < 2 ^ 64 := hstop ▸ s.stop.toNat_lt
    have hlevel := level_lt_of_stop_lt hfit
    have hindex : n.index.toNat + 1 < UInt64.size :=
      Nat.lt_of_le_of_lt (Nat.le_mul_of_pos_right _ hpos) hfit
    have hnext : Word.add n.index 1 = .ok (.ofNat (n.index.toNat + 1)) := by
      rw [Word.add_eq_ok_iff, UInt64.toNat_ofNat_of_lt' hindex]
      rfl
    have hlow : Word.shiftUp n.index n.level.toNat = .ok s.start :=
      Word.shiftUp_eq_ok_iff.mpr ⟨hlevel, hstart⟩
    have hhigh : Word.shiftUp (.ofNat (n.index.toNat + 1)) n.level.toNat = .ok s.stop := by
      rw [Word.shiftUp_eq_ok_iff, UInt64.toNat_ofNat_of_lt' hindex]
      exact ⟨hlevel, hstop⟩
    rw [Node.span, hlow, hnext]
    simp only [bind, Except.bind, hhigh, pure, Except.pure]

theorem Node.exists_span {n : Node} (h : (n.index.toNat + 1) * 2 ^ n.level.toNat < 2 ^ 64) :
    ∃ s, n.span = .ok s := by
  have hle : n.index.toNat * 2 ^ n.level.toNat ≤ (n.index.toNat + 1) * 2 ^ n.level.toNat :=
    Nat.mul_le_mul_right _ (Nat.le_succ _)
  refine ⟨⟨.ofNat (n.index.toNat * 2 ^ n.level.toNat),
    .ofNat ((n.index.toNat + 1) * 2 ^ n.level.toNat)⟩, Node.span_eq_ok_iff.mpr ⟨?_, ?_⟩⟩
  · exact UInt64.toNat_ofNat_of_lt' (Nat.lt_of_le_of_lt hle h)
  · exact UInt64.toNat_ofNat_of_lt' h

end MerkleLog
