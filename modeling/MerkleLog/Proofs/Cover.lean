import MerkleLog.Proofs.Fork
import MerkleLog.Proofs.Row

namespace MerkleLog

theorem ForkAt.level_lt {a e d : Nat} (h : ForkAt a e d) (he : e < 2 ^ 64) : d < 64 := by
  by_contra hd
  have hle : 2 ^ 64 ≤ 2 ^ d := Nat.pow_le_pow_right (by decide) (by omega)
  have hnext := h.2
  rw [Nat.div_eq_of_lt (by omega)] at hnext
  exact Nat.succ_ne_zero _ hnext.symm

theorem Span.origin_or_fork {s : Span} (h : s.start ≤ s.stop) :
    (∃ stop, s = ⟨0, stop⟩) ∨
      0 < s.start.toNat ∧ ∃ d, ForkAt (s.start.toNat - 1) s.stop.toNat d := by
  obtain ⟨start, stop⟩ := s
  by_cases hzero : start = 0
  · exact .inl ⟨stop, hzero ▸ rfl⟩
  · have hpos : 0 < start.toNat := Nat.pos_of_ne_zero (Word.toNat_ne_zero hzero)
    exact .inr ⟨hpos, _, forkAt_log2 (Nat.sub_one_lt_of_le hpos (UInt64.le_iff_toNat_le.mp h))⟩

theorem Word.mask_eq {place : Nat} (h : place < 64) :
    Word.mask place = .ok (UInt64.ofNat (2 ^ place - 1)) := by
  have hlt : 2 ^ place < UInt64.size := Nat.pow_lt_pow_right (by decide) h
  have hpos := Nat.two_pow_pos place
  have hbit : Word.bit place = .ok (UInt64.ofNat (2 ^ place)) := by
    refine Word.shiftUp_eq_ok_iff.mpr ⟨h, ?_⟩
    rw [UInt64.toNat_ofNat_of_lt' hlt]
    exact (Nat.one_mul _).symm
  have hsub : Word.sub (UInt64.ofNat (2 ^ place)) 1 = .ok (UInt64.ofNat (2 ^ place - 1)) := by
    rw [Word.sub_eq_ok_iff, UInt64.toNat_ofNat_of_lt' hlt, UInt64.toNat_ofNat_of_lt' (by omega)]
    exact Nat.sub_add_cancel hpos
  rw [Word.mask, hbit]
  exact hsub

/-- The sizes of the two parts of a cover, by the level below which the paths to the leaf before the
interval and to the leaf at its end part. -/
theorem Span.slopes_of_fork {s : Span} {d : Nat} (hpos : 0 < s.start.toNat)
    (h : ForkAt (s.start.toNat - 1) s.stop.toNat d) :
    ∃ slopes, s.slopes = .ok slopes ∧
      slopes.rising.toNat = 2 ^ d - ((s.start.toNat - 1) % 2 ^ d + 1) ∧
      slopes.falling.toNat = s.stop.toNat % 2 ^ d := by
  have hd := h.level_lt s.stop.toNat_lt
  have hd2 : 2 ^ d < UInt64.size := Nat.pow_lt_pow_right (by decide) hd
  have hlt := h.lt
  have hstop : ¬ s.stop < s.start := by
    rw [UInt64.lt_iff_toNat_lt]
    omega
  have hstart : s.start ≠ 0 := by
    intro hz
    rw [hz] at hpos
    exact absurd hpos (by decide)
  have hbefore := Word.toNat_sub_one hpos
  have hhigh : Word.highestBit ((s.start - 1) ^^^ s.stop) = .ok d := by
    rw [Word.highestBit_eq_ok_iff, UInt64.toNat_xor, hbefore]
    refine ⟨?_, h.log2_eq⟩
    intro hz
    have heq := UInt64.xor_eq_zero_iff.mp hz
    rw [← hbefore, heq] at hlt
    omega
  have hmask : (UInt64.ofNat (2 ^ d - 1)).toNat = 2 ^ d - 1 :=
    UInt64.toNat_ofNat_of_lt' (Nat.lt_of_le_of_lt (Nat.sub_le _ _) hd2)
  refine ⟨⟨~~~(s.start - 1) &&& .ofNat (2 ^ d - 1), s.stop &&& .ofNat (2 ^ d - 1)⟩, ?_, ?_, ?_⟩
  · rw [Span.slopes, if_neg hstop, if_neg hstart, Word.sub_one_eq hpos]
    simp only [bind, Except.bind, hhigh, Word.mask_eq hd, pure, Except.pure]
  · have hnot : (~~~(s.start - 1)).toNat = 2 ^ 64 - (s.start.toNat - 1 + 1) := by
      rw [UInt64.toNat_not, hbefore]
      change 2 ^ 64 - 1 - (s.start.toNat - 1) = _
      omega
    have hlt64 : s.start.toNat - 1 < 2 ^ 64 := Nat.lt_of_le_of_lt (Nat.sub_le _ _) s.start.toNat_lt
    apply Nat.eq_of_testBit_eq
    intro i
    rw [UInt64.toNat_and, hmask, Nat.testBit_and, hnot, Nat.testBit_two_pow_sub_succ hlt64,
      Nat.testBit_two_pow_sub_one,
      Nat.testBit_two_pow_sub_succ (Nat.mod_lt _ (Nat.two_pow_pos d)), Nat.testBit_mod_two_pow]
    by_cases hi : i < d
    · simp [hi, show i < 64 by omega]
    · simp [hi]
  · rw [UInt64.toNat_and, hmask, Nat.and_two_pow_sub_one_eq_mod]

theorem setBits_eq {w : UInt64} {d : Nat} {p : Nat → Bool} (h : d ≤ 64)
    (hw : ∀ i, w.toNat.testBit i = (decide (i < d) && p i)) :
    setBits w = (List.range' 0 d).filter p := by
  have hlow : (List.range' 0 d).filter w.toNat.testBit = (List.range' 0 d).filter p := by
    apply List.filter_congr
    intro i hi
    rw [List.mem_range'_1] at hi
    simp [hw, show i < d by omega]
  have hhigh : (List.range' d (64 - d)).filter w.toNat.testBit = [] := by
    apply List.filter_eq_nil_iff.mpr
    intro i hi
    rw [List.mem_range'_1] at hi
    simp [hw, show ¬ i < d by omega]
  have hsplit : List.range 64 = List.range' 0 d ++ List.range' d (64 - d) := by
    have happend := List.range'_append_1 (s := 0) (m := d) (n := 64 - d)
    rw [Nat.zero_add, Nat.add_sub_cancel' h] at happend
    rw [happend, List.range_eq_range']
  rw [setBits, hsplit, List.filter_append, hlow, hhigh, List.append_nil]

theorem setBits_of_mod {w : UInt64} {n d : Nat} (h : d ≤ 64) (hw : w.toNat = n % 2 ^ d) :
    setBits w = (List.range' 0 d).filter n.testBit := by
  apply setBits_eq h
  intro i
  rw [hw, Nat.testBit_mod_two_pow]

theorem setBits_of_mod_complement {w : UInt64} {n d : Nat} (h : d ≤ 64)
    (hw : w.toNat = 2 ^ d - (n % 2 ^ d + 1)) :
    setBits w = (List.range' 0 d).filter fun i => !n.testBit i := by
  apply setBits_eq h
  intro i
  rw [hw, Nat.testBit_two_pow_sub_succ (Nat.mod_lt _ (Nat.two_pow_pos d)), Nat.testBit_mod_two_pow]
  by_cases hi : i < d
  · simp [hi]
  · simp [hi]

theorem Word.toNat_ofNat_cut (w : Word) (place : Nat) :
    (UInt64.ofNat (w.toNat / 2 ^ place * 2 ^ place)).toNat = w.toNat / 2 ^ place * 2 ^ place :=
  UInt64.toNat_ofNat_of_lt' (Nat.lt_of_le_of_lt (Nat.div_mul_le_self _ _) w.toNat_lt)

/-- A cover that does not begin at the first leaf: right siblings along the path to the leaf before
it, and then left siblings along the path to its end. -/
theorem Span.cover_of_fork {s : Span} {d : Nat} (hpos : 0 < s.start.toNat)
    (h : ForkAt (s.start.toNat - 1) s.stop.toNat d) :
    s.cover = .ok (rightSiblings (s.start.toNat - 1) 0 d ++ (leftSiblings s.stop.toNat 0 d).reverse) := by
  obtain ⟨slopes, hslopes, hrise, hfall⟩ := Span.slopes_of_fork hpos h
  have hd := h.level_lt s.stop.toNat_lt
  have hstop := s.stop.toNat_lt
  have hdown := setBits_of_mod hd.le hfall
  have hup := setBits_of_mod_complement hd.le hrise
  have hturn := Word.toNat_ofNat_cut s.stop d
  have hleft := layRow_leftSiblings hd.le hturn hstop
  have hfirst : s.start.toNat = ((s.start.toNat - 1) / 2 ^ 0 + 1) * 2 ^ 0 := by
    rw [pow_zero, Nat.div_one, Nat.mul_one, Nat.sub_add_cancel hpos]
  have hright := layRow_rightSiblings (by omega : 0 + d ≤ 64) hfirst
    (by rw [hturn, Nat.zero_add, h.2])
  rw [Span.cover, hslopes]
  simp only [bind, Except.bind, layRising_eq, layFalling_eq, hup, hdown, hright, hleft,
    UInt64.ofNat_toNat, if_true, pure, Except.pure]

theorem Span.cover_to_turn {start stop turn : Word} {d : Nat} (hpos : 0 < start.toNat)
    (h : ForkAt (start.toNat - 1) stop.toNat d) (ht : turn.toNat = stop.toNat / 2 ^ d * 2 ^ d) :
    Span.cover ⟨start, turn⟩ = .ok (rightSiblings (start.toNat - 1) 0 d) := by
  have hfork : ForkAt (start.toNat - 1) turn.toNat d := ht ▸ h.to_turn
  have hnil : leftSiblings turn.toNat 0 d = [] := by
    apply leftSiblings_eq_nil
    intro level _ hl
    rw [ht]
    exact firstLeaf_testBit (by omega)
  rw [Span.cover_of_fork (s := ⟨start, turn⟩) hpos hfork, hnil, List.reverse_nil, List.append_nil]

theorem Span.cover_from_turn {a : Nat} {stop turn : Word} {d : Nat} (h : ForkAt a stop.toNat d)
    (ht : turn.toNat = stop.toNat / 2 ^ d * 2 ^ d) :
    Span.cover ⟨turn, stop⟩ = .ok (leftSiblings stop.toNat 0 d).reverse := by
  have hfork : ForkAt (turn.toNat - 1) stop.toNat d := ht ▸ h.from_turn
  have hpos : 0 < turn.toNat := by
    rw [ht, h.2]
    exact Nat.mul_pos (Nat.succ_pos _) (Nat.two_pow_pos d)
  have hnil : rightSiblings (turn.toNat - 1) 0 d = [] := by
    apply rightSiblings_eq_nil
    intro level _ hl
    rw [ht, h.2]
    exact lastLeaf_testBit (by omega)
  rw [Span.cover_of_fork (s := ⟨turn, stop⟩) hpos hfork, hnil, List.nil_append]

theorem Span.slopes_from_origin (stop : Word) : Span.slopes ⟨0, stop⟩ = .ok ⟨0, stop⟩ := by
  have hle : ¬ stop < 0 := UInt64.not_lt.mpr UInt64.zero_le
  rw [Span.slopes, if_neg hle, if_pos rfl]

theorem Span.exists_slopes {s : Span} (h : s.start ≤ s.stop) : ∃ slopes, s.slopes = .ok slopes := by
  rcases Span.origin_or_fork h with ⟨stop, rfl⟩ | ⟨hpos, d, hfork⟩
  · exact ⟨_, Span.slopes_from_origin stop⟩
  · obtain ⟨slopes, hslopes, -, -⟩ := Span.slopes_of_fork hpos hfork
    exact ⟨slopes, hslopes⟩

theorem Span.slopes_sum {s : Span} {slopes : Slopes} (h : s.start ≤ s.stop)
    (hslopes : s.slopes = .ok slopes) :
    s.start.toNat + slopes.rising.toNat + slopes.falling.toNat = s.stop.toNat := by
  rcases Span.origin_or_fork h with ⟨stop, rfl⟩ | ⟨hpos, d, hfork⟩
  · cases (Span.slopes_from_origin stop).symm.trans hslopes
    exact Nat.zero_add _
  · obtain ⟨slopes', hslopes', hrise, hfall⟩ := Span.slopes_of_fork hpos hfork
    cases hslopes'.symm.trans hslopes
    have hturn := hfork.turn
    rw [Nat.sub_add_cancel hpos] at hturn
    rw [hrise, hfall, hturn, Nat.mul_comm]
    exact Nat.div_add_mod _ _

theorem Span.cover_from_origin (stop : Word) :
    Span.cover ⟨0, stop⟩ = .ok (leftSiblings stop.toNat 0 64).reverse := by
  have hstop := stop.toNat_lt
  have hrow : layRow 0 _ = _ := layRow_leftSiblings (Nat.le_refl 64)
    (by rw [Nat.div_eq_of_lt hstop]; rfl) hstop
  have hall : setBits stop = (List.range' 0 64).filter stop.toNat.testBit := by
    rw [setBits, List.range_eq_range']
  rw [Span.cover, Span.slopes_from_origin]
  simp only [bind, Except.bind, layRising_eq, layFalling_eq, setBits_zero, layRow, hall, hrow,
    List.nil_append, UInt64.ofNat_toNat, if_true, pure, Except.pure]

/-- An interval in which nothing rises begins where the path to its end is cut off at some level. Its cover
is what hangs to the left off that path below. -/
theorem Span.cover_of_rising_eq_zero {s : Span} {slopes : Slopes} (h : s.start ≤ s.stop)
    (hslopes : s.slopes = .ok slopes) (hzero : slopes.rising = 0) :
    ∃ d ≤ 64, s.start.toNat = s.stop.toNat / 2 ^ d * 2 ^ d ∧
      s.cover = .ok (leftSiblings s.stop.toNat 0 d).reverse := by
  rcases Span.origin_or_fork h with ⟨stop, rfl⟩ | ⟨hpos, d, hfork⟩
  · refine ⟨64, Nat.le_refl 64, ?_, Span.cover_from_origin stop⟩
    rw [Nat.div_eq_of_lt stop.toNat_lt]
    rfl
  · obtain ⟨slopes', hslopes', hrise, -⟩ := Span.slopes_of_fork hpos hfork
    cases hslopes.symm.trans hslopes'
    have hturn : s.start.toNat = s.stop.toNat / 2 ^ d * 2 ^ d := by
      rw [← hfork.turn, ← hrise, hzero, Nat.sub_add_cancel hpos]
      rfl
    exact ⟨d, (hfork.level_lt s.stop.toNat_lt).le, hturn, Span.cover_from_turn hfork hturn⟩

end MerkleLog
