import MerkleLog.Proofs.Cover

namespace MerkleLog

/-- The largest power of two that divides a position of an interval, its end included, is that of the
given level. -/
structure Span.HasPeak (s : Span) (level : Nat) : Prop where
  reached : ∃ p, s.start.toNat ≤ p ∧ p ≤ s.stop.toNat ∧ 2 ^ level ∣ p
  highest : ∀ p k, s.start.toNat ≤ p → p ≤ s.stop.toNat → 2 ^ k ∣ p → k ≤ level

/-- Two parts of an interval that meet at its peak. From the first leaf on there is no first part, since
every power of two divides zero. -/
structure Span.AlignedSplit (s : Span) (rising falling : Nat) : Prop where
  sum : s.start.toNat + rising + falling = s.stop.toNat
  origin : s.start = 0 → rising = 0
  peak : 0 < s.start → ∃ level, s.HasPeak level ∧ rising < 2 ^ level ∧ falling < 2 ^ level ∧
    ∀ p, s.start.toNat ≤ p → p ≤ s.stop.toNat → (2 ^ level ∣ p ↔ p = s.start.toNat + rising)

section

variable {a e d p k : Nat}

/-- Of the positions between two paths only the turn is a multiple of the fork's power of two. -/
theorem ForkAt.dvd_iff (h : ForkAt a e d) (hlt : a < p) (hle : p ≤ e) :
    2 ^ d ∣ p ↔ p = e / 2 ^ d * 2 ^ d := by
  constructor
  · intro hd
    have hlow := Nat.div_lt_div_of_lt_of_dvd hd hlt
    have hhigh := Nat.div_le_div_right (c := 2 ^ d) hle
    have hnext := h.2
    have heq : p / 2 ^ d = e / 2 ^ d := by omega
    rw [← heq, Nat.div_mul_cancel hd]
  · rintro rfl
    exact Nat.dvd_mul_left _ _

theorem ForkAt.le_of_dvd (h : ForkAt a e d) (hlt : a < p) (hle : p ≤ e) (hk : 2 ^ k ∣ p) : k ≤ d := by
  by_contra hd
  have habove := h.above (Nat.lt_of_not_le hd)
  have hlow := Nat.div_lt_div_of_lt_of_dvd hk hlt
  have hhigh := Nat.div_le_div_right (c := 2 ^ k) hle
  omega

end

variable {s : Span}

theorem Span.hasPeak_of_fork {d : Nat} (hpos : 0 < s.start.toNat)
    (h : ForkAt (s.start.toNat - 1) s.stop.toNat d) : s.HasPeak d := by
  constructor
  · have hturn := h.turn
    have hle := Nat.div_mul_le_self s.stop.toNat (2 ^ d)
    exact ⟨s.stop.toNat / 2 ^ d * 2 ^ d, by omega, hle, Nat.dvd_mul_left _ _⟩
  · intro p k hlow hhigh hk
    exact h.le_of_dvd (by omega) hhigh hk

theorem Span.HasPeak.unique {level level' : Nat} (h : s.HasPeak level) (h' : s.HasPeak level') :
    level = level' := by
  obtain ⟨p, hlow, hhigh, hd⟩ := h.reached
  obtain ⟨p', hlow', hhigh', hd'⟩ := h'.reached
  exact Nat.le_antisymm (h'.highest p level hlow hhigh hd) (h.highest p' level' hlow' hhigh' hd')

theorem Span.alignedSplit_of_slopes {slopes : Slopes} (h : s.start ≤ s.stop)
    (hslopes : s.slopes = .ok slopes) :
    s.AlignedSplit slopes.rising.toNat slopes.falling.toNat := by
  have hsum := Span.slopes_sum h hslopes
  rcases Span.origin_or_fork h with ⟨stop, rfl⟩ | ⟨hpos, d, hfork⟩
  · cases (Span.slopes_from_origin stop).symm.trans hslopes
    exact ⟨hsum, fun _ => rfl, fun hpos => absurd hpos (UInt64.lt_irrefl 0)⟩
  · obtain ⟨slopes', hslopes', hrise, hfall⟩ := Span.slopes_of_fork hpos hfork
    cases hslopes'.symm.trans hslopes
    refine ⟨hsum, fun hzero => ?_, fun _ => ⟨d, Span.hasPeak_of_fork hpos hfork, ?_, ?_, ?_⟩⟩
    · simp [hzero] at hpos
    · have := Nat.two_pow_pos d
      omega
    · rw [hfall]
      exact Nat.mod_lt _ (Nat.two_pow_pos d)
    · intro p hlow hhigh
      have hturn := hfork.turn
      rw [hfork.dvd_iff (by omega) hhigh, ← hturn, hrise, Nat.sub_add_cancel hpos]

theorem Span.AlignedSplit.unique {rising falling rising' falling' : Nat}
    (h : s.AlignedSplit rising falling) (h' : s.AlignedSplit rising' falling') :
    rising = rising' ∧ falling = falling' := by
  have hsum := h.sum
  have hsum' := h'.sum
  have hrising : rising = rising' := by
    by_cases hzero : s.start = 0
    · rw [h.origin hzero, h'.origin hzero]
    · have hpos := UInt64.pos_iff_ne_zero.mpr hzero
      obtain ⟨level, hpeak, -, -, honly⟩ := h.peak hpos
      obtain ⟨level', hpeak', -, -, honly'⟩ := h'.peak hpos
      cases hpeak.unique hpeak'
      -- both parts end at the one multiple of the peak's power of two
      have hmeet := (honly _ (by omega) (by omega)).mpr rfl
      have := (honly' _ (by omega) (by omega)).mp hmeet
      omega
  exact ⟨hrising, by omega⟩

/-- The slopes of an interval are the sizes of its two parts if it is split at its peak, and there is no
other such split. -/
theorem slopes_split_at_peak (h : s.start ≤ s.stop) :
    ∃ slopes, s.slopes = .ok slopes ∧
      Word.add slopes.rising slopes.falling = .ok (s.stop - s.start) ∧
      ∀ rising falling, s.AlignedSplit rising falling ↔
        rising = slopes.rising.toNat ∧ falling = slopes.falling.toNat := by
  obtain ⟨slopes, hslopes⟩ := Span.exists_slopes h
  have hsplit := Span.alignedSplit_of_slopes h hslopes
  have hsum := hsplit.sum
  refine ⟨slopes, hslopes, ?_, fun rising falling => ⟨fun hother => hother.unique hsplit, ?_⟩⟩
  · rw [Word.add_eq_ok_iff, UInt64.toNat_sub_of_le _ _ h]
    omega
  · rintro ⟨rfl, rfl⟩
    exact hsplit

/-- The peak of the interval from 3 to 21 is at 16. -/
theorem slopes_split_at_peak_three_to_twenty_one :
    (3 : Word) ≤ 21 ∧ Span.slopes ⟨3, 21⟩ = .ok ⟨13, 5⟩ ∧ Span.AlignedSplit ⟨3, 21⟩ 13 5 := by
  obtain ⟨slopes, hslopes, -, hsplit⟩ := slopes_split_at_peak (s := ⟨3, 21⟩) (by decide)
  have hvalue : Span.slopes ⟨3, 21⟩ = .ok ⟨13, 5⟩ := rfl
  cases hvalue.symm.trans hslopes
  exact ⟨by decide, hvalue, (hsplit 13 5).mpr ⟨rfl, rfl⟩⟩

end MerkleLog
