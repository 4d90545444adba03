import MerkleLog.Proofs.Digits

namespace MerkleLog

/-- The paths from the root to the leaves `a` and `e` part just above a level: there the first goes
through a left child and the second through its right sibling. -/
def ForkAt (a e level : Nat) : Prop :=
  a / 2 ^ level % 2 = 0 ∧ e / 2 ^ level = a / 2 ^ level + 1

variable {a e d : Nat}

theorem forkAt_log2 (h : a < e) : ForkAt a e (a ^^^ e).log2 := by
  have hne : a ^^^ e ≠ 0 := fun hz => absurd (Nat.xor_eq_zero_iff.mp hz) (by omega)
  have habove : a / 2 ^ ((a ^^^ e).log2 + 1) = e / 2 ^ ((a ^^^ e).log2 + 1) :=
    xor_lt_two_pow_iff.mp ((Nat.log2_lt hne).mp (Nat.lt_succ_self _))
  have hat : a / 2 ^ (a ^^^ e).log2 ≠ e / 2 ^ (a ^^^ e).log2 := by
    intro heq
    have := xor_lt_two_pow_iff.mpr heq
    exact absurd (Nat.log2_self_le hne) (by omega)
  have hle : a / 2 ^ (a ^^^ e).log2 ≤ e / 2 ^ (a ^^^ e).log2 := Nat.div_le_div_right h.le
  rw [div_two_pow_succ, div_two_pow_succ] at habove
  unfold ForkAt
  omega

theorem ForkAt.lt (h : ForkAt a e d) : a < e := by
  by_contra hle
  have := Nat.div_le_div_right (c := 2 ^ d) (Nat.le_of_not_lt hle)
  have := h.2
  omega

theorem ForkAt.two_pow_le (h : ForkAt a e d) : 2 ^ d ≤ e := by
  have hone : 1 ≤ e / 2 ^ d := h.2 ▸ Nat.succ_pos _
  simpa using (Nat.le_div_iff_mul_le (Nat.two_pow_pos d)).mp hone

theorem ForkAt.above (h : ForkAt a e d) {l : Nat} (hl : d < l) : a / 2 ^ l = e / 2 ^ l := by
  obtain ⟨heven, hnext⟩ := h
  apply div_two_pow_congr hl
  rw [div_two_pow_succ, div_two_pow_succ]
  omega

theorem ForkAt.level_mono {e' d' : Nat} (h : ForkAt a e d) (h' : ForkAt a e' d') (hle : e ≤ e') :
    d ≤ d' := by
  by_contra hlt
  have habove := h'.above (Nat.lt_of_not_le hlt)
  have hdiv := Nat.div_le_div_right (c := 2 ^ d) hle
  have hnext := h.2
  omega

theorem ForkAt.log2_eq (h : ForkAt a e d) : (a ^^^ e).log2 = d := by
  have hbelow : a ^^^ e < 2 ^ (d + 1) := xor_lt_two_pow_iff.mpr (h.above (Nat.lt_succ_self d))
  have hat : ¬ a ^^^ e < 2 ^ d := by
    rw [xor_lt_two_pow_iff, h.2]
    omega
  have hne : a ^^^ e ≠ 0 := by
    intro hz
    rw [hz] at hat
    exact hat (Nat.two_pow_pos d)
  exact (Nat.log2_eq_iff hne).mpr ⟨Nat.le_of_not_lt hat, hbelow⟩

/-- Where the subtrees to the right of the first path end, those to the left of the second begin. -/
theorem ForkAt.turn (h : ForkAt a e d) : a + 1 + (2 ^ d - (a % 2 ^ d + 1)) = e / 2 ^ d * 2 ^ d := by
  have hdiv := Nat.div_add_mod a (2 ^ d)
  have hmod := Nat.mod_lt a (Nat.two_pow_pos d)
  rw [h.2, Nat.add_mul, Nat.mul_comm (a / 2 ^ d), Nat.one_mul]
  omega

theorem ForkAt.to_turn (h : ForkAt a e d) : ForkAt a (e / 2 ^ d * 2 ^ d) d := by
  refine ⟨h.1, ?_⟩
  rw [Nat.mul_div_cancel _ (Nat.two_pow_pos d)]
  exact h.2

theorem ForkAt.from_turn (h : ForkAt a e d) : ForkAt (e / 2 ^ d * 2 ^ d - 1) e d := by
  have hpos := Nat.two_pow_pos d
  have hsplit : e / 2 ^ d * 2 ^ d - 1 = (2 ^ d - 1) + 2 ^ d * (a / 2 ^ d) := by
    rw [h.2, Nat.add_mul, Nat.mul_comm (a / 2 ^ d)]
    omega
  have hdiv : (e / 2 ^ d * 2 ^ d - 1) / 2 ^ d = a / 2 ^ d := by
    rw [hsplit, Nat.add_mul_div_left _ _ hpos, Nat.div_eq_of_lt (by omega), Nat.zero_add]
  exact ⟨hdiv ▸ h.1, hdiv ▸ h.2⟩

theorem ForkAt.congr_left (h : ForkAt a e d) {b : Nat} (hb : a / 2 ^ d = b / 2 ^ d) :
    ForkAt b e d :=
  ⟨hb ▸ h.1, hb ▸ h.2⟩

end MerkleLog
