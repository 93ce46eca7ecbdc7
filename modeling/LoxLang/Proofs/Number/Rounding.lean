import Mathlib.Algebra.Group.Nat.Defs
import LoxLang.Number.Style

/-!
# Decimals that are read back

A decimal is read as the nearest magnitude. Where the decimal is a magnitude, nothing is rounded
(`Magnitude.nearest_of_exact`): a magnitude is its digits shifted by as many binary places as rounding would cut
off. So the exact expansion of a magnitude is read back, and the shortest decimal of a magnitude is read back
because it was tried or, where no try succeeds, because it is the exact expansion (`Decimal.rank_shortest`).
-/

namespace LoxLang

/-! ## Rounding -/

/-- What can be divided is not rounded. -/
theorem roundHalfEven_mul (quotient : Nat) {den : Nat} (hden : 0 < den) :
    roundHalfEven (quotient * den) den = quotient := by
  simp only [roundHalfEven, Nat.mul_mod_left, Nat.mul_div_cancel _ hden, Nat.mul_zero, if_pos hden]

namespace Magnitude

/-- The value of a rank is its digits, shifted by the binary places that 53 digits leave. -/
theorem exists_units_eq (rank : Nat) :
    ∃ shift digits, units rank = digits * 2 ^ shift ∧ rank = shift * binade + digits ∧
      Nat.log2 (units rank) - 52 = shift := by
  have hpos : 0 < binade := by decide
  have hlt : rank % binade < 2 ^ 52 := Nat.mod_lt rank hpos
  have hsplit := Nat.div_add_mod' rank binade
  cases hexponent : rank / binade with
  | zero =>
    rw [hexponent, Nat.zero_mul, Nat.zero_add] at hsplit
    have hunits : units rank = rank := by simp only [units, hexponent, if_true, hsplit]
    refine ⟨0, rank, by simp [hunits], by simp, ?_⟩
    rw [hunits]
    by_cases hzero : rank = 0
    · simp [hzero]
    · have hlog := (Nat.log2_lt hzero).2 (hsplit ▸ hlt)
      omega
  | succ shift =>
    rw [hexponent] at hsplit
    have hunits : units rank = (binade + rank % binade) * 2 ^ shift := by
      simp [units, hexponent]
    have hbinade : binade = 2 ^ 52 := rfl
    have hlog : Nat.log2 (units rank) = 52 + shift := by
      have hne : units rank ≠ 0 := by
        rw [hunits]
        exact Nat.mul_ne_zero (by omega) (Nat.ne_of_gt (Nat.two_pow_pos shift))
      rw [Nat.log2_eq_iff hne, hunits, Nat.add_right_comm, Nat.pow_add, Nat.pow_add]
      constructor
      · exact Nat.mul_le_mul_right _ (by omega)
      · exact Nat.mul_lt_mul_of_pos_right (by omega) (Nat.two_pow_pos shift)
    refine ⟨shift, binade + rank % binade, hunits, ?_, by omega⟩
    rw [Nat.succ_mul] at hsplit
    omega

/-- A ratio that is a magnitude is read as that magnitude. -/
theorem nearest_of_exact {num den rank : Nat} (hden : 0 < den) (hrank : rank < infinite)
    (h : num * one = units rank * den) : nearest num den = rank := by
  obtain ⟨shift, digits, hunits, hsplit, hshift⟩ := exists_units_eq rank
  have hexact : units rank * den = digits * (den * Nat.pow 2 shift) := by
    rw [hunits, Nat.mul_right_comm, Nat.mul_assoc]
    rfl
  have hcut : 0 < den * Nat.pow 2 shift := Nat.mul_pos hden (Nat.two_pow_pos shift)
  simp only [nearest, h, Nat.mul_div_cancel _ hden, hshift]
  rw [hexact, roundHalfEven_mul digits hcut, ← hsplit]
  exact Nat.min_eq_right (Nat.le_of_lt hrank)

end Magnitude

namespace Decimal

/-- A decimal with digits behind the point is their ratio to a power of ten. -/
theorem rank_neg (digits places : Nat) :
    rank ⟨digits, -(places : Int)⟩ = Magnitude.nearest digits (10 ^ places) := by
  cases places with
  | zero => exact congrArg (Magnitude.nearest · 1) (Nat.mul_one digits)
  | succ places => rfl

/-- The exact expansion of a finite magnitude is read back. -/
theorem rank_exact {rank : Nat} (h : rank < Magnitude.infinite) : (exact rank).rank = rank := by
  -- The number of places is made a variable, since its powers are not to be computed.
  obtain ⟨places, hone, hexact⟩ : ∃ places : Nat, Nat.pow 2 places = Magnitude.one ∧
      exact rank = ⟨Magnitude.units rank * Nat.pow 5 places, -(places : Int)⟩ := ⟨1074, rfl, rfl⟩
  rw [hexact, rank_neg]
  refine Magnitude.nearest_of_exact (Nat.pow_pos (by decide)) h ?_
  rw [← hone, Nat.mul_assoc]
  exact congrArg (Magnitude.units rank * ·) (Nat.mul_pow 5 2 places).symm

/-- A decimal that is tried and kept is read as the magnitude it was tried for. -/
theorem rank_hit? {tie : TieRule} {rank count : Nat} {exponent : Int} {d : Decimal}
    (h : hit? tie rank count exponent = some d) : d.rank = rank := by
  unfold hit? at h
  dsimp only at h
  split at h
  · next hbelow =>
    split at h
    · next habove =>
      split at h
      · cases h
        exact hbelow
      · split at h
        · cases h
          exact habove
        · split at h
          · cases h
            exact habove
          · cases h
            split <;> assumption
    · cases h
      exact hbelow
  · split at h
    · next habove =>
      cases h
      exact habove
    · cases h

/-- The shortest decimal of a finite magnitude is read back. -/
theorem rank_shortest (tie : TieRule) {rank : Nat} (h : rank < Magnitude.infinite) :
    (shortest tie rank).rank = rank := by
  rw [shortest]
  split
  · next hzero =>
    subst hzero
    exact Magnitude.nearest_of_exact (by decide) h (by simp [Magnitude.units])
  · dsimp only
    generalize hfound : List.findSome? _ _ = found
    cases found with
    | none => exact rank_exact h
    | some d =>
      obtain ⟨count, -, hhit⟩ := List.exists_of_findSome?_eq_some hfound
      exact rank_hit? hhit

/-- A whole magnitude is read back from its digits, also with zeros behind the point. -/
theorem rank_of_whole? {rank n : Nat} (h : rank < Magnitude.infinite)
    (hn : Magnitude.whole? rank = some n) (places : Nat) :
    Decimal.rank ⟨n * 10 ^ places, -(places : Int)⟩ = rank := by
  have hunits : n * Magnitude.one = Magnitude.units rank := by
    unfold Magnitude.whole? at hn
    split at hn
    · next hdvd =>
      cases hn
      exact Nat.div_mul_cancel (Nat.dvd_of_mod_eq_zero hdvd)
    · cases hn
  rw [rank_neg]
  refine Magnitude.nearest_of_exact (Nat.pow_pos (by decide)) h ?_
  rw [Nat.mul_right_comm, hunits]

end Decimal

end LoxLang
