import Mathlib
import LoxLang.Number.Style

/-!
# The words of numbers

A number is its word. Of a finite number the word is known from its sign and its rank (`NumberClass`): the
rank alone is the word of the number that has no sign (`NumberClass.ofBits_rank`), and negating that number sets
the sign and nothing else (`NumberClass.neg_ofBits_rank`). A word of finite rank is the word of the number that it
makes (`NumberClass.toBits_ofBits`); of other words this need not hold, since there is one NaN only.
-/

namespace LoxLang

namespace NumberClass

open Float.Model (Format UnpackedFloat)
open Float.Model.UnpackedFloat (Sign unpackSign unpackExponent unpackMantissa)

section
variable (w : UInt64)

/-- The sign of a word is its highest bit. -/
theorem toNat_unpackSign : (@unpackSign .binary64 w.toBitVec).toNat = w.toNat / 2 ^ 63 % 2 := by
  rw [UnpackedFloat.unpackSign_def, BitVec.extractLsb'_toNat, Nat.shiftRight_eq_div_pow]
  rfl

/-- The exponent of a word is made of the eleven bits below that. -/
theorem toNat_unpackExponent :
    (@unpackExponent .binary64 w.toBitVec).toNat = w.toNat / 2 ^ 52 % 2 ^ 11 := by
  rw [UnpackedFloat.unpackExponent_def, BitVec.extractLsb'_toNat, Nat.shiftRight_eq_div_pow]
  rfl

/-- The mantissa of a word is made of its lowest 52 bits. -/
theorem toNat_unpackMantissa : (@unpackMantissa .binary64 w.toBitVec).toNat = w.toNat % 2 ^ 52 := by
  rw [UnpackedFloat.unpackMantissa_def, BitVec.extractLsb'_toNat, Nat.shiftRight_zero]
  rfl

end

/-- The exponent field of a word is full exactly if the rank of the word is not finite. -/
theorem unpackExponent_ne_iff (w : UInt64) :
    @unpackExponent .binary64 w.toBitVec ≠ -1#11 ↔ w.toNat % Nat.pow 2 63 < Magnitude.infinite := by
  have hfull : (-1#11).toNat = 2047 := by decide
  have hbound : w.toNat % 2 ^ 63 < 2047 * 2 ^ 52 ↔ w.toNat / 2 ^ 52 % 2 ^ 11 ≠ 2047 := by omega
  rw [Ne, ← BitVec.toNat_inj, toNat_unpackExponent, hfull]
  exact hbound.symm

/-- A number is finite exactly if the rank of its word is. -/
theorem isFinite_iff (x : Float) :
    x.isFinite = true ↔ x.toBits.toNat % Nat.pow 2 63 < Magnitude.infinite := by
  rw [← unpackExponent_ne_iff]
  change (UnpackedFloat.unpack .binary64 x.toBits.toBitVec).isFinite = true ↔ _
  rw [UnpackedFloat.unpack]
  dsimp only
  split
  · next hfull => split <;> exact iff_of_false nofun fun hne => hne hfull
  · next hfull =>
    split
    · split <;> exact iff_of_true rfl hfull
    · exact iff_of_true rfl hfull

/-- A word of finite rank is the word of the number it makes. -/
theorem toBits_ofBits {w : UInt64} (h : w.toNat % Nat.pow 2 63 < Magnitude.infinite) :
    (Float.ofBits w).toBits = w := by
  have hnan : @UnpackedFloat.isNaNBits .binary64 w.toBitVec = false := by
    rw [UnpackedFloat.isNaNBits, decide_eq_false_iff_not]
    exact fun hboth => (unpackExponent_ne_iff w).2 h hboth.1
  have hpack := @UnpackedFloat.pack_unpack .binary64 w.toBitVec
  rw [hnan] at hpack
  exact congrArg UInt64.ofBitVec (hpack (by decide))

/-- Words that differ in their sign only make numbers that are negations of each other. -/
theorem neg_unpack {b c : BitVec Format.binary64.numBits}
    (hsign : Sign.ofBitVec (@unpackSign .binary64 c) = -Sign.ofBitVec (@unpackSign .binary64 b))
    (hexponent : @unpackExponent .binary64 c = @unpackExponent .binary64 b)
    (hmantissa : @unpackMantissa .binary64 c = @unpackMantissa .binary64 b) :
    (UnpackedFloat.unpack .binary64 b).neg = UnpackedFloat.unpack .binary64 c := by
  rw [UnpackedFloat.unpack, UnpackedFloat.unpack]
  simp only [hsign, hexponent, hmantissa]
  split
  · split <;> rfl
  · split
    · split <;> rfl
    · rfl

/-- The sign, and the rank behind it, are the word. -/
theorem of_eq_finite_iff {x : Float} {negative : Bool} {rank : Nat} :
    of x = .finite negative rank ↔
      rank < Magnitude.infinite ∧ x.toBits.toNat = (if negative then 2 ^ 63 else 0) + rank := by
  have hword := x.toBits.toNat_lt
  have hinfinite : Magnitude.infinite < 2 ^ 63 := by decide
  have hclass : of x = .finite negative rank ↔ x.toBits.toNat % 2 ^ 63 < Magnitude.infinite ∧
      decide (2 ^ 63 ≤ x.toBits.toNat) = negative ∧ x.toBits.toNat % 2 ^ 63 = rank := by
    change (if x.toBits.toNat % 2 ^ 63 < Magnitude.infinite then
      finite (decide (2 ^ 63 ≤ x.toBits.toNat)) (x.toBits.toNat % 2 ^ 63) else _) = _ ↔ _
    split
    · next hfinite => simp only [finite.injEq, hfinite, true_and]
    · next hfinite =>
      simp only [hfinite, false_and, iff_false]
      split <;> nofun
  rw [hclass]
  cases negative <;> simp only [decide_eq_true_eq, decide_eq_false_iff_not, if_true, if_false,
    Bool.false_eq_true] <;> omega

/-- A number is finite exactly if it is of a finite class. -/
theorem exists_of_eq_finite {x : Float} (h : x.isFinite = true) :
    ∃ negative rank, of x = .finite negative rank := by
  rw [isFinite_iff] at h
  exact ⟨_, _, if_pos h⟩

section
variable {x : Float} {rank : Nat}

/-- A finite rank fits in a word. -/
theorem toNat_toUInt64 (h : rank < Magnitude.infinite) : rank.toUInt64.toNat = rank := by
  have hinfinite : Magnitude.infinite < 2 ^ 64 := by decide
  exact UInt64.toNat_ofNat_of_lt' (Nat.lt_trans h hinfinite)

/-- A finite number without a sign is the one whose word is its rank. -/
theorem ofBits_rank (h : of x = .finite false rank) : Float.ofBits rank.toUInt64 = x := by
  obtain ⟨hrank, hword⟩ := of_eq_finite_iff.1 h
  have hbits : rank.toUInt64 = x.toBits := by
    rw [← UInt64.toNat_inj, toNat_toUInt64 hrank, hword]
    exact (Nat.zero_add rank).symm
  rw [hbits, Float.ofBits_toBits]

/-- A finite rank is the class of the number whose word it is. -/
theorem of_ofBits (h : rank < Magnitude.infinite) :
    of (Float.ofBits rank.toUInt64) = .finite false rank := by
  have hinfinite : Magnitude.infinite < 2 ^ 63 := by decide
  have hword := toNat_toUInt64 h
  have hfinite : rank.toUInt64.toNat % 2 ^ 63 < Magnitude.infinite := by omega
  rw [of_eq_finite_iff, toBits_ofBits hfinite, hword]
  exact ⟨h, (Nat.zero_add rank).symm⟩

/-- A finite number with a sign is the negation of the one whose word is its rank. -/
theorem neg_ofBits_rank (h : of x = .finite true rank) : -Float.ofBits rank.toUInt64 = x := by
  obtain ⟨hrank, hword⟩ := of_eq_finite_iff.1 h
  rw [if_pos rfl] at hword
  have hinfinite : Magnitude.infinite < 2 ^ 63 := by decide
  have hunsigned := toNat_toUInt64 hrank
  have hfinite : rank.toUInt64.toNat % 2 ^ 63 < Magnitude.infinite := by omega
  have hclear : @unpackSign .binary64 rank.toUInt64.toBitVec = 0#1 := by
    rw [← BitVec.toNat_inj, toNat_unpackSign, hunsigned, BitVec.toNat_ofNat]
    omega
  have hset : @unpackSign .binary64 x.toBits.toBitVec = 1#1 := by
    rw [← BitVec.toNat_inj, toNat_unpackSign, hword, BitVec.toNat_ofNat]
    omega
  have hneg : (UnpackedFloat.unpack .binary64 rank.toUInt64.toBitVec).neg =
      UnpackedFloat.unpack .binary64 x.toBits.toBitVec := by
    refine neg_unpack (by rw [hclear, hset]; rfl) ?_ ?_
    · rw [← BitVec.toNat_inj, toNat_unpackExponent, toNat_unpackExponent, hunsigned, hword]
      omega
    · rw [← BitVec.toNat_inj, toNat_unpackMantissa, toNat_unpackMantissa, hunsigned, hword]
      omega
  have hmodel : (Float.Model.ofBits rank.toUInt64).toBits = rank.toUInt64 := toBits_ofBits hfinite
  calc -Float.ofBits rank.toUInt64
    _ = .ofModel (.pack (UnpackedFloat.unpack .binary64
          (Float.Model.ofBits rank.toUInt64).toBits.toBitVec).neg) := rfl
    _ = .ofModel (.pack (UnpackedFloat.unpack .binary64 x.toBits.toBitVec)) := by rw [hmodel, hneg]
    _ = Float.ofBits x.toBits := rfl
    _ = x := Float.ofBits_toBits x

end

end NumberClass

end LoxLang
