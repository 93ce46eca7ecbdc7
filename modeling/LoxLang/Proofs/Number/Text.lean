import LoxLang.Proofs.Number.Rounding
import LoxLang.Proofs.Number.Words
import LoxLang.Proofs.Token.Lexical
import LoxLang.Tree.Render

/-!
# Texts of numbers

What is written for a finite number without a sign is a number of the lexical grammar, and it is read as the same
number (`NumberStyle.denotes_render`). Two forms are written. The plain text of a decimal is read as that decimal
(`Decimal.denotes_plain`), be it padded with zeros behind its digits or, to place the point, before them. And a
whole number is written with all its digits, which a zero behind the point does not change.
-/

namespace LoxLang

open Lexical

/-- A number has digits and points in it, and nothing else. -/
theorem Lexical.IsNumber.forall_mem {w : List Char} (h : IsNumber w) :
    ∀ c ∈ w, c.isDigit || c == '.' := by
  have hdigits {digits : List Char} (h : Digits digits) : ∀ c ∈ digits, c.isDigit || c == '.' :=
    fun c hc => by rw [h.2 c hc, Bool.true_or]
  cases h with
  | whole h => exact hdigits h
  | mixed h hfraction =>
    exact List.forall_mem_append.2 ⟨hdigits h, List.forall_mem_cons.2 ⟨rfl, hdigits hfraction⟩⟩
  | fraction h => exact List.forall_mem_cons.2 ⟨rfl, hdigits h⟩

/-! ## Decimals -/

namespace Decimal

/-- A decimal is read as a magnitude that is at most infinite. -/
theorem rank_le (d : Decimal) : d.rank ≤ Magnitude.infinite := by
  obtain ⟨digits, e | e⟩ := d <;> exact Nat.min_le_left _ _

/-- A decimal is read as a number without a sign, finite unless it is too large. -/
theorem of_toFloat {d : Decimal} (h : d.toFloat.isFinite = true) :
    NumberClass.of d.toFloat = .finite false d.rank := by
  refine NumberClass.of_ofBits (Nat.lt_of_le_of_ne d.rank_le fun hrank => ?_)
  rw [toFloat, hrank] at h
  exact absurd h (by decide +kernel)

/-- What a natural number is written with are digits. -/
theorem digits_toDigits (n : Nat) : Digits (Nat.toDigits 10 n) :=
  ⟨Nat.toDigits_ne_nil, fun _ => Nat.isDigit_of_mem_toDigits (by decide) (by decide)⟩

/-- The zeros that a text is padded with are digits. -/
theorem isDigit_of_mem_zeros {n : Nat} {c : Char} (h : c ∈ List.replicate n '0') : c.isDigit := by
  rw [List.eq_of_mem_replicate h]
  rfl

/-- Decimals that are read as the same magnitude are the same number. -/
theorem toFloat_congr {d d' : Decimal} (h : d.rank = d'.rank) : d.toFloat = d'.toFloat := by
  rw [toFloat, toFloat, h]

/-- Digits and zeros behind them are a whole number. -/
theorem denotes_zeros (digits zeros : Nat) :
    Denotes (Nat.toDigits 10 digits ++ List.replicate zeros '0') .number
      (some (.number (toFloat ⟨digits, zeros⟩))) := by
  have hdigits : Digits (Nat.toDigits 10 digits ++ List.replicate zeros '0') :=
    ⟨List.append_ne_nil_of_left_ne_nil Nat.toDigits_ne_nil _,
      List.forall_mem_append.2 ⟨(digits_toDigits digits).2, fun _ => isDigit_of_mem_zeros⟩⟩
  have hvalue : Nat.ofDigitChars 10 (Nat.toDigits 10 digits ++ List.replicate zeros '0') 0 =
      digits * 10 ^ zeros := by
    rw [Nat.ofDigitChars_append, Nat.ofDigitChars_ten_toDigits, Nat.ofDigitChars_replicate_zero,
      Nat.mul_comm]
  have hfloat : toFloat ⟨digits * 10 ^ zeros, 0⟩ = toFloat ⟨digits, zeros⟩ :=
    toFloat_congr (congrArg (Magnitude.nearest · 1) (Nat.mul_one _))
  have hdenotes := Denotes.number (.whole hdigits) (decimal?_whole hdigits)
  rwa [hvalue, hfloat] at hdenotes

/-- Digits with a point among them are the number of all digits, scaled by those behind the point. -/
theorem denotes_pointed (digits places : Nat) (hplaces : 0 < places) :
    Denotes (pointed (Nat.toDigits 10 digits) places) .number
      (some (.number (toFloat ⟨digits, -(places : Int)⟩))) := by
  rw [pointed]
  generalize hpadded : List.replicate (places + 1 - (Nat.toDigits 10 digits).length) '0' ++
    Nat.toDigits 10 digits = padded
  have hlength : places + 1 ≤ padded.length := by
    rw [← hpadded, List.length_append, List.length_replicate]
    omega
  have hall : ∀ c ∈ padded, c.isDigit := by
    rw [← hpadded]
    exact List.forall_mem_append.2 ⟨fun _ => isDigit_of_mem_zeros, (digits_toDigits digits).2⟩
  have hvalue : Nat.ofDigitChars 10 padded 0 = digits := by
    rw [← hpadded, Nat.ofDigitChars_append, Nat.ofDigitChars_replicate_zero, Nat.mul_zero,
      Nat.ofDigitChars_ten_toDigits]
  have hwhole : Digits (padded.take (padded.length - places)) :=
    ⟨List.ne_nil_of_length_pos (by rw [List.length_take]; omega), fun c hc => hall c (List.mem_of_mem_take hc)⟩
  have hfraction : Digits (padded.drop (padded.length - places)) :=
    ⟨List.ne_nil_of_length_pos (by rw [List.length_drop]; omega), fun c hc => hall c (List.mem_of_mem_drop hc)⟩
  have hbehind : (padded.drop (padded.length - places)).length = places := by
    rw [List.length_drop]
    omega
  have hdenotes := Denotes.number (.mixed hwhole hfraction) (decimal?_mixed hwhole.2 hfraction)
  rwa [List.take_append_drop, hvalue, hbehind] at hdenotes

/-- The plain text of a decimal is read as the decimal. -/
theorem denotes_plain (d : Decimal) : Denotes d.plain .number (some (.number d.toFloat)) := by
  obtain ⟨digits, zeros | places⟩ := d
  · exact denotes_zeros digits zeros
  · exact denotes_pointed digits (places + 1) (Nat.succ_pos places)

end Decimal

/-! ## Styles -/

namespace NumberStyle

/-- A style writes numbers that can be read: behind a whole number stands nothing, or a zero behind a point. -/
def Readable (style : NumberStyle) : Prop :=
  style.wholeSuffix = "" ∨ style.wholeSuffix = ".0"

/-- Values write numbers that can be read: nothing stands behind a whole number. -/
theorem readable_value : Value.numberStyle.Readable := .inl rfl

/-- Literals write numbers that can be read: a zero behind a point stands behind a whole number. -/
theorem readable_literal : Literal.numberStyle.Readable := .inr rfl

/-- Expressions write numbers that can be read, as literals do. -/
theorem readable_expr : Expr.numberStyle.Readable := .inr rfl

variable {style : NumberStyle} {rank : Nat}

/-- A whole magnitude is read from its digits, with what a style writes behind them. -/
theorem denotes_whole (hstyle : style.Readable) (hrank : rank < Magnitude.infinite) {n : Nat}
    (hn : Magnitude.whole? rank = some n) :
    Denotes (Nat.toDigits 10 n ++ style.wholeSuffix.toList) .number
      (some (.number (Float.ofBits rank.toUInt64))) := by
  have hread (places : Nat) :
      Decimal.toFloat ⟨n * 10 ^ places, -(places : Int)⟩ = Float.ofBits rank.toUInt64 := by
    rw [Decimal.toFloat, Decimal.rank_of_whole? hrank hn]
  rcases hstyle with hsuffix | hsuffix <;> rw [hsuffix]
  · have hfloat : Decimal.toFloat ⟨n, (0 : Nat)⟩ = Float.ofBits rank.toUInt64 := by
      have hnone := hread 0
      rwa [Nat.pow_zero, Nat.mul_one] at hnone
    exact hfloat ▸ Decimal.denotes_zeros n 0
  · have hzero : Digits ['0'] := ⟨nofun, List.forall_mem_singleton.2 rfl⟩
    have hdigits := Decimal.digits_toDigits n
    have hvalue : Nat.ofDigitChars 10 (Nat.toDigits 10 n ++ ['0']) 0 = n * 10 ^ 1 := by
      rw [Nat.ofDigitChars_append, Nat.ofDigitChars_ten_toDigits, Nat.mul_comm]
      exact Nat.ofDigitChars_replicate_zero (n := 1)
    have hdenotes := Denotes.number (.mixed hdigits hzero) (decimal?_mixed hdigits.2 hzero)
    rw [hvalue] at hdenotes
    exact hread 1 ▸ hdenotes

/-- The text of a finite magnitude is read back. -/
theorem denotes_renderFinite (hstyle : style.Readable) (hrank : rank < Magnitude.infinite) :
    Denotes (style.renderFinite false rank) .number (some (.number (Float.ofBits rank.toUInt64))) := by
  have hshortest := (Decimal.shortest .up rank).denotes_plain
  rw [Decimal.toFloat, Decimal.rank_shortest .up hrank] at hshortest
  rw [renderFinite]
  dsimp only
  cases hwhole : Magnitude.whole? rank with
  | none => exact hshortest
  | some n =>
    dsimp only
    split
    · exact denotes_whole hstyle hrank hwhole
    · exact hshortest

/-- Where the sign of a zero is written, every text is that of the magnitude behind the sign. -/
theorem renderFinite_eq_sign_append (style : NumberStyle) (hzero : style.signedZero = true) (negative : Bool)
    (rank : Nat) :
    style.renderFinite negative rank = sign negative ++ style.renderFinite false rank := by
  rw [renderFinite, renderFinite, hzero]
  cases Magnitude.whole? rank with
  | none => rfl
  | some n =>
    dsimp only
    rw [Bool.true_or, Bool.and_true]
    split
    · exact List.append_assoc _ _ _
    · rfl

/-- The text of a finite number without a sign is a number, and it is read as the same number. -/
theorem denotes_render (hstyle : style.Readable) {x : Float} (h : NumberClass.of x = .finite false rank) :
    Denotes (style.render x).toList .number (some (.number x)) := by
  have hrank := (NumberClass.of_eq_finite_iff.1 h).1
  have hdenotes := denotes_renderFinite hstyle hrank
  rw [NumberClass.ofBits_rank h] at hdenotes
  rwa [render, h, String.toList_ofList]

end NumberStyle

end LoxLang
