import LoxLang.Proofs.Number.Text
import LoxLang.Proofs.Session.Arithmetic
import LoxLang.Proofs.Token.Joining

/-!
# Printed numbers are read back

Numbers are printed in three styles: as values, as the literals of tokens and as the literals of trees. The text of
a finite number without a sign is a single token in each of them, and the literal of that token is the number. With
a sign it is two tokens, an operator and a number, so there it takes an evaluation to get the number back: the sign
in front is that of the word, also in front of a zero. `numberTexts_read_back` says both.
-/

namespace LoxLang

open Grammar Lexical

/-! ## Reading the text of a number -/

namespace Lexical

/-- A lexeme that is read as a number is a number of the lexical grammar. -/
theorem Denotes.isNumber {w : List Char} {x : Float} (h : Denotes w .number (some (.number x))) :
    IsNumber w := by
  cases h with
  | number h _ => exact h

/-- A number has no newline in it. -/
theorem IsNumber.count_newline {w : List Char} (h : IsNumber w) : w.count '\n' = 0 :=
  List.count_eq_zero.2 fun hmem => Bool.false_ne_true (h.forall_mem _ hmem)

/-- A single lexeme is laid out as itself. -/
theorem Laid.single (w : List Char) : Laid [w] w := by
  have hlaid : Laid [w] ([] ++ (w ++ [])) := .cons .nil (.nil .nil)
  rwa [List.nil_append, List.append_nil] at hlaid

end Lexical

/-- A text that is a number is read as the token of that number and the mark of the end. -/
theorem Source.items_of_denotes {text : String} {x : Float}
    (h : Denotes text.toList .number (some (.number x))) :
    items text = [.token ⟨.number, text, some (.number x), 1⟩, .token (Item.endMark 1)] := by
  have hend : ∀ k : CharClass, ∀ d ∈ ([] : List Char).head?, k.Stops d := fun _ => nofun
  have hitems := h.ofPieces_append hend 1
  rwa [List.append_nil, h.isNumber.count_newline, String.ofList_toList] at hitems

/-- The text of a value is that of its magnitude behind its sign. -/
theorem Value.render_number {x : Float} {negative : Bool} {rank : Nat}
    (h : NumberClass.of x = .finite negative rank) :
    (Value.number x).render =
      String.ofList (NumberStyle.sign negative ++ numberStyle.renderFinite false rank) := by
  have hsigned := numberStyle.renderFinite_eq_sign_append rfl negative rank
  change numberStyle.render x = _
  rw [NumberStyle.render, h, ← hsigned]

namespace Session

/-- A text without lexical faults whose tokens are an expression that has the same value everywhere is
evaluated to that value. -/
theorem evaluate_eq_of_eval {source : String} {e : Expr} {v : Value} (hfaults : Source.faults source = [])
    (he : Expression (Source.body source) e) (heval : ∀ c, e.eval c = (.ok v, c)) (s : Session) :
    s.evaluate source = (some v, [], s) := by
  have hmachine : s.machine.eval e = (.ok v, s.machine) := by
    rw [Machine.eval, machine]
    dsimp only
    rw [heval]
  rw [evaluate_of_evaluable?_eq_some (evaluable?_eq_some_iff.2 ⟨hfaults, he⟩), hmachine]
  rfl

/-- A number in a text is evaluated to itself. -/
theorem evaluate_number {w : List Char} {x : Float} (h : Denotes w .number (some (.number x))) (s : Session) :
    s.evaluate (String.ofList w) = (some (.number x), [], s) := by
  obtain ⟨hfaults, hspells⟩ := (Laid.single w).source (List.forall_mem_singleton.2 ⟨_, _, h⟩) (.singleton _)
  obtain ⟨t, _, ht, hnil, hbody⟩ := List.forall₂_cons_left_iff.1 hspells
  obtain rfl := List.forall₂_nil_left_iff.1 hnil
  obtain ⟨hkind, hliteral⟩ := ht.eq_of_denotes h
  have he : Expression [t] (.literal (Parser.literalValue t)) :=
    Arithmetic.expression_of_term (Arithmetic.derives_of_unary 0 (.noUnary (.number hkind)))
  refine evaluate_eq_of_eval hfaults (hbody ▸ he) (fun c => ?_) s
  rw [Expr.eval, Parser.literalValue, hliteral]

/-- A number behind a sign is evaluated to its negation. -/
theorem evaluate_negative {w : List Char} {x : Float} (h : Denotes w .number (some (.number x))) (s : Session) :
    s.evaluate (String.ofList ('-' :: w)) = (some (.number (-x)), [], s) := by
  have hlaid : Laid [['-'], w] ('-' :: w) := .cons .nil (.single w)
  have hsign : Denotes ['-'] .minus none := .symbol (by decide)
  have hdenotes : ∀ w' ∈ [['-'], w], ∃ kind literal, Denotes w' kind literal :=
    List.forall_mem_cons.2 ⟨⟨_, _, hsign⟩, List.forall_mem_singleton.2 ⟨_, _, h⟩⟩
  have happart : [['-'], w].IsChain Apart := by
    refine List.isChain_pair.2 ?_
    rintro _ ⟨⟩ d -
    trivial
  obtain ⟨hfaults, hspells⟩ := hlaid.source hdenotes happart
  obtain ⟨minus, _, hminus, hrest, hbody⟩ := List.forall₂_cons_left_iff.1 hspells
  obtain ⟨t, _, ht, hnil, rfl⟩ := List.forall₂_cons_left_iff.1 hrest
  obtain rfl := List.forall₂_nil_left_iff.1 hnil
  obtain ⟨hkind, hliteral⟩ := ht.eq_of_denotes h
  have hkind' := (hminus.eq_of_denotes hsign).1
  have hunary : minus.kind ∈ [.bang, .minus] := hkind' ▸ List.mem_cons_of_mem _ List.mem_cons_self
  have he : Expression [minus, t] (.unary minus (.literal (Parser.literalValue t))) :=
    Arithmetic.expression_of_term (Arithmetic.derives_of_unary 0 (.unary hunary (.noUnary (.number hkind))))
  refine evaluate_eq_of_eval hfaults (hbody ▸ he) (fun c => ?_) s
  rw [Expr.eval_unary, Expr.eval, Parser.literalValue, hliteral, Evaluated.andThen]
  exact Prod.ext (Arithmetic.applyUnary_number hkind' x) rfl

/-- Printed numbers read back as the same number. Of a finite number whose word has no sign, the text as a
value, as the literal of a token and as a literal in a tree is read as one number and the mark of the end, and the
literal of that number is the number, word for word. And of every finite number, the text as a value is
evaluated to the number, with the sign of its word, without diagnostics. -/
theorem numberTexts_read_back (x : Float) (hfinite : x.isFinite = true) (s : Session) :
    (x.toBits.toNat < 2 ^ 63 →
      ∀ text ∈ [(Value.number x).render, (Literal.number x).render, (Expr.literal (.number x)).render],
        Source.items text = [.token ⟨.number, text, some (.number x), 1⟩, .token (Item.endMark 1)]) ∧
      s.evaluate (Value.number x).render = (some (.number x), [], s) := by
  obtain ⟨negative, rank, hclass⟩ := NumberClass.exists_of_eq_finite hfinite
  obtain ⟨hrank, hword⟩ := NumberClass.of_eq_finite_iff.1 hclass
  constructor
  · intro hsign
    obtain rfl : negative = false := by
      cases negative with
      | false => rfl
      | true =>
        rw [if_pos rfl] at hword
        omega
    have hread {style : NumberStyle} (hstyle : style.Readable) :=
      Source.items_of_denotes (NumberStyle.denotes_render hstyle hclass)
    exact List.forall_mem_cons.2 ⟨hread NumberStyle.readable_value,
      List.forall_mem_cons.2 ⟨hread NumberStyle.readable_literal,
        List.forall_mem_singleton.2 (hread NumberStyle.readable_expr)⟩⟩
  · have hdenotes := NumberStyle.denotes_renderFinite NumberStyle.readable_value hrank
    rw [Value.render_number hclass]
    cases negative with
    | false =>
      rw [NumberClass.ofBits_rank hclass] at hdenotes
      exact evaluate_number hdenotes s
    | true =>
      have hnegative := evaluate_negative hdenotes s
      rwa [NumberClass.neg_ofBits_rank hclass] at hnegative

/-- The number that the twenty-third power of ten is read as, which lies below that power. -/
def roundedPower : Float :=
  Float.ofBits 0x44B52D02C7E14AF6

/-- A number of which two texts have all digits and one has the fewest, a zero that keeps its sign, and the least
magnitude, which is read back from 323 zeros behind the point. -/
theorem numberTexts_read_back_extremes :
    [(Value.number roundedPower).render, (Literal.number roundedPower).render,
        (Expr.literal (.number roundedPower)).render] =
      ["99999999999999991611392", "100000000000000000000000", "99999999999999991611392.0"] ∧
    Source.items "100000000000000000000000" =
      [.token ⟨.number, "100000000000000000000000", some (.number roundedPower), 1⟩,
        .token (Item.endMark 1)] ∧
    (start .unlimited).evaluate "-0" =
      (some (.number (Float.ofBits 0x8000000000000000)), [], start .unlimited) ∧
    (start .unlimited).evaluate (Value.number (Float.ofBits 1)).render =
      (some (.number (Float.ofBits 1)), [], start .unlimited) := by
  have hpower := numberTexts_read_back roundedPower (by decide +kernel) (start .unlimited)
  have hzero := numberTexts_read_back (Float.ofBits 0x8000000000000000) (by decide +kernel) (start .unlimited)
  have hleast := numberTexts_read_back (Float.ofBits 1) (by decide +kernel) (start .unlimited)
  have hzeroText : (Value.number (Float.ofBits 0x8000000000000000)).render = "-0" := by decide +kernel
  have hliteral : (Literal.number roundedPower).render = "100000000000000000000000" := by decide +kernel
  have hitems := hpower.1 (by decide +kernel) _ (List.mem_cons_of_mem _ List.mem_cons_self)
  rw [hliteral] at hitems
  exact ⟨by decide +kernel, hitems, hzeroText ▸ hzero.2, hleast.2⟩

end Session

end LoxLang
