import LoxLang.Diagnostic
import LoxLang.Proofs.Parse.Local
import Mathlib.Data.List.Nodup

/-!
# No token is blamed twice

Faults are reported in three ways: one that stops a declaration is reported when reading recovers from it, a
block reports its missing brace behind the faults of what stands in it, and an invalid target is reported on
the spot, but only once the expression behind its equals sign has been read. Along all of them the same count
is kept (`Blames`): the tokens that were blamed are among those that were taken. A fault that stops a parser
blames the next token, which is still there, and it is recovery that takes that token.

An invalid target is the one fault that blames a token taken before, the equals sign. So the count has a
credit: the tokens that a parser may blame although it did not take them itself. There is one rule for each
combinator and one theorem for each parser.

The faults that unwind are blamed in the order of their tokens, since the next token only moves on.
-/

namespace LoxLang

/-! ## Faults -/

/-- Whether a fault stops the declaration it is found in: all do, except for an invalid target. -/
def ParseFault.unwinds (f : ParseFault) : Bool :=
  f.cause.message ≠ "Invalid assignment target."

/-- An invalid target is told from the other causes by its message. -/
theorem ParseFault.unwinds_iff {f : ParseFault} : f.unwinds ↔ f.cause ≠ .invalidTarget := by
  obtain ⟨cause, t⟩ := f
  cases cause <;> simp [unwinds, ParseCause.message]

/-- Whether the place of a fault is the end. -/
def ParseFault.atEnd (f : ParseFault) : Bool :=
  f.diagnostic.location? = some " at end"

/-- A fault is located at the end if the token it blames is an end mark. -/
theorem ParseFault.atEnd_iff {f : ParseFault} : f.atEnd ↔ f.token.kind = .eof := by
  have hplace : f.atEnd ↔ Diagnostic.place f.token.quotable? = " at end" := by
    simp [atEnd, diagnostic, Diagnostic.location?]
  rw [hplace, Token.quotable?]
  split
  · next hmark => exact iff_of_true rfl hmark
  · next hmark =>
    refine iff_of_false (fun hend => ?_) hmark
    -- The places differ in their fifth character.
    have hquote := congrArg (fun s : String => (s.toList.drop 4).head?) hend
    simp [Diagnostic.place] at hquote

/-- The tokens that faults blame, the one behind the list apart. -/
def blamed (stop : Token) (faults : List ParseFault) : List Token :=
  (faults.map ParseFault.token).filter (· ≠ stop)

/-- Faults in a row blame what each of them blames. -/
theorem blamed_append (stop : Token) (faults more : List ParseFault) :
    blamed stop (faults ++ more) = blamed stop faults ++ blamed stop more := by
  rw [blamed, List.map_append, List.filter_append]
  rfl

namespace Parser

variable {α β : Type} {credit : List Token}

/-! ## The count -/

/-- From the given tokens, a parser blames each token it takes at most once, and in order where the fault
unwinds; beside them it blames those of the credit. If it stops, it blames the next token. -/
structure BlamesAt (credit : List Token) (stop : Token) (tokens : List Token) (o : Outcome α) : Prop where
  taken : ∃ used, tokens = used ++ o.rest ∧
    (∀ q : Token → Bool, (blamed stop o.reports).countP q ≤ credit.countP q + used.countP q) ∧
    (blamed stop (o.reports.filter ParseFault.unwinds)).Sublist used
  next : ∀ fault, o.result = .error fault → fault.unwinds ∧ fault.token = o.rest.headD stop

/-- The same from all token lists. -/
def Blames (credit : List Token) (p : Parser α) : Prop :=
  ∀ stop tokens, BlamesAt credit stop tokens (p stop tokens)

/-- A parser that needs no credit keeps to the count with any. -/
theorem Blames.withCredit {p : Parser α} (h : Blames [] p) : Blames credit p := by
  intro stop tokens
  obtain ⟨⟨used, hused, hcount, horder⟩, hnext⟩ := h stop tokens
  refine ⟨⟨used, hused, fun q => ?_, horder⟩, hnext⟩
  exact Nat.le_trans (hcount q) (Nat.add_le_add_right (Nat.zero_le _) _)

/-- A parser that reports nothing and does not stop. -/
theorem blames_of_silent {p : Parser α}
    (h : ∀ stop tokens, ∃ a used rest, tokens = used ++ rest ∧ p stop tokens = ⟨.ok a, [], rest⟩) :
    Blames [] p := by
  intro stop tokens
  obtain ⟨a, used, rest, hused, hp⟩ := h stop tokens
  rw [hp]
  refine ⟨⟨used, hused, fun _ => Nat.zero_le _, List.nil_sublist used⟩, ?_⟩
  rintro _ ⟨⟩

/-- A result of its own blames nothing. -/
theorem blames_pure (a : α) : Blames credit (pure a) :=
  .withCredit (blames_of_silent fun _ tokens => ⟨a, [], tokens, rfl, rfl⟩)

/-- The rule for two parsers in a row. -/
theorem Blames.bind {p : Parser α} {f : α → Parser β} (hp : Blames [] p)
    (hf : ∀ a, Blames credit (f a)) : Blames credit (p >>= f) := by
  intro stop tokens
  obtain ⟨⟨used, hused, hcount, horder⟩, hnext⟩ := hp stop tokens
  rcases hfirst : p stop tokens with ⟨fault | a, reports, rest⟩ <;>
    rw [hfirst] at hused hcount horder hnext
  · rw [bind_of_error hfirst]
    refine ⟨⟨used, hused, fun q => ?_, horder⟩, ?_⟩
    · exact Nat.le_trans (hcount q) (Nat.add_le_add_right (Nat.zero_le _) _)
    · rintro _ ⟨⟩
      exact hnext fault rfl
  · obtain ⟨⟨used', hused', hcount', horder'⟩, hnext'⟩ := hf a stop rest
    rw [bind_of_ok hfirst]
    refine ⟨⟨used ++ used', ?_, fun q => ?_, ?_⟩, hnext'⟩
    · rw [List.append_assoc, ← hused', hused]
    · have hfst := hcount q
      have hsnd := hcount' q
      simp only [blamed_append, List.countP_append, List.countP_nil] at hfst hsnd ⊢
      omega
    · rw [List.filter_append, blamed_append]
      exact horder.append horder'

/-! ## Single tokens -/

/-- A fault blames the next token, as long as it is not an invalid target. -/
theorem blames_fail {cause : ParseCause} (hcause : cause ≠ .invalidTarget) :
    Blames [] (fail (α := α) cause) := by
  intro stop tokens
  refine ⟨⟨[], rfl, fun _ => Nat.zero_le _, List.nil_sublist []⟩, ?_⟩
  rintro _ ⟨⟩
  exact ⟨ParseFault.unwinds_iff.2 hcause, rfl⟩

/-- An invalid target blames a token of the credit. -/
theorem Blames.behindReport {p : Parser α} (h : Blames [] p) (t : Token) :
    Blames [t] (do report .invalidTarget t; p) := by
  intro stop tokens
  obtain ⟨⟨used, hused, hcount, horder⟩, hnext⟩ := h stop tokens
  have hfirst : report .invalidTarget t stop tokens = ⟨.ok (), [⟨.invalidTarget, t⟩], tokens⟩ := rfl
  rw [bind_of_ok hfirst]
  refine ⟨⟨used, hused, fun q => ?_, horder⟩, hnext⟩
  have hmore := hcount q
  have hone : (blamed stop [⟨.invalidTarget, t⟩]).countP q ≤ [t].countP q :=
    (List.filter_sublist (l := [t])).countP_le
  rw [blamed_append, List.countP_append]
  rw [List.countP_nil] at hmore
  omega

/-- Looking ahead blames nothing. -/
theorem blames_peek? : Blames [] peek? :=
  blames_of_silent fun _ tokens => ⟨tokens.head?, [], tokens, rfl, rfl⟩

/-- Looking at the kind of the next token blames nothing. -/
theorem blames_peekKind? : Blames [] peekKind? :=
  blames_of_silent fun _ tokens => ⟨_, [], tokens, rfl, rfl⟩

/-- Skipping a token blames nothing. -/
theorem blames_skip : Blames [] skip :=
  blames_of_silent fun _ tokens => ⟨(), tokens.take 1, tokens.tail, by cases tokens <;> rfl, rfl⟩

/-- A token that is expected is taken or blamed, not both. -/
theorem blames_expect {kind : Kind} {cause : ParseCause} (hcause : cause ≠ .invalidTarget) :
    Blames [] (expect kind cause) := by
  rw [expect_eq]
  refine blames_peek?.bind fun next => ?_
  cases next with
  | none => exact blames_fail hcause
  | some t =>
    dsimp only
    split
    · exact blames_skip.bind fun _ => blames_pure t
    · exact blames_fail hcause

/-- A token that is taken may be blamed by what follows it. -/
theorem Blames.behindSkip {p : Parser α} {t : Token} (h : Blames [t] p) (stop : Token)
    (rest : List Token) : BlamesAt [] stop (t :: rest) ((do skip; p : Parser α) stop (t :: rest)) := by
  obtain ⟨⟨used, hused, hcount, horder⟩, hnext⟩ := h stop rest
  refine ⟨⟨t :: used, congrArg (t :: ·) hused, fun q => ?_, horder.cons t⟩, hnext⟩
  have hmore := hcount q
  rw [List.countP_nil, Nat.zero_add, List.countP_cons]
  rw [List.countP_cons, List.countP_nil] at hmore
  exact Nat.le_trans hmore (by omega)

/-- The rule for a token that may be accepted. It was taken, so what follows has it as a credit, to blame it later.
-/
theorem blames_accept? {kinds : List Kind} {f : Option Token → Parser α}
    (hsome : ∀ t, Blames [t] (f (some t))) (hnone : Blames [] (f none)) :
    Blames [] (accept? kinds >>= f) := by
  rw [accept?_bind_eq]
  intro stop tokens
  cases tokens with
  | nil => exact hnone stop []
  | cons t rest =>
    show BlamesAt [] stop (t :: rest)
      ((if t.kind ∈ kinds then (do skip; f (some t)) else f none) stop (t :: rest))
    split
    · exact (hsome t).behindSkip stop rest
    · exact hnone stop (t :: rest)

/-! ## Expressions -/

/-- A primary blames the token where an expression should begin, or what the expression in brackets blames. -/
theorem primary_blames {inner : Parser Expr} (h : Blames [] inner) : Blames [] (primary inner) := by
  refine blames_peek?.bind fun next => ?_
  cases next with
  | none => exact blames_fail (by decide)
  | some t =>
    dsimp only
    split
    case h_7 =>
      exact blames_skip.bind fun _ => h.bind fun _ => (blames_expect (by decide)).bind fun _ => blames_pure _
    case h_8 => exact blames_fail (by decide)
    all_goals exact blames_skip.bind fun _ => blames_pure _

/-- A row of unary operators blames what its operand blames. -/
theorem unary_blames {primary : Parser Expr} (h : Blames [] primary) (bound : Nat) :
    Blames [] (unary primary bound) := by
  induction bound with
  | zero => exact h
  | succ bound ih => exact blames_accept? (fun _ => .withCredit (ih.bind fun _ => blames_pure _)) h

/-- A chain of operators of one level blames what its operands blame. -/
theorem chain_blames {level : Level} {operand : Parser Expr} (h : Blames [] operand) (bound : Nat)
    (left : Expr) : Blames [] (chain level operand bound left) := by
  induction bound generalizing left with
  | zero => exact blames_pure left
  | succ bound ih => exact blames_accept? (fun _ => .withCredit (h.bind fun _ => ih _)) (blames_pure left)

/-- The levels of infix operators blame what the tightest operand blames. -/
theorem infixes_blames {tightest : Parser Expr} (h : Blames [] tightest) (bound : Nat)
    (levels : List Level) : Blames [] (infixes bound tightest levels) := by
  induction levels with
  | nil => exact h
  | cons level tighter ih => exact ih.bind fun left => chain_blames ih bound left

/-- An assignment blames what its target and its value blame, and for an invalid target its equals sign, which it
has taken itself. -/
theorem assignment_blames {target inner : Parser Expr} (htarget : Blames [] target)
    (hinner : Blames [] inner) : Blames [] (assignment target inner) := by
  refine htarget.bind fun left => blames_accept? (fun equals => ?_) (blames_pure left)
  -- The equals sign has been taken, and is there to be blamed behind what is assigned.
  refine hinner.bind fun value => ?_
  cases left with
  | read name => exact blames_pure _
  | _ => exact (blames_pure value).behindReport equals

/-- An expression blames no token twice. -/
theorem expression_blames (bound : Nat) : Blames [] (expression bound) := by
  induction bound with
  | zero => exact blames_fail (by decide)
  | succ bound ih => exact assignment_blames (infixes_blames (unary_blames (primary_blames ih) _) _ levels) ih

/-! ## Statements -/

/-- An expression statement blames no token twice. -/
theorem expressionStatement_blames (bound : Nat) : Blames [] (expressionStatement bound) :=
  (expression_blames bound).bind fun _ => (blames_expect (by decide)).bind fun _ => blames_pure _

/-- A print statement blames no token twice. -/
theorem printStatement_blames (bound : Nat) : Blames [] (printStatement bound) :=
  (expression_blames bound).bind fun _ => (blames_expect (by decide)).bind fun _ => blames_pure _

/-- A declaration of a variable blames no token twice. -/
theorem varDeclaration_blames (bound : Nat) : Blames [] (varDeclaration bound) := by
  have hinitial : Blames [] (initializer? bound) :=
    blames_accept? (fun _ => .withCredit ((expression_blames bound).bind fun _ => blames_pure _))
      (blames_pure none)
  exact (blames_expect (by decide)).bind fun _ => hinitial.bind fun _ =>
    (blames_expect (by decide)).bind fun _ => blames_pure _

/-- An expression that may be missing blames no token twice. -/
theorem optionalExpression_blames (bound : Nat) (close : Kind) :
    Blames [] (optionalExpression bound close) := by
  refine blames_peekKind?.bind fun next => ?_
  split
  · exact blames_pure none
  · exact (expression_blames bound).bind fun _ => blames_pure _

/-- The first clause of a `for` statement blames no token twice. -/
theorem forInitial_blames (bound : Nat) : Blames [] (forInitial bound) := by
  refine blames_peekKind?.bind fun next => ?_
  split
  · exact blames_skip.bind fun _ => blames_pure none
  · exact blames_skip.bind fun _ => (varDeclaration_blames bound).bind fun _ => blames_pure _
  · exact (expressionStatement_blames bound).bind fun _ => blames_pure _

section
variable {bound : Nat} {inner : Parser Stmt}

/-- A `for` statement blames no token twice if its body does not. -/
theorem forStatement_blames (h : Blames [] inner) : Blames [] (forStatement bound inner) :=
  (blames_expect (by decide)).bind fun _ => (forInitial_blames bound).bind fun _ =>
    (optionalExpression_blames bound _).bind fun _ => (blames_expect (by decide)).bind fun _ =>
      (optionalExpression_blames bound _).bind fun _ => (blames_expect (by decide)).bind fun _ =>
        h.bind fun _ => blames_pure _

/-- An `if` statement blames no token twice if its branches do not. -/
theorem ifStatement_blames (h : Blames [] inner) : Blames [] (ifStatement bound inner) :=
  (blames_expect (by decide)).bind fun _ => (expression_blames bound).bind fun _ =>
    (blames_expect (by decide)).bind fun _ => h.bind fun _ =>
      blames_accept? (fun _ => .withCredit (h.bind fun _ => blames_pure _)) (blames_pure _)

/-- A `while` statement blames no token twice if its body does not. -/
theorem whileStatement_blames (h : Blames [] inner) : Blames [] (whileStatement bound inner) :=
  (blames_expect (by decide)).bind fun _ => (expression_blames bound).bind fun _ =>
    (blames_expect (by decide)).bind fun _ => h.bind fun _ => blames_pure _

/-- A declaration blames no token twice if the statements in it do not. -/
theorem declaration_blames (h : Blames [] inner) : Blames [] (declaration bound inner) := by
  refine blames_peekKind?.bind fun next => ?_
  split
  · exact blames_skip.bind fun _ => varDeclaration_blames bound
  · exact h

/-- Recovery takes the token that the fault blames, unless it blames the end. -/
theorem Blames.recovering {p : Parser α} (h : Blames [] p) : Blames [] (recovering p) := by
  intro stop tokens
  obtain ⟨⟨used, hused, hcount, horder⟩, hnext⟩ := h stop tokens
  rcases hfirst : p stop tokens with ⟨fault | a, reports, rest⟩ <;>
    rw [hfirst] at hused hcount horder hnext
  · obtain ⟨hunwinds, htoken⟩ := hnext fault rfl
    obtain ⟨passed, hpassed, -⟩ := synchronize_suffix rest
    -- What is blamed is among what recovery passes over.
    have hblamed : (blamed stop [fault]).Sublist passed := by
      cases rest with
      | nil => simp [blamed, htoken]
      | cons t rest =>
        obtain ⟨passed, hrest⟩ := skipStatement_suffix t rest
        have hcons : t :: rest = (t :: passed) ++ synchronize (t :: rest) := congrArg (t :: ·) hrest
        obtain rfl := List.append_cancel_right (hpassed.symm.trans hcons)
        have hsingle : (blamed stop [fault]).Sublist [t] := by
          rw [blamed, List.map_singleton, htoken]
          exact List.filter_sublist
        exact hsingle.trans (List.singleton_sublist.2 List.mem_cons_self)
    rw [recovering_of_error hfirst]
    refine ⟨⟨used ++ passed, ?_, fun q => ?_, ?_⟩, by rintro _ ⟨⟩⟩
    · rw [List.append_assoc, ← hpassed, hused]
    · have hfst := hcount q
      have hlast := hblamed.countP_le (p := q)
      simp only [blamed_append, List.countP_append, List.countP_nil] at hfst ⊢
      omega
    · have honly : [fault].filter ParseFault.unwinds = [fault] := List.filter_cons_of_pos hunwinds
      rw [List.filter_append, blamed_append, honly]
      exact horder.append hblamed
  · rw [recovering_of_ok hfirst]
    refine ⟨⟨used, hused, hcount, horder⟩, ?_⟩
    rintro _ ⟨⟩

/-- A row of declarations blames no token twice: the recovery from a fault takes the token that the fault blames.
-/
theorem declarations_blames (closing : List Kind) {one : Parser Stmt} (h : Blames [] one) (bound : Nat) :
    Blames [] (declarations closing one bound) := by
  induction bound with
  | zero => exact blames_pure []
  | succ bound ih =>
    refine blames_peekKind?.bind fun next => ?_
    cases next with
    | none => exact blames_pure []
    | some kind =>
      dsimp only
      split
      · exact blames_pure []
      · exact h.recovering.bind fun _ => ih.bind fun _ => blames_pure _

/-- A block blames no token twice. For a missing brace it blames the next token, behind all that its declarations
took. -/
theorem block_blames (h : Blames [] inner) : Blames [] (block bound inner) :=
  (declarations_blames _ (declaration_blames h) bound).bind fun _ =>
    (blames_expect (by decide)).bind fun _ => blames_pure _

end

/-- A statement blames no token twice. -/
theorem statement_blames (bound : Nat) : Blames [] (statement bound) := by
  induction bound with
  | zero => exact blames_fail (by decide)
  | succ bound ih =>
    refine blames_peekKind?.bind fun next => ?_
    split
    · exact blames_skip.bind fun _ => forStatement_blames ih
    · exact blames_skip.bind fun _ => ifStatement_blames ih
    · exact blames_skip.bind fun _ => whileStatement_blames ih
    · exact blames_skip.bind fun _ => block_blames ih
    · exact blames_skip.bind fun _ => printStatement_blames bound
    · exact expressionStatement_blames (bound + 1)

/-- A program blames no token twice. -/
theorem program_blames (bound : Nat) : Blames [] (program bound) :=
  declarations_blames [] (declaration_blames (statement_blames bound)) bound

/-- An expression with nothing behind it blames no token twice: what stands behind it is blamed where it begins. -/
theorem soleExpression_blames (bound : Nat) : Blames [] (soleExpression bound) := by
  refine (expression_blames bound).bind fun e => blames_peek?.bind fun next => ?_
  cases next with
  | none => exact blames_pure e
  | some t => exact blames_fail (by decide)

/-! ## What is reported of a whole list -/

section
variable {stop : Token} {tokens : List Token} {o : Outcome α}

/-- Without a credit, no token is blamed more often than it is in the list. -/
theorem BlamesAt.countP_le (h : BlamesAt [] stop tokens o) (q : Token → Bool) :
    (blamed stop o.reports).countP q ≤ tokens.countP q := by
  obtain ⟨used, hused, hcount, -⟩ := h.taken
  have htaken := hcount q
  rw [List.countP_nil, Nat.zero_add] at htaken
  rw [hused, List.countP_append]
  exact Nat.le_add_right_of_le htaken

/-- A report blames one of the tokens, or the one behind them. -/
theorem BlamesAt.token_mem (h : BlamesAt [] stop tokens o) {fault : ParseFault} (hfault : fault ∈ o.reports) :
    fault.token = stop ∨ fault.token ∈ tokens := by
  by_cases hstop : fault.token = stop
  · exact .inl hstop
  · have hblamed : fault.token ∈ blamed stop o.reports :=
      List.mem_filter.2 ⟨List.mem_map_of_mem hfault, decide_eq_true hstop⟩
    have hle := h.countP_le (· == fault.token)
    exact .inr (List.count_pos_iff.1 (Nat.lt_of_lt_of_le (List.count_pos_iff.2 hblamed) hle))

/-- So does the fault that stops a parser. -/
theorem BlamesAt.token_mem_of_error (h : BlamesAt [] stop tokens o) {fault : ParseFault}
    (hfault : o.result = .error fault) : fault.token = stop ∨ fault.token ∈ tokens := by
  obtain ⟨used, hused, -⟩ := h.taken
  rw [(h.next fault hfault).2, hused]
  cases o.rest with
  | nil => exact .inl rfl
  | cons t rest => exact .inr (List.mem_append_right used List.mem_cons_self)

/-- Where the tokens stand on different lines, so do those that are blamed. -/
theorem BlamesAt.pairwise_line_ne (h : BlamesAt [] stop tokens o)
    (hlines : (tokens.map Token.line).Nodup) :
    o.reports.Pairwise fun f g => f.token ≠ stop → g.token ≠ stop → f.token.line ≠ g.token.line := by
  have hnodup : ((blamed stop o.reports).map Token.line).Nodup := by
    refine List.nodup_iff_count_le_one.2 fun line => ?_
    have hone := List.nodup_iff_count_le_one.1 hlines line
    rw [List.count, List.countP_map] at hone ⊢
    exact Nat.le_trans (h.countP_le _) hone
  rw [List.Nodup, List.pairwise_map, blamed, List.pairwise_filter, List.pairwise_map] at hnodup
  simpa using hnodup

/-- The faults that unwind blame tokens in the order in which these stand. -/
theorem BlamesAt.unwinding_sublist (h : BlamesAt [] stop tokens o) :
    (blamed stop (o.reports.filter ParseFault.unwinds)).Sublist tokens := by
  obtain ⟨used, hused, -, horder⟩ := h.taken
  exact horder.trans (hused ▸ List.sublist_append_left used o.rest)

end

end Parser

namespace Parse

section
variable {body : List Token} {mark : Token}

/-- Before an end mark, a program is reported on as its body is, with the mark blamed at the end. -/
theorem program_append_mark_reports (hbody : ∀ t ∈ body, t.kind ≠ .eof) (hmark : mark.kind = .eof) :
    (program (body ++ [mark])).2 = (Parser.program body.length mark body).reports := by
  rw [program, Stream.ofTokens?_append_mark hbody hmark]

/-- No token is blamed twice. Where the tokens of a program stand on different lines, of two faults on one line
one is at the end, and both are if the end has a line of its own. The faults that unwind and are not at the end
blame tokens in the order in which these stand in the program. -/
theorem program_blames_once (hbody : ∀ t ∈ body, t.kind ≠ .eof) (hmark : mark.kind = .eof)
    (hlines : (body.map Token.line).Nodup) :
    ((program (body ++ [mark])).2.Pairwise fun f g =>
      f.diagnostic.line? = g.diagnostic.line? → f.atEnd ∨ g.atEnd) ∧
    (mark.line ∉ body.map Token.line → (program (body ++ [mark])).2.Pairwise fun f g =>
      f.diagnostic.line? = g.diagnostic.line? → f.atEnd ∧ g.atEnd) ∧
    (((program (body ++ [mark])).2.filter fun f => f.unwinds && !f.atEnd).map
      ParseFault.token).Sublist body := by
  have hblames := Parser.program_blames body.length mark body
  rw [program_append_mark_reports hbody hmark]
  generalize Parser.program body.length mark body = o at hblames
  have hend : ∀ f ∈ o.reports, (f.atEnd ↔ f.token = mark) := by
    intro f hf
    rw [ParseFault.atEnd_iff]
    rcases hblames.token_mem hf with hf | hf
    · exact iff_of_true (hf ▸ hmark) hf
    · exact iff_of_false (hbody f.token hf) (fun heq => hbody f.token hf (heq ▸ hmark))
  have hapart : o.reports.Pairwise fun f g =>
      f.diagnostic.line? = g.diagnostic.line? → f.token = mark ∨ g.token = mark := by
    refine (hblames.pairwise_line_ne hlines).imp fun {f g} hne hline => ?_
    by_contra hnone
    rw [not_or] at hnone
    exact hne hnone.1 hnone.2 (Option.some.inj hline)
  refine ⟨?_, fun hfresh => ?_, ?_⟩
  · refine hapart.imp_of_mem fun hf hg hsame hline => ?_
    rw [hend _ hf, hend _ hg]
    exact hsame hline
  · -- A token of the body is on another line than the mark.
    have hmarked : ∀ f ∈ o.reports, f.token.line = mark.line → f.atEnd := by
      intro f hf hline
      refine (hend f hf).2 ((hblames.token_mem hf).resolve_right fun hmem => hfresh ?_)
      exact hline ▸ List.mem_map_of_mem hmem
    refine hapart.imp_of_mem fun {f g} hf hg hsame hline => ?_
    have hlines : f.token.line = g.token.line := Option.some.inj hline
    rcases hsame hline with htoken | htoken
    · exact ⟨(hend f hf).2 htoken, hmarked g hg (by rw [← hlines, htoken])⟩
    · exact ⟨hmarked f hf (by rw [hlines, htoken]), (hend g hg).2 htoken⟩
  · have hfilter : (o.reports.filter fun f => f.unwinds && !f.atEnd).map ParseFault.token =
        blamed mark (o.reports.filter ParseFault.unwinds) := by
      rw [blamed, List.filter_map, List.filter_filter]
      refine congrArg (List.map _) (List.filter_congr fun f hf => ?_)
      have hplace : f.atEnd = decide (f.token = mark) := by
        rw [Bool.eq_iff_iff, decide_eq_true_iff]
        exact hend f hf
      rw [hplace, Function.comp_apply, decide_not, Bool.and_comm]
    rw [hfilter]
    exact hblames.unwinding_sublist

end

/-- The tokens of `{ 1 = 2; ( ;`, each on a line of its own. -/
def faultyBlock : List Token :=
  [⟨.leftBrace, "\x7b", none, 1⟩, ⟨.number, "1", none, 2⟩, ⟨.equal, "=", none, 3⟩,
    ⟨.number, "2", none, 4⟩, ⟨.semicolon, ";", none, 5⟩, ⟨.leftParen, "(", none, 6⟩,
    ⟨.semicolon, ";", none, 7⟩]

/-- An invalid target, a fault that recovery takes care of and a missing brace: they blame three tokens, and
the second of these is the only one that a fault that unwinds blames in the block. -/
theorem program_blames_once_faultyBlock :
    (program (faultyBlock ++ [Item.endMark 8])).2.map (fun f => (f.cause, f.token.line)) =
      [(.invalidTarget, 3), (.expression, 7), (.braceAfterBlock, 8)] ∧
    ((program (faultyBlock ++ [Item.endMark 8])).2.Pairwise fun f g =>
      f.diagnostic.line? = g.diagnostic.line? → f.atEnd ∧ g.atEnd) ∧
    (((program (faultyBlock ++ [Item.endMark 8])).2.filter fun f => f.unwinds && !f.atEnd).map
      ParseFault.token).Sublist faultyBlock := by
  have hbody : ∀ t ∈ faultyBlock, t.kind ≠ .eof := by decide
  have hmark : (Item.endMark 8).kind = .eof := rfl
  have hlines : (faultyBlock.map Token.line).Nodup := by decide
  obtain ⟨-, hends, horder⟩ := program_blames_once hbody hmark hlines
  exact ⟨by decide +kernel, hends (by decide), horder⟩

end Parse

end LoxLang
