import LoxLang.Proofs.Parse.ReadsExpr
import LoxLang.Proofs.Parse.Reaches

/-!
# The first fault is found at the earliest token

Every walker comes through or is stuck before a token that what it took cannot be completed with. This is proved
for each of them; the recursive ones are unrolled once, whatever their bound (`Parser.Steady`). Behind an expression
no token may follow that goes on with it, and behind a statement no `else` (`Follow.expression`, `Follow.statement`).
A name, and a name and a semicolon, are what these are filled up with.

For a program this means that the tokens before the cursor can be completed to a program without a fault that
unwinds, and with the token at the cursor they cannot (`Parse.program_raises_earliest`).
-/

namespace LoxLang

open LoxLang.Parser (Accepts Rejects Alike Follow Fills Sticks madeUp)

variable {α β : Type}

/-! ## Expressions -/

namespace Parser

/-- One parser with every bound: on tokens that two bounds reach, it is read in the same way with both. -/
def Steady (P : Token → Prop) (least : Nat) (p : Nat → Parser α) : Prop :=
  ∀ {size bound bound'}, size ≤ bound → size ≤ bound' → Local P least size (p bound) (p bound')

/-- What may follow an expression: no token that goes on with it. -/
def Follow.expression : Follow :=
  .except Grammar.expressionContinues

/-- What may follow a statement: no other branch of it. -/
def Follow.statement : Follow :=
  .except [.elseWord]

/-- What may not follow does not come next. -/
theorem nextNot_of_except {kinds : List Kind} {tokens : List Token}
    (h : Follow.except kinds (nextKind tokens)) : NextNot kinds tokens :=
  fun t ht => h t.kind (Option.mem_map_of_mem Token.kind ht)

/-- A name is an expression. -/
theorem expression_fills : Fills .expression (.only .identifier) expression := by
  refine ⟨[madeUp .identifier], .read (madeUp .identifier), by simp [madeUp], fun rest hrest => ⟨rfl, ?_⟩⟩
  intro bound stop hbound
  obtain ⟨bound, rfl⟩ : ∃ b, bound = b + 1 := ⟨bound - 1, by simp at hbound; omega⟩
  have hname : Grammar.CompleteFor bound .assignment [madeUp .identifier] (.read (madeUp .identifier)) :=
    Grammar.noAssign_complete (by simp) (Grammar.name_complete rfl)
  exact ⟨[], hname 1 stop rest (Nat.le_refl 1) (nextNot_of_except hrest), List.forall_mem_nil _⟩

section
variable {stop t : Token} {tokens : List Token} {bound : Nat}

/-- A parser that looks at the next token is chosen by it. -/
theorem peek?_bind (f : Option Token → Parser α) :
    (peek? >>= f) stop tokens = f tokens.head? stop tokens :=
  rfl

/-- Behind a left parenthesis, a primary is an expression and the right parenthesis. -/
theorem primary_of_leftParen {inner : Parser Expr} (h : t.kind = .leftParen) :
    primary inner stop (t :: tokens) = (do
      let e ← inner
      let _ ← expect .rightParen .parenAfterExpression
      return Expr.grouping e) stop tokens := by
  rw [primary, peek?_bind, List.head?_cons]
  dsimp only
  rw [h]
  rfl

/-- A token that no expression begins with is blamed by the parser of primaries. -/
theorem primary_of_notMem {inner : Parser Expr}
    (h : t.kind ∉ [.falseWord, .trueWord, .nullWord, .number, .string, .identifier, .leftParen]) :
    primary inner stop (t :: tokens) = ⟨.error ⟨.expression, t⟩, [], t :: tokens⟩ := by
  rw [primary, peek?_bind, List.head?_cons]
  dsimp only
  generalize t.kind = kind at h
  cases kind <;> first | rfl | exact absurd (by decide) h

/-- A token that is a whole expression is accepted before anything. -/
theorem primary_accepts {e : Expr} (h : Grammar.DerivesExpr .primary [t] e) (rest : List Token) :
    Accepts (fun n => primary (expression n)) (t :: rest) e rest := fun _ stop _ =>
  ⟨[], Grammar.primary_complete_single h 1 stop rest (Nat.le_refl 1) fun _ _ => List.not_mem_nil,
    List.forall_mem_nil _⟩

/-- Such a token is rejected, whatever stands behind it. -/
theorem primary_rejects
    (h : t.kind ∉ [.falseWord, .trueWord, .nullWord, .number, .string, .identifier, .leftParen])
    (more : List Token) : Rejects (fun n => primary (expression n)) (t :: more) := by
  intro bound stop _
  refine ⟨⟨.expression, t⟩, ?_, by simp [ParseFault.unwinds_iff]⟩
  show _ ∈ (primary (expression bound) stop (t :: more)).faults
  rw [primary_of_notMem h]
  simp [Outcome.faults]

/-- Where no unary operator comes next, a row of unary operators is its operand. -/
theorem unary_of_except {primary : Parser Expr} (h : Follow.except [.bang, .minus] (nextKind tokens)) :
    unary primary bound stop tokens = primary stop tokens := by
  cases bound with
  | zero => rfl
  | succ bound => exact accept?_bind_of_except h

/-- Operators before an expression are taken one by one, whatever the bound. -/
theorem unary_eq {primary : Nat → Parser Expr} (h : Steady InExpression 1 primary)
    (hbound : tokens.length ≤ bound) :
    unary (primary bound) bound stop tokens = (do
      match ← accept? [.bang, .minus] with
      | some operator => return Expr.unary operator (← unary (primary bound) bound)
      | none => primary bound) stop tokens := by
  cases bound with
  | zero =>
    obtain rfl := List.eq_nil_of_length_eq_zero (Nat.le_zero.1 hbound)
    rfl
  | succ bound =>
    have hle := Nat.le_succ bound
    have hunary := unary_local (h hle hle) (Nat.le_refl bound) hle
    refine (@Local.eq Expr InExpression 1 _ _ _ _ ?_ hbound stop).symm
    exact local_accept? (inExpression_of_mem (by decide))
      (fun operator => hunary.bind fun right => local_pure _) (h (Nat.le_refl _) (Nat.le_refl _))

/-- Where no operator of the level comes next, the chain is at its end. -/
theorem chain_of_except {level : Level} {operand : Parser Expr} {left : Expr}
    (h : Follow.except level.operators (nextKind tokens)) :
    chain level operand bound left stop tokens = ⟨.ok left, [], tokens⟩ := by
  cases bound with
  | zero => rfl
  | succ bound => exact accept?_bind_of_except h

/-- Operators behind an expression are taken one by one, whatever the bound. -/
theorem chain_eq {level : Level} (hlevel : level.operators ⊆ expressionKinds) {operand : Nat → Parser Expr}
    (h : Steady InExpression 1 operand) (left : Expr) (hbound : tokens.length ≤ bound) :
    chain level (operand bound) bound left stop tokens = (do
      match ← accept? level.operators with
      | some operator =>
        let right ← operand bound
        chain level (operand bound) bound (level.join left operator right)
      | none => return left) stop tokens := by
  cases bound with
  | zero =>
    obtain rfl := List.eq_nil_of_length_eq_zero (Nat.le_zero.1 hbound)
    rfl
  | succ bound =>
    have hle := Nat.le_succ bound
    have hoperand := h hle hle
    refine (@Local.eq Expr InExpression 0 _ _ _ _ ?_ hbound stop).symm
    refine local_accept? (inExpression_of_mem hlevel) (fun operator => ?_) (local_pure left)
    exact (hoperand.mono (Nat.zero_le 1)).bind fun right => chain_local hlevel hoperand (Nat.le_refl bound) hle _

/-- An expression is read in the same way if what is inside it has the same bound. -/
theorem expression_eq (hbound : tokens.length ≤ bound) : expression bound stop tokens =
    assignment (infixes bound (unary (primary (expression bound)) bound) levels) (expression bound)
      stop tokens := by
  cases bound with
  | zero =>
    obtain rfl := List.eq_nil_of_length_eq_zero (Nat.le_zero.1 hbound)
    rfl
  | succ bound =>
    have hinner := expression_local (Nat.le_refl bound) (Nat.le_succ bound)
    have hprimary : Local InExpression 1 (bound + 1) _ _ := primary_local hinner
    have hunary := unary_local hprimary (Nat.le_refl _) (Nat.le_refl _)
    have hinfixes := infixes_local hunary (Nat.le_refl _) (Nat.le_refl _) levels_subset_expressionKinds
    exact ((assignment_local hinfixes hinner).eq hbound stop).symm

end

end Parser

namespace Walker

section
variable {F F' G : Follow}

/-- A token that has to be there behind an expression. -/
theorem correct_closed {kind : Kind} {cause : ParseCause} {f : Token → Walker α} {g : Token → Nat → Parser α}
    (hkind : kind ∉ .eof :: Grammar.expressionContinues) (hcause : cause ≠ .invalidTarget)
    (hf : ∀ t, Correct F .any (f t) (g t)) :
    Correct F .expression (consume kind cause >>= f) (fun n => Parser.expect kind cause >>= fun t => g t n) := by
  rw [List.mem_cons, not_or] at hkind
  exact ((correct_consume hkind.1 hcause).bind hf).guard (Follow.except_of_only hkind.2)

/-- A primary is stuck before a token that no expression begins with, or within its brackets. It is filled up with
a name. -/
theorem primary_correct {w : Walker Expr} (h : Correct .expression G w Parser.expression) :
    Correct .any (.only .identifier) (primary w) (fun n => Parser.primary (Parser.expression n)) := by
  have hgroup : Correct .any G (do
      let e ← w
      let _ ← consume .rightParen .parenAfterExpression
      return Expr.grouping e) _ :=
    h.bind fun e => correct_closed (by decide) (by decide) fun _ => correct_pure (Expr.grouping e)
  constructor
  · intro tokens current stop ahead r hfaces hr
    -- A single token is a whole expression, which the walker answers behind it.
    have hsingle : ∀ {t rest e}, ahead = t :: rest → Grammar.DerivesExpr .primary [t] e →
        (pure e : Walker Expr) tokens (current + 1) = .ok r →
        Reaches .any (.only .identifier) (fun n => Parser.primary (Parser.expression n)) current stop ahead r := by
      rintro t rest e rfl hder ⟨⟩
      exact .through List.singleton_append.symm rfl rfl rfl rfl fun rest' _ =>
        ⟨Parser.primary_accepts hder rest', .inl rfl⟩
    have hprevious : ∀ {t rest}, ahead = t :: rest →
        previous tokens (current + 1) = .ok ⟨.ok t, [], [], current + 1⟩ := by
      rintro t rest rfl
      exact previous_of_getElem? hfaces.getElem?_eq
    refine .ifTakes hfaces hr (fun hahead hkind hr => hsingle hahead (.falseWord (by simpa using hkind)) hr) ?_
    intro hfalse hr
    refine .ifTakes hfaces hr (fun hahead hkind hr => hsingle hahead (.trueWord (by simpa using hkind)) hr) ?_
    intro htrue hr
    refine .ifTakes hfaces hr (fun hahead hkind hr => hsingle hahead (.nullWord (by simpa using hkind)) hr) ?_
    intro hnull hr
    refine .ifTakes hfaces hr (fun hahead hkind hr => ?_) fun hliteral hr => ?_
    · rw [bind_of_silent (hprevious hahead)] at hr
      rcases List.mem_cons.1 hkind with hkind | hkind
      · exact hsingle hahead (.number hkind) hr
      · exact hsingle hahead (.string (by simpa using hkind)) hr
    refine .ifTakes hfaces hr (fun hahead hkind hr => ?_) fun hname hr => ?_
    · rw [bind_of_silent (hprevious hahead)] at hr
      exact hsingle hahead (.read (by simpa using hkind)) hr
    refine .ifTakes hfaces hr (fun {t rest} hahead hkind hr => ?_) fun hparen hr => ?_
    · subst hahead
      refine (hgroup.earliest hfaces.next hr).cons hgroup.fills fun tokens => ?_
      exact Parser.alike_behind fun bound stop => Parser.primary_of_leftParen (by simpa using hkind)
    · rw [fail_of_faces .expression hfaces] at hr
      cases hr
      refine reaches_of_fault (by simp [ParseFault.unwinds_iff]) rfl ?_
      intro t ht
      have hkind : nextKind ahead = some t.kind := congrArg (Option.map Token.kind) ht
      have hnot := hfalse.append (htrue.append (hnull.append (hliteral.append (hname.append hparen))))
      rw [hkind, Follow.except_some] at hnot
      exact Parser.primary_rejects hnot
  · exact ⟨[madeUp .identifier], .read (madeUp .identifier), by simp [madeUp],
      fun rest _ => ⟨rfl, Parser.primary_accepts (.read rfl) rest⟩⟩

/-- A row of unary operators is stuck where its operand is. -/
theorem unary_correct {w : Walker Expr} {primary : Nat → Parser Expr}
    (h : Correct .any (.only .identifier) w primary) (hlocal : Parser.Steady Parser.InExpression 1 primary)
    (bound : Nat) :
    Correct .any (.only .identifier) (unary w bound) (fun n => Parser.unary (primary n) n) := by
  have hnext : ∀ next, Follow.only .identifier next → Follow.except [.bang, .minus] next :=
    Follow.except_of_only (by decide)
  have hfills : Fills .any (.only .identifier) (fun n => Parser.unary (primary n) n) :=
    h.fills.alike fun tokens hbegins => Parser.alike_of_eq fun bound stop _ =>
      Parser.unary_of_except (hnext _ hbegins)
  induction bound with
  | zero => exact ⟨earliest_breakOff .unfinished, hfills⟩
  | succ bound ih =>
    refine Correct.congr ?_ fun bound stop tokens hbound => Parser.unary_eq hlocal hbound
    exact correct_accept?_previous (fun operator => ih.bind fun right => correct_pure _) h hnext

/-- A chain of operators of one level is stuck in one of its operands. Behind it may follow what follows an operand
and is no operator of the level. -/
theorem chain_correct {level : Parser.Level} {w : Walker Expr} {operand : Nat → Parser Expr}
    (h : Correct F G w operand) (hlevel : level.operators ⊆ Parser.expressionKinds)
    (hlocal : Parser.Steady Parser.InExpression 1 operand) (hF : ∀ next, F' next → F next)
    (hF' : ∀ next, F' next → Follow.except level.operators next) (bound : Nat) (left : Expr) :
    Correct F' F' (loop (chainRound level w) bound left)
      (fun n => Parser.chain level (operand n) n left) := by
  have hfills : ∀ left, Fills F' F' (fun n => Parser.chain level (operand n) n left) := fun left =>
    (Parser.fills_pure left).alike fun tokens hbegins => Parser.alike_of_eq fun bound stop _ =>
      Parser.chain_of_except (hF' _ hbegins)
  induction bound generalizing left with
  | zero => exact ⟨earliest_breakOff .unfinished, hfills left⟩
  | succ bound ih =>
    rw [loop_chainRound]
    refine Correct.congr ?_ fun bound stop tokens hbound => Parser.chain_eq hlevel hlocal left hbound
    exact correct_accept?_previous (fun operator => h.bind fun right => (ih _).guard hF)
      (correct_pure left) hF'

/-- The levels of infix operators are stuck where the tightest operand is. Behind them may follow no operator of
any of them. -/
theorem infixes_correct {w : Walker Expr} {tightest : Nat → Parser Expr}
    (h : Correct .any G w tightest) (hlocal : Parser.Steady Parser.InExpression 1 tightest) (bound : Nat)
    {levels : List Parser.Level} (hlevels : ∀ level ∈ levels, level.operators ⊆ Parser.expressionKinds) :
    Correct (.except (levels.flatMap Parser.Level.operators)) G (infixes bound w levels)
      (fun n => Parser.infixes n (tightest n) levels) := by
  induction levels with
  | nil => exact h.follow fun _ _ => trivial
  | cons level tighter ih =>
    obtain ⟨hlevel, htighter⟩ := List.forall_mem_cons.1 hlevels
    have hoperand := ih htighter
    have hsteady : Parser.Steady Parser.InExpression 1 (fun n => Parser.infixes n (tightest n) tighter) :=
      fun hbound hbound' => Parser.infixes_local (hlocal hbound hbound') hbound hbound' htighter
    rw [List.flatMap_cons]
    have hbelow := Follow.except_mono (List.subset_append_right level.operators
      (tighter.flatMap Parser.Level.operators))
    have hchain := chain_correct hoperand hlevel hsteady hbelow
      (Follow.except_mono (List.subset_append_left _ _)) bound
    exact hoperand.bind fun left => (hchain left).guard hbelow

/-- An assignment is stuck in its target or in its value. An equals sign behind any other target is reported, but
reading goes on. -/
theorem assignment_correct {target inner : Walker Expr} {target' inner' : Nat → Parser Expr}
    (htarget : Correct (.except (Parser.levels.flatMap Parser.Level.operators)) G target target')
    (hinner : Correct .expression (.only .identifier) inner inner') :
    Correct .expression G (assignment target inner) (fun n => Parser.assignment (target' n) (inner' n)) := by
  have hlevels : ∀ next, Follow.expression next →
      Follow.except (Parser.levels.flatMap Parser.Level.operators) next :=
    Follow.except_mono (by decide)
  have hequal : ∀ next, Follow.expression next → Follow.except [.equal] next := Follow.except_mono (by decide)
  refine htarget.bind fun left => Correct.guard ?_ hlevels
  refine correct_accept?_previous (fun equals => hinner.bind fun value => ?_) (correct_pure left) hequal
  cases left with
  | read name => exact correct_pure _
  | _ =>
    have hquiet : ∀ fault ∈ [⟨.invalidTarget, equals⟩], ¬ ParseFault.unwinds fault := by
      simp [ParseFault.unwinds_iff]
    exact correct_of_quiet (fun _ _ => rfl) (fun _ _ _ => rfl) hquiet

/-- An expression is stuck at the earliest token that what was taken cannot be completed with. The induction is on
the bound of the walker, while the parser beside it is unrolled. -/
theorem expression_correct (bound : Nat) :
    Correct .expression (.only .identifier) (expression bound) Parser.expression := by
  have hprimary : Parser.Steady Parser.InExpression 1 (fun n => Parser.primary (Parser.expression n)) :=
    fun hbound hbound' =>
      Parser.primary_local ((Parser.expression_local hbound hbound').shrink (Nat.sub_le _ 1))
  have hunary : Parser.Steady Parser.InExpression 1
      (fun n => Parser.unary (Parser.primary (Parser.expression n)) n) :=
    fun hbound hbound' => Parser.unary_local (hprimary hbound hbound') hbound hbound'
  induction bound with
  | zero => exact ⟨earliest_breakOff .unfinished, Parser.expression_fills⟩
  | succ bound ih =>
    refine Correct.congr ?_ fun bound stop tokens hbound => Parser.expression_eq hbound
    exact assignment_correct (infixes_correct (unary_correct (primary_correct ih) hprimary _) hunary _
      Parser.levels_subset_expressionKinds) ih

end

end Walker

/-! ## Recovery and rows of declarations -/

namespace Parser

section
variable {stop : Token} {tokens : List Token} {bound : Nat}

/-- Two parsers that do the same with some tokens do the same before a third one. -/
theorem bind_eq_of_eq {p q : Parser α} {f : α → Parser β} (h : p stop tokens = q stop tokens) :
    (p >>= f) stop tokens = (q >>= f) stop tokens := by
  show andThen p f stop tokens = andThen q f stop tokens
  simp only [andThen, h]

/-- Where a closing token or the end comes next, a row of declarations is at its end. -/
theorem declarations_of_closing {closing : List Kind} {one : Parser Stmt}
    (h : Follow.closing closing (nextKind tokens)) :
    declarations closing one bound stop tokens = ⟨.ok [], [], tokens⟩ := by
  cases bound with
  | zero => rfl
  | succ bound =>
    rw [declarations, peekKind?_bind]
    cases tokens with
    | nil => rfl
    | cons t rest =>
      have ht : t.kind ∈ closing := h t.kind rfl
      rw [List.head?_cons, Option.map_some]
      dsimp only
      rw [if_pos ht]
      rfl

/-- Declarations are read one by one, whatever the bound. -/
theorem declarations_eq {closing : List Kind} {one : Nat → Parser Stmt} (h : Steady Anything 1 one)
    (hopen : Follow.opening closing (nextKind tokens)) (hbound : tokens.length ≤ bound) :
    declarations closing (one bound) bound stop tokens = (do
      let first ← recovering (one bound)
      let others ← declarations closing (one bound) bound
      return first.toList ++ others) stop tokens := by
  obtain ⟨kind, hnext, hkind⟩ := hopen
  obtain ⟨t, rest, rfl, rfl⟩ := head?_kind_eq_some_iff.1 hnext
  obtain ⟨bound, rfl⟩ : ∃ b, bound = b + 1 := ⟨bound - 1, by simp at hbound; omega⟩
  have hone := h (Nat.le_refl (bound + 1)) (Nat.le_refl (bound + 1))
  have hfirst := (hone _ hbound).recovering (List.cons_ne_nil t rest)
  have hothers := declarations_local closing (hone.shrink (Nat.le_succ bound)) (Nat.le_refl bound)
    (Nat.le_succ bound)
  have hsize : (t :: rest).length - 1 ≤ bound := Nat.le_of_succ_le_succ hbound
  have hlocal := hfirst.bind (k := 0) fun first =>
    (hothers.shrink hsize).bind fun others => local_pure (first.toList ++ others)
  refine Eq.trans ?_ (hlocal.eq stop).symm
  rw [declarations, peekKind?_bind, List.head?_cons, Option.map_some]
  dsimp only
  rw [if_neg hkind]

end

end Parser

namespace Walker

/-- The rule for a row of declarations, behind those that were read before it. -/
theorem row_correct {closed : Walker Bool} {closing : List Kind} {w : Walker (Option Stmt)}
    {one : Nat → Parser Stmt} (hclosed : Closes closed closing)
    (hclosing : ∀ kind ∈ closing, kind ∉ [.elseWord, .identifier])
    (hw : Correct .statement (.only .identifier) w (fun n => Parser.recovering (one n)))
    (hsteady : Parser.Steady Parser.Anything 1 one) (bound : Nat) (found : List Stmt) :
    Correct (.closing closing) .statement (loop (rowRound closed w) bound found)
      (fun n => do return found ++ (← Parser.declarations closing (one n) n)) := by
  have helse : ∀ next, Follow.closing closing next → Follow.statement next :=
    Follow.except_of_closing fun kind hkind hmem => hclosing kind hkind (by simp_all)
  have hname : ∀ next, Follow.only .identifier next → Follow.opening closing next := by
    rintro _ rfl
    exact ⟨.identifier, rfl, fun hmem => hclosing _ hmem (by simp)⟩
  -- Before a token that closes it, the row is empty.
  have hempty : ∀ found tokens, Follow.closing closing (nextKind tokens) →
      Alike (fun n => do return found ++ (← Parser.declarations closing (one n) n)) tokens
        (fun _ => pure found) tokens := by
    intro found tokens htokens
    refine Parser.alike_of_eq fun bound stop _ => ?_
    show (Parser.declarations closing (one bound) bound >>= fun others => pure (found ++ others)) stop tokens = _
    rw [Parser.bind_of_ok (Parser.declarations_of_closing htokens), List.append_nil]
    rfl
  -- Otherwise it begins with a declaration.
  have hunroll : ∀ found tokens, Follow.opening closing (nextKind tokens) →
      Alike (fun n => do return found ++ (← Parser.declarations closing (one n) n)) tokens
        (fun n => do
          let first ← Parser.recovering (one n)
          return (found ++ first.toList) ++ (← Parser.declarations closing (one n) n)) tokens := by
    intro found tokens htokens
    refine Parser.alike_of_eq fun bound stop hbound => ?_
    refine (Parser.bind_eq_of_eq (Parser.declarations_eq hsteady htokens hbound)).trans ?_
    simp only [bind_assoc, pure_bind, List.append_assoc]
  have hfills : ∀ found, Fills (.closing closing) .statement
      (fun n => do return found ++ (← Parser.declarations closing (one n) n)) := fun found =>
    ((Parser.fills_pure found).alike (hempty found)).mono (fun _ => id) helse
  induction bound generalizing found with
  | zero => exact ⟨earliest_breakOff .unfinished, hfills found⟩
  | succ bound ih =>
    refine ⟨fun tokens current stop ahead r hfaces hr => ?_, hfills found⟩
    have hend := hclosed.of_faces hfaces
    cases hdone : (ahead.head?.map Token.kind).all (· ∈ closing) <;> rw [hdone] at hend
    case true =>
      rw [loop_rowRound_of_closed hend] at hr
      have hpure : Reaches (.closing closing) (.closing closing) (fun _ => pure found) current stop ahead r :=
        (correct_pure found).earliest hfaces hr
      exact (hpure.alike (hempty found) (Follow.closing_of_all hdone) fun _ => id).mono (fun _ => id) helse
    case false =>
      rw [loop_rowRound_of_open hend] at hr
      have hreaches := Reaches.bind hr (fun hfirst => hw.earliest hfaces hfirst)
        (fun {first used rest second} hahead hsecond => (ih (found ++ first.toList)).earliest
          (hahead ▸ hfaces).move hsecond) (fun first => hfills _)
      have hrow := hreaches.alike (hunroll found) (Follow.opening_of_all hdone) hname
      exact hrow.mono (fun _ => id) (Follow.except_of_only (by decide))

end Walker

/-! ## Statements -/

namespace Parser

section
variable {stop t : Token} {tokens : List Token} {bound : Nat}

/-- Where the token that closes the clause comes next, the expression is missing. -/
theorem optionalExpression_of_only {close : Kind} (h : Follow.only close (nextKind tokens)) :
    optionalExpression bound close stop tokens = ⟨.ok none, [], tokens⟩ := by
  have hclose : nextKind tokens = some close := h
  show (if nextKind tokens = some close then pure none else _ : Parser (Option Expr)) stop tokens = _
  rw [if_pos hclose]
  rfl

/-- Where another token comes next, the expression has to be there. -/
theorem optionalExpression_of_except {close : Kind} (h : Follow.except [close] (nextKind tokens)) :
    optionalExpression bound close stop tokens = (do return some (← expression bound)) stop tokens := by
  have hnot : nextKind tokens ≠ some close := fun hclose => h close hclose List.mem_cons_self
  show (if nextKind tokens = some close then pure none else _ : Parser (Option Expr)) stop tokens = _
  rw [if_neg hnot]

/-- The first clause of a `for` statement is chosen by the token that it begins with. -/
theorem forInitial_cons (bound : Nat) (stop t : Token) (tokens : List Token) :
    forInitial bound stop (t :: tokens) =
      match t.kind with
      | .semicolon => (pure none : Parser (Option Stmt)) stop tokens
      | .varWord => (do return some (← varDeclaration bound)) stop tokens
      | _ => (do return some (← expressionStatement bound)) stop (t :: tokens) := by
  rw [forInitial, peekKind?_bind, List.head?_cons, Option.map_some]
  cases t.kind <;> rfl

/-- Where neither a semicolon nor `var` comes next, the clause is an expression statement. -/
theorem forInitial_of_except (h : Follow.except [.semicolon, .varWord] (nextKind tokens)) :
    forInitial bound stop tokens = (do return some (← expressionStatement bound)) stop tokens := by
  cases tokens with
  | nil => rfl
  | cons t rest =>
    rw [forInitial_cons]
    split <;> next hkind => first | rfl | exact absurd (by rw [hkind]; decide) (Follow.except_some.1 h)

/-- A declaration that begins with `var` is one of a variable, which is read behind that word. -/
theorem declaration_of_varWord {inner : Parser Stmt} (h : t.kind = .varWord) :
    declaration bound inner stop (t :: tokens) = varDeclaration bound stop tokens := by
  rw [declaration, peekKind?_bind, List.head?_cons, Option.map_some, h]
  rfl

/-- A statement is chosen by its first token. -/
theorem statement_cons (bound : Nat) (stop t : Token) (tokens : List Token) :
    statement (bound + 1) stop (t :: tokens) =
      match t.kind with
      | .forWord => forStatement bound (statement bound) stop tokens
      | .ifWord => ifStatement bound (statement bound) stop tokens
      | .whileWord => whileStatement bound (statement bound) stop tokens
      | .leftBrace => block bound (statement bound) stop tokens
      | .printWord => printStatement bound stop tokens
      | _ => expressionStatement (bound + 1) stop (t :: tokens) := by
  rw [statement, peekKind?_bind, List.head?_cons, Option.map_some]
  cases t.kind <;> rfl

/-- What begins with no word of its own is an expression statement. -/
theorem statement_of_except (h : Follow.except openings (nextKind tokens)) (hbound : tokens.length ≤ bound) :
    statement bound stop tokens = expressionStatement bound stop tokens := by
  cases bound with
  | zero =>
    obtain rfl := List.eq_nil_of_length_eq_zero (Nat.le_zero.1 hbound)
    rfl
  | succ bound => exact statement_eq_expressionStatement bound stop (nextNot_of_except h)

end

end Parser

namespace Walker

section
variable {G : Follow} {inner : Walker Stmt} {inner' : Nat → Parser Stmt} (bound : Nat)

/-- An expression statement is stuck in its expression or before its semicolon. -/
theorem expressionStatement_correct :
    Correct .any (.only .identifier) (expressionStatement bound) Parser.expressionStatement :=
  (expression_correct bound).bind fun _ => correct_closed (by decide) (by decide) fun _ => correct_pure _

/-- A print statement is stuck in its expression or before its semicolon. -/
theorem printStatement_correct :
    Correct .any (.only .identifier) (printStatement bound) Parser.printStatement :=
  (expression_correct bound).bind fun _ => correct_closed (by decide) (by decide) fun _ => correct_pure _

/-- An initial value that may be missing is stuck in the expression behind its equals sign. -/
theorem initializer?_correct : Correct .expression .expression (initializer? bound) Parser.initializer? :=
  correct_accept?_drop (fun _ => (expression_correct bound).bind fun _ => correct_pure _) (correct_pure none)
    (Follow.except_mono (by decide))

/-- A declaration of a variable is stuck before its name, in its initial value or before its semicolon. -/
theorem varDeclaration_correct :
    Correct .any (.only .identifier) (varDeclaration bound) Parser.varDeclaration :=
  (correct_consume (by decide) (by decide)).bind fun _ => (initializer?_correct bound).anywhere.bind fun _ =>
    correct_closed (by decide) (by decide) fun _ => correct_pure _

/-- An expression that may be missing is stuck in the expression. It is missing before the token that closes it,
which therefore must not go on with an expression. -/
theorem optionalExpression_correct {close : Kind} (hclose : close ∉ .identifier :: Grammar.expressionContinues) :
    Correct (.only close) .any (optionalExpression bound close)
      (fun n => Parser.optionalExpression n close) := by
  have habsent : ∀ tokens, Follow.only close (nextKind tokens) →
      Alike (fun n => Parser.optionalExpression n close) tokens (fun _ => pure none) tokens :=
    fun tokens hnext => Parser.alike_of_eq fun bound stop _ => Parser.optionalExpression_of_only hnext
  have hpresent : ∀ tokens, Follow.except [close] (nextKind tokens) →
      Alike (fun n => Parser.optionalExpression n close) tokens
        (fun n => do return some (← Parser.expression n)) tokens :=
    fun tokens hnext => Parser.alike_of_eq fun bound stop _ => Parser.optionalExpression_of_except hnext
  have hname : Kind.identifier ∉ [close] := fun h => hclose (by simp_all)
  have hexpression : Correct (.only close) (.only .identifier) (do return some (← expression bound))
      (fun n => do return some (← Parser.expression n)) :=
    ((expression_correct bound).bind fun e => correct_pure (some e)).follow
      (Follow.except_of_only fun h => hclose (List.mem_cons_of_mem _ h))
  have hnone : Correct (.only close) (.only close) (pure none) (fun _ => pure (none : Option Expr)) :=
    correct_pure none
  refine ⟨fun tokens current stop ahead r hfaces hr => ?_, ?_⟩
  · rw [optionalExpression, bind_of_silent (check_of_faces close hfaces)] at hr
    by_cases hnext : nextKind ahead = some close
    · rw [decide_eq_true hnext] at hr
      exact ((hnone.earliest hfaces hr).alike habsent hnext fun _ => id).mono (fun _ => id) fun _ _ => trivial
    · rw [decide_eq_false hnext] at hr
      have hreaches := (hexpression.earliest hfaces hr).alike hpresent (Follow.except_singleton hnext)
        (Follow.except_of_only hname)
      exact hreaches.mono (fun _ => id) fun _ _ => trivial
  · exact (hnone.fills.alike habsent).mono (fun _ => id) fun _ _ => trivial

/-- The first clause of a `for` statement is stuck in the declaration or the statement that it is. -/
theorem forInitial_correct : Correct .any .any (forInitial bound) Parser.forInitial := by
  have hvar := (varDeclaration_correct bound).bind fun s => correct_pure (some s)
  have hstmt := (expressionStatement_correct bound).bind fun s => correct_pure (some s)
  have hplain : ∀ tokens, Follow.except [.semicolon, .varWord] (nextKind tokens) →
      Alike Parser.forInitial tokens (fun n => do return some (← Parser.expressionStatement n)) tokens :=
    fun tokens hnext => Parser.alike_of_eq fun bound stop _ => Parser.forInitial_of_except hnext
  have hname : ∀ next, Follow.only .identifier next → Follow.except [.semicolon, .varWord] next :=
    Follow.except_of_only (by decide)
  refine ⟨fun tokens current stop ahead r hfaces hr => ?_,
    (hstmt.fills.alike fun tokens hbegins => hplain tokens (hname _ hbegins)).mono (fun _ => id) fun _ _ => trivial⟩
  refine .behindWord (correct_pure none) hfaces hr (fun ht _ => Parser.alike_behind ?_) fun hsemicolon hr => ?_
  · exact fun bound stop => by rw [Parser.forInitial_cons, ht]
  refine .behindWord hvar hfaces hr (fun ht _ => Parser.alike_behind ?_) fun hword hr => ?_
  · exact fun bound stop => by rw [Parser.forInitial_cons, ht]
  · have hreaches := (hstmt.earliest hfaces hr).alike hplain (hsemicolon.append hword) hname
    exact hreaches.mono (fun _ => id) fun _ _ => trivial

/-- A `for` statement is stuck in one of its clauses, before what stands between them, or in its body. -/
theorem forStatement_correct (h : Correct .statement G inner inner') :
    Correct .statement (.only .leftParen) (forStatement bound inner)
      (fun n => Parser.forStatement n (inner' n)) :=
  (correct_consume (by decide) (by decide)).bind fun _ => (forInitial_correct bound).bind fun _ =>
    (optionalExpression_correct bound (by decide)).bind fun _ =>
      (correct_consume (by decide) (by decide)).bind fun _ =>
        (optionalExpression_correct bound (by decide)).bind fun _ =>
          (correct_consume (by decide) (by decide)).bind fun _ =>
            h.anywhere.bind fun _ => correct_pure _

/-- An `if` statement is stuck in its condition or in one of its branches. No other branch may follow it. -/
theorem ifStatement_correct (h : Correct .statement G inner inner') :
    Correct .statement (.only .leftParen) (ifStatement bound inner)
      (fun n => Parser.ifStatement n (inner' n)) := by
  refine (correct_consume (by decide) (by decide)).bind fun _ => (expression_correct bound).anywhere.bind fun _ =>
    correct_closed (by decide) (by decide) fun _ => h.anywhere.bind fun _ => ?_
  exact correct_accept?_drop (fun _ => h.bind fun _ => correct_pure _) (correct_pure _) fun _ => id

/-- A `while` statement is stuck in its condition or in its body. -/
theorem whileStatement_correct (h : Correct .statement G inner inner') :
    Correct .statement (.only .leftParen) (whileStatement bound inner)
      (fun n => Parser.whileStatement n (inner' n)) :=
  (correct_consume (by decide) (by decide)).bind fun _ => (expression_correct bound).anywhere.bind fun _ =>
    correct_closed (by decide) (by decide) fun _ => h.anywhere.bind fun _ => correct_pure _

/-- A declaration is stuck where what it consists of is. The recovery from its fault comes behind the first fault,
so it plays no part. -/
theorem declaration_correct (h : Correct .statement (.only .identifier) inner inner') (hkeeps : Keeps 0 inner) :
    Correct .statement (.only .identifier) (declaration bound inner)
      (fun n => Parser.recovering (Parser.declaration n (inner' n))) := by
  have hplain : ∀ tokens, Follow.except [.varWord] (nextKind tokens) →
      Alike (fun n => Parser.declaration n (inner' n)) tokens inner' tokens :=
    fun tokens hnext => Parser.alike_of_eq fun bound stop _ =>
      Parser.declaration_eq_statement (Parser.nextNot_of_except hnext)
  have hname : ∀ next, Follow.only .identifier next → Follow.except [.varWord] next :=
    Follow.except_of_only (by decide)
  have hvar : Correct .statement (.only .identifier) (varDeclaration bound) Parser.varDeclaration :=
    (varDeclaration_correct bound).follow fun _ _ => trivial
  refine Correct.recovering ⟨fun tokens current stop ahead r hfaces hr => ?_, ?_⟩
    (keeps_ifTakes (by decide) (varDeclaration_keeps bound) hkeeps) bound
  · refine .behindWord hvar hfaces hr (fun ht _ => Parser.alike_behind ?_)
      fun hword hr => (h.earliest hfaces hr).alike hplain hword hname
    exact fun bound stop => Parser.declaration_of_varWord ht
  · exact h.fills.alike fun tokens hbegins => hplain tokens (hname _ hbegins)

/-- A block is stuck in one of its declarations, or before its brace. -/
theorem block_correct (h : Correct .statement (.only .identifier) inner inner') (hkeeps : Keeps 0 inner)
    (hsteady : Parser.Steady Parser.Anything 1 inner') :
    Correct .any .statement (block bound inner) (fun n => Parser.block n (inner' n)) := by
  have hrow := row_correct isAtBrace_closes (by decide) (declaration_correct bound h hkeeps)
    (fun hbound hbound' => Parser.declaration_local hbound hbound' (hsteady hbound hbound')) bound []
  simp only [List.nil_append, bind_pure] at hrow
  refine hrow.bind fun _ => Correct.guard (G := .only .rightBrace) ?_ ?_
  · exact (correct_consume (by decide) (by decide)).bind fun _ => correct_pure _
  · rintro _ rfl _ ⟨⟩
    exact List.mem_cons_self

/-- A statement is stuck where the one of its forms is that its first token chooses. -/
theorem statement_correct : Correct .statement (.only .identifier) (statement bound) Parser.statement := by
  have hplain : ∀ tokens, Follow.except Parser.openings (nextKind tokens) →
      Alike Parser.statement tokens Parser.expressionStatement tokens :=
    fun tokens hnext => Parser.alike_of_eq fun bound stop hbound => Parser.statement_of_except hnext hbound
  have hname : ∀ next, Follow.only .identifier next → Follow.except Parser.openings next :=
    Follow.except_of_only (by decide)
  have hany : ∀ next, Follow.statement next → Follow.any next := fun _ _ => trivial
  have hfills : Fills .statement (.only .identifier) Parser.statement :=
    ((expressionStatement_correct bound).follow hany).fills.alike fun tokens hbegins =>
      hplain tokens (hname _ hbegins)
  -- Behind its word, a statement has one token less to read.
  have hword : ∀ {t : Token} {p : Nat → Parser Stmt} {tokens : List Token},
      (∀ bound stop, Parser.statement (bound + 1) stop (t :: tokens) = p bound stop tokens) →
      Alike Parser.statement (t :: tokens) p tokens := by
    intro t p tokens heq bound stop hbound
    obtain ⟨bound, rfl⟩ : ∃ b, bound = b + 1 := ⟨bound - 1, by simp at hbound; omega⟩
    exact ⟨bound, Nat.le_of_succ_le_succ hbound, heq bound stop⟩
  induction bound with
  | zero => exact ⟨earliest_breakOff .unfinished, hfills⟩
  | succ bound ih =>
    refine ⟨fun tokens current stop ahead r hfaces hr => ?_, hfills⟩
    rw [statement, bind_of_silent (peek_of_faces hfaces)] at hr
    have hblock := (block_correct bound ih (statement_keeps bound) Parser.statement_local).follow hany
    have hprint := (printStatement_correct bound).follow hany
    refine .behindWord (forStatement_correct bound ih) hfaces hr (fun ht _ => hword ?_) fun hfor hr => ?_
    · exact fun bound stop => by rw [Parser.statement_cons, ht]
    refine .behindWord (ifStatement_correct bound ih) hfaces hr (fun ht _ => hword ?_) fun hif hr => ?_
    · exact fun bound stop => by rw [Parser.statement_cons, ht]
    refine .behindWord (whileStatement_correct bound ih) hfaces hr (fun ht _ => hword ?_) fun hwhile hr => ?_
    · exact fun bound stop => by rw [Parser.statement_cons, ht]
    refine .behindWord hblock hfaces hr (fun ht _ => hword ?_) fun hbrace hr => ?_
    · exact fun bound stop => by rw [Parser.statement_cons, ht]
    refine .behindWord hprint hfaces hr (fun ht _ => hword ?_) fun hprint hr => ?_
    · exact fun bound stop => by rw [Parser.statement_cons, ht]
    · have hreaches := ((expressionStatement_correct (bound + 1)).follow hany).earliest hfaces hr
      exact hreaches.alike hplain (hfor.append (hif.append (hwhile.append (hbrace.append hprint)))) hname

/-- A program is stuck in the first of its declarations that is. -/
theorem program_correct :
    Correct (.closing []) .statement (loop (programRound bound) bound []) Parser.program := by
  have hone := declaration_correct bound (statement_correct bound) (statement_keeps bound)
  have hrow := row_correct isAtEnd_closes (by decide) hone Parser.declaration_statement_local bound []
  simp only [List.nil_append, bind_pure] at hrow
  exact hrow

end

end Walker

/-! ## Programs -/

/-- What a token list begins with is read, if no end mark is in it. -/
theorem Stream.ofTokens?_begins {front : List Token} (hne : front ≠ []) (hfront : ∀ t ∈ front, t.kind ≠ .eof)
    (more : List Token) : ∃ more' stop, Stream.ofTokens? (front ++ more) = some ⟨front ++ more', stop⟩ := by
  have hlast := List.getLast?_eq_some_getLast (List.append_ne_nil_of_left_ne_nil hne more)
  have htake : (front ++ more).takeWhile (·.kind ≠ .eof) = front ++ more.takeWhile (·.kind ≠ .eof) :=
    List.takeWhile_append_of_pos (by simpa using hfront)
  exact ⟨_, _, by rw [Stream.ofTokens?, hlast, Option.map_some, htake]⟩

namespace Parse

/-- Where the cursor stands when the first fault that unwinds is raised, while a token list is read as a
program. -/
def raisedAt? (tokens : List Token) : Option Nat :=
  match Walker.program (tokens.length + 1) tokens 0 with
  | .ok r => r.recoveries.head?.map Prod.fst
  | .error _ => none

/-- A program that is accepted is read without a fault that unwinds. -/
theorem not_unwinds_of_accepts {body rest : List Token} {mark : Token} {trees : List Stmt}
    (hbody : ∀ t ∈ body, t.kind ≠ .eof) (hmark : mark.kind = .eof)
    (h : Accepts Parser.program body trees rest) : ∀ fault ∈ (program (body ++ [mark])).2, ¬ fault.unwinds := by
  obtain ⟨reports, hprogram, hreports⟩ := h body.length mark (Nat.le_refl _)
  rw [program, Stream.ofTokens?_append_mark hbody hmark]
  dsimp only
  rwa [hprogram]

/-- A program that is rejected is read with a fault that unwinds. -/
theorem exists_unwinds_of_rejects {tokens : List Token} {stream : Stream}
    (hstream : Stream.ofTokens? tokens = some stream) (h : Rejects Parser.program stream.body) :
    ∃ fault ∈ (program tokens).2, fault.unwinds := by
  obtain ⟨fault, hfault, hunwinds⟩ := h stream.body.length stream.stop (Nat.le_refl _)
  obtain ⟨trees, htrees⟩ := Parser.total_declarations [] _ stream.body.length stream.stop stream.body
  rw [program, hstream]
  refine ⟨fault, ?_, hunwinds⟩
  rwa [Outcome.faults, Parser.program, htrees] at hfault

/-- Where reading is stuck, the program can be completed. -/
theorem exists_accepted_of_sticks {F : Follow} {used rest : List Token} {mark : Token}
    (h : Sticks (.closing []) Parser.program used rest) (hfills : Fills (.closing []) F Parser.program)
    (hused : ∀ t ∈ used, t.kind ≠ .eof) (hmark : mark.kind = .eof) :
    ∃ more, (∀ t ∈ more, t.kind ≠ .eof) ∧ ∀ fault ∈ (program (used ++ more ++ [mark])).2, ¬ fault.unwinds := by
  obtain ⟨more, trees, hmore, haccepts⟩ := h.exists_completion hfills
  have hprogram : Accepts Parser.program (used ++ more) trees [] := by simpa using haccepts [] nofun
  exact ⟨more, hmore, not_unwinds_of_accepts (List.forall_mem_append.2 ⟨hused, hmore⟩) hmark hprogram⟩

/-- With the next token it cannot. -/
theorem exists_unwinds_of_sticks {F : Follow} {used rest : List Token} {t : Token}
    (h : Sticks F Parser.program used (t :: rest)) (hused : ∀ u ∈ used ++ [t], u.kind ≠ .eof)
    (more : List Token) : ∃ fault ∈ (program (used ++ [t] ++ more)).2, fault.unwinds := by
  obtain ⟨more', stop, hstream⟩ := Stream.ofTokens?_begins (by simp) hused more
  refine exists_unwinds_of_rejects hstream ?_
  rw [List.append_assoc]
  exact h.rejects t rfl more'

/-- The first fault that unwinds is raised at the earliest token. There is such a fault exactly if the cursor
stands somewhere when it is raised, and then it blames the token there. The tokens before the cursor can be
completed to a program without such a fault. With the token at the cursor they cannot, whatever stands behind it,
unless it is the end mark. -/
theorem program_raises_earliest {body : List Token} {mark : Token} (hbody : ∀ t ∈ body, t.kind ≠ .eof)
    (hmark : mark.kind = .eof) :
    ((∃ fault ∈ (program (body ++ [mark])).2, fault.unwinds) ↔ ∃ p, raisedAt? (body ++ [mark]) = some p) ∧
    ∀ p, raisedAt? (body ++ [mark]) = some p →
      p ≤ body.length ∧
      ((program (body ++ [mark])).2.find? ParseFault.unwinds).map ParseFault.token = (body ++ [mark])[p]? ∧
      (∃ rest, (∀ t ∈ rest, t.kind ≠ .eof) ∧
        ∀ fault ∈ (program (body.take p ++ rest ++ [mark])).2, ¬ fault.unwinds) ∧
      (p < body.length → ∀ rest, ∃ fault ∈ (program (body.take (p + 1) ++ rest)).2, fault.unwinds) := by
  have hstream := Stream.ofTokens?_append_mark hbody hmark
  have hfaces := Faces.of_ofTokens? hstream
  obtain ⟨recoveries, current, -, hwalk⟩ := Walker.program_of_ofTokens? hstream (Nat.lt_succ_self _) 0
  have hraisedAt : raisedAt? (body ++ [mark]) = recoveries.head?.map Prod.fst := by rw [raisedAt?, hwalk]
  have hcorrect := Walker.program_correct ((body ++ [mark]).length + 1)
  rw [Walker.program_eq_loop hfaces.length_pos] at hwalk
  rw [hraisedAt]
  -- The walk comes through to the end, or is stuck at the cursor of its first recovery.
  cases hcorrect.earliest hfaces hwalk with
  | through _ hraised hblamed _ _ _ =>
    have hstart : recoveries.head?.map Prod.fst = none := Option.or_none.symm.trans hraised
    have hfind : (program (body ++ [mark])).2.find? ParseFault.unwinds = none := Option.map_eq_none_iff.1 hblamed
    rw [hstart]
    refine ⟨⟨?_, nofun⟩, nofun⟩
    rintro ⟨fault, hfault, hunwinds⟩
    exact absurd hunwinds (List.find?_eq_none.1 hfind fault hfault)
  | @stuck used rest hused hraised hblamed hsticks =>
    have hstart : recoveries.head?.map Prod.fst = some (0 + used.length) := Option.or_none.symm.trans hraised
    obtain ⟨fault, hfind, -⟩ := Option.map_eq_some_iff.1 hblamed
    rw [hstart, Nat.zero_add]
    refine ⟨⟨fun _ => ⟨_, rfl⟩, fun _ => ⟨fault, List.mem_of_find?_eq_some hfind, List.find?_some hfind⟩⟩, ?_⟩
    rintro p ⟨⟩
    obtain rfl : body = used ++ rest := hused
    refine ⟨by simp, ?_, ?_, ?_⟩
    · refine hblamed.trans ?_
      cases rest <;> simp
    · rw [List.take_left]
      exact exists_accepted_of_sticks hsticks hcorrect.fills (List.forall_mem_append.1 hbody).1 hmark
    · intro hlt more
      cases rest with
      | nil => simp at hlt
      | cons t rest =>
        have hsplit : used ++ t :: rest = (used ++ [t]) ++ rest := by simp
        have htake : (used ++ t :: rest).take (used.length + 1) = used ++ [t] := by
          rw [hsplit]
          exact List.take_left' (by simp)
        rw [hsplit, List.forall_mem_append] at hbody
        rw [htake]
        exact exists_unwinds_of_sticks hsticks hbody.1 more

/-- The tokens of a block in which the value that an `if` statement prints has no semicolon behind it. -/
def hangingElse : List Token :=
  [onLineOne .leftBrace "\x7b", onLineOne .ifWord "if", onLineOne .leftParen "(", onLineOne .identifier "a",
    onLineOne .rightParen ")", onLineOne .printWord "print", onLineOne .identifier "a", onLineOne .elseWord "else",
    onLineOne .rightBrace "\x7d"]

/-- The fault is raised before the `else`. -/
theorem program_raises_earliest_hangingElse :
    raisedAt? (hangingElse ++ [Item.endMark 1]) = some 7 ∧
      (∃ rest, (∀ t ∈ rest, t.kind ≠ .eof) ∧
        ∀ fault ∈ (program (hangingElse.take 7 ++ rest ++ [Item.endMark 1])).2, ¬ fault.unwinds) ∧
      ∀ rest, ∃ fault ∈ (program (hangingElse.take 8 ++ rest)).2, fault.unwinds := by
  have hbody : ∀ t ∈ hangingElse, t.kind ≠ .eof := by decide
  have hmark : (Item.endMark 1).kind = .eof := rfl
  have hraised : raisedAt? (hangingElse ++ [Item.endMark 1]) = some 7 := by decide +kernel
  obtain ⟨-, hearliest⟩ := program_raises_earliest hbody hmark
  obtain ⟨-, -, hcompletes, hrejects⟩ := hearliest 7 hraised
  exact ⟨hraised, hcompletes, hrejects (by decide)⟩

end Parse

end LoxLang
