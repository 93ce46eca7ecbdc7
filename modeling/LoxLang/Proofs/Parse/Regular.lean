import LoxLang.Proofs.Tree.Tokens

/-!
# Trees that parsers build

A *regular* tree is one that a program can be executed on without surprises: its operators are operators,
its names are identifiers, and no declaration stands where a statement has to, as the branch of a
conditional or the body of a loop. Every tree that is read is regular (`Parse.program_regular`), whatever
was reported on the way: `Yields` is the calculus that shows it, with one rule for each combinator, and it
is about what a parser returns whether or not the reading was clean.
A regular statement that is no declaration declares nothing outside of its blocks
(`Stmt.Regular.declared_eq_nil`), and the names of a regular tree are identifiers wherever they stand in it
(`Stmt.Regular.of_mem_names`).
-/

namespace LoxLang

/-! ## Regular trees -/

/-- Operators are of kinds that can be applied, and names are identifiers among the given tokens. -/
inductive Expr.Regular (S : Token → Prop) : Expr → Prop where
  | literal (value : Value) : Regular S (.literal value)
  | grouping {inner : Expr} : Regular S inner → Regular S (.grouping inner)
  | unary {operator : Token} {right : Expr} : operator.kind ∈ [.bang, .minus] → Regular S right →
      Regular S (.unary operator right)
  | binary {left : Expr} {operator : Token} {right : Expr} :
      operator.kind ∈ [.bangEqual, .equalEqual, .greater, .greaterEqual, .less, .lessEqual, .minus,
        .plus, .slash, .star] →
      Regular S left → Regular S right → Regular S (.binary left operator right)
  | logical {left : Expr} {operator : Token} {right : Expr} : operator.kind ∈ [.andWord, .orWord] →
      Regular S left → Regular S right → Regular S (.logical left operator right)
  | read {name : Token} : S name → name.kind = .identifier → Regular S (.read name)
  | assign {name : Token} {value : Expr} : S name → name.kind = .identifier → Regular S value →
      Regular S (.assign name value)

/-- Whether a statement is a declaration. -/
def Stmt.isDeclare : Stmt → Bool
  | declare _ _ => true
  | _ => false

/-- Expressions are regular, names are identifiers among the given tokens, and no declaration stands as
the branch of a conditional or the body of a loop. -/
inductive Stmt.Regular (S : Token → Prop) : Stmt → Prop where
  | expression {e : Expr} : e.Regular S → Regular S (.expression e)
  | print {e : Expr} : e.Regular S → Regular S (.print e)
  | declare {name : Token} {initial : Option Expr} : S name → name.kind = .identifier →
      (∀ e ∈ initial, e.Regular S) → Regular S (.declare name initial)
  | block {body : List Stmt} : (∀ s ∈ body, Regular S s) → Regular S (.block body)
  | ifThen {condition : Expr} {yes : Stmt} : condition.Regular S → Regular S yes →
      yes.isDeclare = false → Regular S (.ifThen condition yes)
  | ifThenElse {condition : Expr} {yes no : Stmt} : condition.Regular S → Regular S yes →
      yes.isDeclare = false → Regular S no → no.isDeclare = false →
      Regular S (.ifThenElse condition yes no)
  | whileLoop {condition : Expr} {body : Stmt} : condition.Regular S → Regular S body →
      body.isDeclare = false → Regular S (.whileLoop condition body)

/-- The names of a regular expression are identifiers, wherever they stand in it. -/
theorem Expr.Regular.of_mem_names {S : Token → Prop} {e : Expr} (h : e.Regular S) :
    ∀ t ∈ e.names, S t ∧ t.kind = .identifier := by
  induction h with
  | literal => exact nofun
  | grouping _ ih | unary _ _ ih => exact ih
  | binary _ _ _ ihleft ihright | logical _ _ _ ihleft ihright =>
    exact List.forall_mem_append.2 ⟨ihleft, ihright⟩
  | read hname hkind => exact List.forall_mem_singleton.2 ⟨hname, hkind⟩
  | assign hname hkind _ ih => exact List.forall_mem_cons.2 ⟨⟨hname, hkind⟩, ih⟩

namespace Stmt.Regular

variable {S : Token → Prop}

/-- All names in a regular statement are identifiers among the given tokens. -/
theorem of_mem_names {s : Stmt} (h : s.Regular S) : ∀ t ∈ s.names, S t ∧ t.kind = .identifier := by
  induction h with
  | expression he | print he => exact he.of_mem_names
  | @declare name initial hname hkind hinitial =>
    cases initial with
    | none => exact List.forall_mem_singleton.2 ⟨hname, hkind⟩
    | some e => exact List.forall_mem_cons.2 ⟨⟨hname, hkind⟩, (hinitial e rfl).of_mem_names⟩
  | block _ ih =>
    intro t ht
    rw [names, namesAll_eq_flatMap] at ht
    obtain ⟨s, hs, ht⟩ := List.mem_flatMap.1 ht
    exact ih s hs t ht
  | ifThen hcondition _ _ ih | whileLoop hcondition _ _ ih =>
    exact List.forall_mem_append.2 ⟨hcondition.of_mem_names, ih⟩
  | ifThenElse hcondition _ _ _ _ ihyes ihno =>
    refine List.forall_mem_append.2 ⟨?_, ihno⟩
    exact List.forall_mem_append.2 ⟨hcondition.of_mem_names, ihyes⟩

/-- A regular statement that is no declaration declares nothing outside of its blocks. -/
theorem declared_eq_nil {s : Stmt} (h : s.Regular S) (hs : s.isDeclare = false) : s.declared = [] := by
  induction h with
  | expression | print | block => rfl
  | declare => cases hs
  | ifThen _ _ hyes ih => exact ih hyes
  | ifThenElse _ _ hyes _ hno ihyes ihno => rw [Stmt.declared, ihyes hyes, ihno hno, List.append_nil]
  | whileLoop _ _ hbody ih => exact ih hbody

end Stmt.Regular

/-! ## The clauses of a `for` statement -/

/-- What a `for` statement consists of. -/
structure ForClauses where
  initial : Option Stmt
  condition : Option Expr
  increment : Option Expr
  body : Stmt

namespace ForClauses

/-- The statement that the clauses stand for. -/
def desugar (f : ForClauses) : Stmt :=
  .forLoop f.initial f.condition f.increment f.body

/-- A `for` statement is no declaration, also with a declaration as its first clause. -/
theorem isDeclare_desugar (f : ForClauses) : f.desugar.isDeclare = false := by
  obtain ⟨_ | _, _, _, _⟩ := f <;> rfl

/-- Every clause is regular, and the body is no declaration. -/
structure Regular (S : Token → Prop) (f : ForClauses) : Prop where
  initial : ∀ s ∈ f.initial, s.Regular S
  condition : ∀ e ∈ f.condition, e.Regular S
  increment : ∀ e ∈ f.increment, e.Regular S
  body : f.body.Regular S
  isDeclare_body : f.body.isDeclare = false

variable {S : Token → Prop} {f : ForClauses}

/-- The body with the increment is no declaration either. -/
theorem Regular.withIncrement (h : f.Regular S) :
    (f.body.withIncrement f.increment).Regular S ∧
      (f.body.withIncrement f.increment).isDeclare = false := by
  have hincrement := h.increment
  cases hf : f.increment with
  | none => exact ⟨h.body, h.isDeclare_body⟩
  | some e =>
    refine ⟨.block (List.forall_mem_cons.2 ⟨h.body, List.forall_mem_singleton.2 ?_⟩), rfl⟩
    exact .expression (hincrement e hf)

/-- The loop of a `for` statement, without what is run once before it. -/
def loop (f : ForClauses) : Stmt :=
  .whileLoop (f.condition.getD (.literal (.bool true))) (f.body.withIncrement f.increment)

/-- The loop of regular clauses is regular, its condition being `true` if none is given. -/
theorem Regular.loop (h : f.Regular S) : f.loop.Regular S := by
  refine .whileLoop ?_ h.withIncrement.1 h.withIncrement.2
  have hcondition := h.condition
  cases hf : f.condition with
  | none => exact .literal _
  | some e => exact hcondition e hf

/-- Regular clauses stand for a regular statement. -/
theorem Regular.desugar (h : f.Regular S) : f.desugar.Regular S := by
  have hinitial := h.initial
  rw [ForClauses.desugar, Stmt.forLoop]
  cases hf : f.initial with
  | none => exact h.loop
  | some s =>
    exact .block (List.forall_mem_cons.2 ⟨hinitial s hf, List.forall_mem_singleton.2 h.loop⟩)

end ForClauses

/-- The clauses of a `for` statement behind its first word. -/
def Parser.forClauses (bound : Nat) (inner : Parser Stmt) : Parser ForClauses := do
  let _ ← expect .leftParen .parenAfterFor
  let initial ← forInitial bound
  let condition ← optionalExpression bound .semicolon
  let _ ← expect .semicolon .semicolonAfterLoopCondition
  let increment ← optionalExpression bound .rightParen
  let _ ← expect .rightParen .parenAfterForClauses
  let body ← inner
  return ⟨initial, condition, increment, body⟩

/-- A `for` statement is read as its clauses, which are put together afterwards. -/
theorem Parser.forStatement_eq (bound : Nat) (inner : Parser Stmt) :
    forStatement bound inner = (forClauses bound inner >>= fun f => pure f.desugar) := by
  simp only [forStatement, forClauses, bind_assoc, pure_bind, ForClauses.desugar]

/-! ## What parsers return -/

namespace Parser

section
variable {α β : Type} {S : Token → Prop}

/-- From tokens that satisfy `S`, the parser leaves such tokens, and a tree that it returns satisfies
`P`. -/
def Yields (S : Token → Prop) (p : Parser α) (P : α → Prop) : Prop :=
  ∀ stop tokens, (∀ t ∈ tokens, S t) →
    (∀ t ∈ (p stop tokens).rest, S t) ∧ ∀ a, (p stop tokens).result = .ok a → P a

/-- A result that satisfies something is returned as such. -/
theorem yields_pure {P : α → Prop} {a : α} (h : P a) : Yields S (pure a) P := by
  intro stop tokens htokens
  refine ⟨htokens, ?_⟩
  rintro _ ⟨⟩
  exact h

/-- The rule for two parsers in a row: the second may rely on what the first one returns. -/
theorem Yields.bind {p : Parser α} {f : α → Parser β} {Q : α → Prop} {P : β → Prop}
    (hp : Yields S p Q) (hf : ∀ a, Q a → Yields S (f a) P) : Yields S (p >>= f) P := by
  intro stop tokens htokens
  obtain ⟨hrest, hresult⟩ := hp stop tokens htokens
  rcases hfirst : p stop tokens with ⟨fault | a, reports, rest⟩
  · rw [bind_of_error hfirst]
    rw [hfirst] at hrest
    exact ⟨hrest, nofun⟩
  · rw [bind_of_ok hfirst]
    rw [hfirst] at hrest hresult
    exact hf a (hresult a rfl) stop rest hrest

/-- What is returned satisfies anything that follows from what it satisfies. -/
theorem Yields.mono {p : Parser α} {P Q : α → Prop} (hp : Yields S p P) (h : ∀ a, P a → Q a) :
    Yields S p Q := by
  intro stop tokens htokens
  obtain ⟨hrest, hresult⟩ := hp stop tokens htokens
  exact ⟨hrest, fun a ha => h a (hresult a ha)⟩

/-- A parser that fails returns nothing. -/
theorem yields_fail {P : α → Prop} (cause : ParseCause) : Yields S (fail cause) P :=
  fun _ _ htokens => ⟨htokens, nofun⟩

/-- A report leaves the tokens as they are. -/
theorem yields_report (cause : ParseCause) (t : Token) :
    Yields S (report cause t) fun _ => True :=
  fun _ _ htokens => ⟨htokens, fun _ _ => trivial⟩

/-- The next token is one of the tokens. -/
theorem yields_peek? : Yields S peek? fun o => ∀ t ∈ o, S t := by
  intro stop tokens htokens
  refine ⟨htokens, ?_⟩
  rintro _ ⟨⟩ t ht
  exact htokens t (List.mem_of_mem_head? ht)

/-- Looking at the kind of the next token leaves the tokens as they are. -/
theorem yields_peekKind? : Yields S peekKind? fun _ => True :=
  fun _ _ htokens => ⟨htokens, fun _ _ => trivial⟩

/-- Skipping a token leaves fewer of the tokens. -/
theorem yields_skip : Yields S skip fun _ => True :=
  fun _ _ htokens => ⟨fun t ht => htokens t (List.mem_of_mem_tail ht), fun _ _ => trivial⟩

/-- An accepted token is one of the tokens, of one of the kinds. -/
theorem yields_accept? (kinds : List Kind) :
    Yields S (accept? kinds) fun o => ∀ t ∈ o, S t ∧ t.kind ∈ kinds := by
  intro stop tokens htokens
  cases tokens with
  | nil => exact ⟨nofun, by rintro _ ⟨⟩; exact nofun⟩
  | cons t rest =>
    obtain ⟨ht, hrest⟩ := List.forall_mem_cons.1 htokens
    rw [accept?]
    split
    · next hkind => exact ⟨hrest, by rintro _ ⟨⟩ _ ⟨⟩; exact ⟨ht, hkind⟩⟩
    · exact ⟨htokens, by rintro _ ⟨⟩; exact nofun⟩

/-- An expected token is one of the tokens, of the kind. -/
theorem yields_expect (kind : Kind) (cause : ParseCause) :
    Yields S (expect kind cause) fun t => S t ∧ t.kind = kind := by
  intro stop tokens htokens
  cases tokens with
  | nil => exact ⟨nofun, nofun⟩
  | cons t rest =>
    obtain ⟨ht, hrest⟩ := List.forall_mem_cons.1 htokens
    rw [expect]
    split
    · next hkind => exact ⟨hrest, by rintro _ ⟨⟩; exact ⟨ht, hkind⟩⟩
    · exact ⟨htokens, nofun⟩

/-- Recovery only drops tokens. -/
theorem skipStatement_subset (previous : Token) (tokens : List Token) :
    skipStatement previous tokens ⊆ tokens := by
  induction tokens generalizing previous with
  | nil => exact List.Subset.refl _
  | cons t rest ih =>
    rw [skipStatement]
    split
    · exact List.Subset.refl _
    · exact List.subset_cons_of_subset t (ih t)

/-- Recovery leaves some of the tokens. -/
theorem synchronize_subset (tokens : List Token) : synchronize tokens ⊆ tokens := by
  cases tokens with
  | nil => exact List.Subset.refl _
  | cons t rest => exact List.subset_cons_of_subset t (skipStatement_subset t rest)

/-- With recovery, what is returned at all satisfies what it satisfies without. -/
theorem Yields.recovering {p : Parser α} {P : α → Prop} (hp : Yields S p P) :
    Yields S (recovering p) fun o => ∀ a ∈ o, P a := by
  intro stop tokens htokens
  obtain ⟨hrest, hresult⟩ := hp stop tokens htokens
  rw [Parser.recovering]
  rcases hfirst : p stop tokens with ⟨fault | a, reports, rest⟩
  · rw [hfirst] at hrest
    exact ⟨fun t ht => hrest t (synchronize_subset rest ht), by rintro _ ⟨⟩; exact nofun⟩
  · rw [hfirst] at hrest hresult
    refine ⟨hrest, ?_⟩
    rintro _ ⟨⟩ _ ⟨⟩
    exact hresult a rfl

end

/-! ## Expressions -/

section
variable {S : Token → Prop}

/-- A primary is regular if the expression in its brackets is: a name is taken as an identifier. -/
theorem primary_yields {inner : Parser Expr} (hinner : Yields S inner (Expr.Regular S)) :
    Yields S (primary inner) (Expr.Regular S) := by
  refine yields_peek?.bind fun o ho => ?_
  cases o with
  | none => exact yields_fail _
  | some t =>
    have ht : S t := ho t rfl
    dsimp only
    split
    · exact yields_skip.bind fun _ _ => yields_pure (.literal _)
    · exact yields_skip.bind fun _ _ => yields_pure (.literal _)
    · exact yields_skip.bind fun _ _ => yields_pure (.literal _)
    · exact yields_skip.bind fun _ _ => yields_pure (.literal _)
    · exact yields_skip.bind fun _ _ => yields_pure (.literal _)
    · next hkind => exact yields_skip.bind fun _ _ => yields_pure (.read ht hkind)
    · refine yields_skip.bind fun _ _ => hinner.bind fun e he => ?_
      exact (yields_expect _ _).bind fun _ _ => yields_pure (.grouping he)
    · exact yields_fail _

/-- A row of unary operators before a regular operand is regular. -/
theorem unary_yields {primary : Parser Expr} (h : Yields S primary (Expr.Regular S)) (bound : Nat) :
    Yields S (unary primary bound) (Expr.Regular S) := by
  induction bound with
  | zero => exact h
  | succ bound ih =>
    refine (yields_accept? _).bind fun o ho => ?_
    cases o with
    | none => exact h
    | some operator => exact ih.bind fun right hright => yields_pure (.unary (ho operator rfl).2 hright)

/-- The operators of a level are all logical or all binary, as its trees are. -/
theorem levels_kinds : ∀ level ∈ levels,
    level.join = .logical ∧ level.operators ⊆ [.andWord, .orWord] ∨
      level.join = .binary ∧ level.operators ⊆ [.bangEqual, .equalEqual, .greater, .greaterEqual,
        .less, .lessEqual, .minus, .plus, .slash, .star] := by
  intro level h
  simp only [levels, List.mem_cons, List.not_mem_nil, or_false] at h
  rcases h with rfl | rfl | rfl | rfl | rfl | rfl
  case inl | inr.inl => exact .inl ⟨rfl, by decide⟩
  all_goals exact .inr ⟨rfl, by decide⟩

/-- A level builds regular trees from regular operands. -/
theorem regular_join {level : Level} (h : level ∈ levels) {operator : Token}
    (hoperator : operator.kind ∈ level.operators) {left right : Expr} (hleft : left.Regular S)
    (hright : right.Regular S) : (level.join left operator right).Regular S := by
  rcases levels_kinds level h with ⟨hjoin, hkinds⟩ | ⟨hjoin, hkinds⟩
  · rw [hjoin]
    exact .logical (hkinds hoperator) hleft hright
  · rw [hjoin]
    exact .binary (hkinds hoperator) hleft hright

/-- A chain of operators of one level on regular operands is regular. -/
theorem chain_yields {level : Level} (hlevel : level ∈ levels) {operand : Parser Expr}
    (hoperand : Yields S operand (Expr.Regular S)) (bound : Nat) {left : Expr}
    (hleft : left.Regular S) : Yields S (chain level operand bound left) (Expr.Regular S) := by
  induction bound generalizing left with
  | zero => exact yields_pure hleft
  | succ bound ih =>
    refine (yields_accept? _).bind fun o ho => ?_
    cases o with
    | none => exact yields_pure hleft
    | some operator =>
      refine hoperand.bind fun right hright => ?_
      exact ih (regular_join hlevel (ho operator rfl).2 hleft hright)

/-- The levels of infix operators give regular trees on regular operands. -/
theorem infixes_yields (bound : Nat) {tightest : Parser Expr}
    (h : Yields S tightest (Expr.Regular S)) {ls : List Level} (hls : ls ⊆ levels) :
    Yields S (infixes bound tightest ls) (Expr.Regular S) := by
  induction ls with
  | nil => exact h
  | cons level tighter ih =>
    obtain ⟨hlevel, htighter⟩ := List.cons_subset.1 hls
    exact (ih htighter).bind fun left hleft => chain_yields hlevel (ih htighter) bound hleft

/-- An assignment is regular: its target was read as a name, which is an identifier. -/
theorem assignment_yields {target inner : Parser Expr} (htarget : Yields S target (Expr.Regular S))
    (hinner : Yields S inner (Expr.Regular S)) :
    Yields S (assignment target inner) (Expr.Regular S) := by
  refine htarget.bind fun left hleft => (yields_accept? _).bind fun o _ => ?_
  cases o with
  | none => exact yields_pure hleft
  | some equals =>
    refine hinner.bind fun value hvalue => ?_
    cases hleft with
    | read hname hkind => exact yields_pure (.assign hname hkind hvalue)
    | _ => exact (yields_report _ _).bind fun _ _ => yields_pure hvalue

/-- Every expression that is read is regular. -/
theorem expression_yields (bound : Nat) : Yields S (expression bound) (Expr.Regular S) := by
  induction bound with
  | zero => exact yields_fail _
  | succ bound ih =>
    refine assignment_yields (infixes_yields _ ?_ (List.Subset.refl _)) ih
    exact unary_yields (primary_yields ih) _

/-! ## Statements -/

/-- A regular statement that is no declaration. -/
def RegularStatement (S : Token → Prop) (s : Stmt) : Prop :=
  s.Regular S ∧ s.isDeclare = false

/-- An expression statement is a regular statement. -/
theorem expressionStatement_yields (bound : Nat) :
    Yields S (expressionStatement bound) (RegularStatement S) := by
  refine (expression_yields bound).bind fun e he => ?_
  exact (yields_expect _ _).bind fun _ _ => yields_pure ⟨.expression he, rfl⟩

/-- A print statement is a regular statement. -/
theorem printStatement_yields (bound : Nat) :
    Yields S (printStatement bound) (RegularStatement S) := by
  refine (expression_yields bound).bind fun e he => ?_
  exact (yields_expect _ _).bind fun _ _ => yields_pure ⟨.print he, rfl⟩

/-- An initial value is regular if there is one. -/
theorem initializer?_yields (bound : Nat) :
    Yields S (initializer? bound) fun o => ∀ e ∈ o, e.Regular S := by
  refine (yields_accept? _).bind fun o _ => ?_
  cases o with
  | none => exact yields_pure nofun
  | some _ => exact (expression_yields bound).bind fun e he => yields_pure (by rintro _ ⟨⟩; exact he)

/-- A declaration of a variable is regular, with an identifier for its name. -/
theorem varDeclaration_yields (bound : Nat) :
    Yields S (varDeclaration bound) (Stmt.Regular S) := by
  refine (yields_expect _ _).bind fun name hname => (initializer?_yields bound).bind fun o ho => ?_
  exact (yields_expect _ _).bind fun _ _ => yields_pure (.declare hname.1 hname.2 ho)

/-- An expression that may be missing is regular if it is there. -/
theorem optionalExpression_yields (bound : Nat) (close : Kind) :
    Yields S (optionalExpression bound close) fun o => ∀ e ∈ o, e.Regular S := by
  refine yields_peekKind?.bind fun o _ => ?_
  split
  · exact yields_pure nofun
  · exact (expression_yields bound).bind fun e he => yields_pure (by rintro _ ⟨⟩; exact he)

/-- The first clause of a `for` statement is regular if it is there. -/
theorem forInitial_yields (bound : Nat) :
    Yields S (forInitial bound) fun o => ∀ s ∈ o, s.Regular S := by
  refine yields_peekKind?.bind fun o _ => ?_
  split
  · exact yields_skip.bind fun _ _ => yields_pure nofun
  · refine yields_skip.bind fun _ _ => (varDeclaration_yields bound).bind fun s hs => ?_
    exact yields_pure (by rintro _ ⟨⟩; exact hs)
  · exact (expressionStatement_yields bound).bind fun s hs => yields_pure (by rintro _ ⟨⟩; exact hs.1)

variable {inner : Parser Stmt}

/-- The clauses of a `for` statement are regular, and its body is no declaration. -/
theorem forClauses_yields (bound : Nat) (h : Yields S inner (RegularStatement S)) :
    Yields S (forClauses bound inner) (ForClauses.Regular S) := by
  refine (yields_expect _ _).bind fun _ _ => (forInitial_yields bound).bind fun initial hinitial => ?_
  refine (optionalExpression_yields bound _).bind fun condition hcondition => ?_
  refine (yields_expect _ _).bind fun _ _ => ?_
  refine (optionalExpression_yields bound _).bind fun increment hincrement => ?_
  refine (yields_expect _ _).bind fun _ _ => h.bind fun body hbody => ?_
  exact yields_pure ⟨hinitial, hcondition, hincrement, hbody.1, hbody.2⟩

/-- A `for` statement is a regular statement. -/
theorem forStatement_yields (bound : Nat) (h : Yields S inner (RegularStatement S)) :
    Yields S (forStatement bound inner) (RegularStatement S) := by
  rw [forStatement_eq]
  refine (forClauses_yields bound h).bind fun f hf => yields_pure ⟨hf.desugar, ?_⟩
  exact f.isDeclare_desugar

/-- An `if` statement is a regular statement, since its branches are statements. -/
theorem ifStatement_yields (bound : Nat) (h : Yields S inner (RegularStatement S)) :
    Yields S (ifStatement bound inner) (RegularStatement S) := by
  refine (yields_expect _ _).bind fun _ _ => (expression_yields bound).bind fun condition hc => ?_
  refine (yields_expect _ _).bind fun _ _ => h.bind fun yes hyes => ?_
  refine (yields_accept? _).bind fun o _ => ?_
  cases o with
  | none => exact yields_pure ⟨.ifThen hc hyes.1 hyes.2, rfl⟩
  | some _ => exact h.bind fun no hno => yields_pure ⟨.ifThenElse hc hyes.1 hyes.2 hno.1 hno.2, rfl⟩

/-- A `while` statement is a regular statement, since its body is one. -/
theorem whileStatement_yields (bound : Nat) (h : Yields S inner (RegularStatement S)) :
    Yields S (whileStatement bound inner) (RegularStatement S) := by
  refine (yields_expect _ _).bind fun _ _ => (expression_yields bound).bind fun condition hc => ?_
  refine (yields_expect _ _).bind fun _ _ => h.bind fun body hbody => ?_
  exact yields_pure ⟨.whileLoop hc hbody.1 hbody.2, rfl⟩

/-- A declaration is regular. Only here may a variable be declared. -/
theorem declaration_yields (bound : Nat) (h : Yields S inner (RegularStatement S)) :
    Yields S (declaration bound inner) (Stmt.Regular S) := by
  refine yields_peekKind?.bind fun o _ => ?_
  split
  · exact yields_skip.bind fun _ _ => varDeclaration_yields bound
  · exact h.mono fun _ hs => hs.1

/-- The declarations of a row are regular, those before and behind a recovery alike. -/
theorem declarations_yields (closing : List Kind) {one : Parser Stmt}
    (h : Yields S one (Stmt.Regular S)) (bound : Nat) :
    Yields S (declarations closing one bound) fun body => ∀ s ∈ body, s.Regular S := by
  induction bound with
  | zero => exact yields_pure nofun
  | succ bound ih =>
    refine yields_peekKind?.bind fun o _ => ?_
    cases o with
    | none => exact yields_pure nofun
    | some kind =>
      dsimp only
      split
      · exact yields_pure nofun
      · refine h.recovering.bind fun first hfirst => ih.bind fun others hothers => yields_pure ?_
        exact List.forall_mem_append.2 ⟨fun s hs => hfirst s (Option.mem_toList.1 hs), hothers⟩

/-- A block is a regular statement. -/
theorem block_yields (bound : Nat) (h : Yields S inner (RegularStatement S)) :
    Yields S (block bound inner) (RegularStatement S) := by
  refine (declarations_yields _ (declaration_yields bound h) bound).bind fun body hbody => ?_
  exact (yields_expect _ _).bind fun _ _ => yields_pure ⟨.block hbody, rfl⟩

/-- Every statement that is read is regular and no declaration. -/
theorem statement_yields (bound : Nat) : Yields S (statement bound) (RegularStatement S) := by
  induction bound with
  | zero => exact yields_fail _
  | succ bound ih =>
    refine yields_peekKind?.bind fun o _ => ?_
    split
    · exact yields_skip.bind fun _ _ => forStatement_yields bound ih
    · exact yields_skip.bind fun _ _ => ifStatement_yields bound ih
    · exact yields_skip.bind fun _ _ => whileStatement_yields bound ih
    · exact yields_skip.bind fun _ _ => block_yields bound ih
    · exact yields_skip.bind fun _ _ => printStatement_yields bound
    · exact expressionStatement_yields (bound + 1)

/-- An expression with nothing behind it is regular. -/
theorem soleExpression_yields (bound : Nat) :
    Yields S (soleExpression bound) (Expr.Regular S) := by
  refine (expression_yields bound).bind fun e he => yields_peek?.bind fun o _ => ?_
  cases o with
  | none => exact yields_pure he
  | some t => exact yields_fail _

/-- The declarations of a program are regular. -/
theorem program_yields (bound : Nat) :
    Yields S (program bound) fun trees => ∀ s ∈ trees, s.Regular S :=
  declarations_yields [] (declaration_yields bound (statement_yields bound)) bound

end

end Parser

/-- What is read of a token list is part of it. -/
theorem Stream.body_subset {tokens : List Token} {stream : Stream}
    (h : Stream.ofTokens? tokens = some stream) : stream.body ⊆ tokens := by
  obtain ⟨last, -, rfl⟩ := Option.map_eq_some_iff.1 h
  exact (List.takeWhile_sublist _).subset

namespace Parse

/-- Whatever tokens are read and whatever is reported, the program that is returned is regular, with names
from among the tokens. -/
theorem program_regular (tokens : List Token) :
    ∀ s ∈ (program tokens).1, s.Regular (· ∈ tokens) := by
  rw [program]
  cases hstream : Stream.ofTokens? tokens with
  | none => exact nofun
  | some stream =>
    obtain ⟨-, hresult⟩ := Parser.program_yields stream.body.length stream.stop _
      (Stream.body_subset hstream)
    dsimp only
    cases hprogram : (Parser.program _ _ _).result with
    | error fault => exact nofun
    | ok trees => exact hresult trees hprogram

/-- Whatever tokens are read and whatever is reported, an expression that is returned is regular. -/
theorem expression_regular (tokens : List Token) :
    ∀ e ∈ (expression tokens).1, e.Regular (· ∈ tokens) := by
  rw [expression]
  cases hstream : Stream.ofTokens? tokens with
  | none => exact nofun
  | some stream =>
    obtain ⟨-, hresult⟩ := Parser.soleExpression_yields stream.body.length stream.stop _
      (Stream.body_subset hstream)
    dsimp only
    split
    · next e he =>
      rintro _ ⟨⟩
      exact hresult e he
    · exact nofun

end Parse

end LoxLang
