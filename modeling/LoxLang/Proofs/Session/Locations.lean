import LoxLang.Proofs.Parse.Blame
import LoxLang.Proofs.Session.Exchanges
import LoxLang.Proofs.Token.LineCount
import Mathlib.Data.List.Forall2

/-!
# Where diagnostics point

A diagnostic about a source points at a token of that source. For a fault of reading this is the token that was
blamed, or the end (`Parser.BlamesAt.token_mem`). For a fault of a run it is an operator or a name: a tree keeps
the tokens of its operators and names (`Expr.kept`), an evaluation stops on the line of one of them
(`Expr.eval_error_line`), and a tree that was read without a fault keeps only tokens it was read from
(`Grammar.DerivesStmt.keeps`). A source with a static fault is not run, so that the grammar is all that is
needed here.

Trees do not last from one call to the next, and so neither do their tokens (`Session.lines_exact`).
-/

namespace LoxLang

/-! ## The tokens that trees keep -/

section
variable {operator : Token} {fault : RuntimeFault}

/-- A unary operator stops on its own line. -/
theorem applyUnary_error_line {v : Value} (h : applyUnary operator v = .error fault) :
    fault.line = operator.line := by
  unfold applyUnary at h
  split at h
  · cases h
  · cases v <;> cases h <;> rfl
  · cases h
    rfl

/-- An operator on numbers stops on its own line. -/
theorem applyNumeric_error_line {f : Float → Float → Value} {x y : Value}
    (h : applyNumeric operator f x y = .error fault) : fault.line = operator.line := by
  unfold applyNumeric at h
  split at h <;> cases h
  rfl

/-- Addition stops on the line of its operator. -/
theorem applyPlus_error_line {x y : Value} (h : applyPlus operator x y = .error fault) :
    fault.line = operator.line := by
  unfold applyPlus at h
  split at h <;> cases h
  rfl

/-- An infix operator stops on its own line. -/
theorem applyBinary_error_line {x y : Value} (h : applyBinary operator x y = .error fault) :
    fault.line = operator.line := by
  rw [applyBinary] at h
  split at h
  case h_1 => exact applyPlus_error_line h
  case h_9 | h_10 => cases h
  case h_11 =>
    cases h
    rfl
  all_goals exact applyNumeric_error_line h

/-- A logical operator stops on its own line. -/
theorem decides_error_line {x : Value} (h : decides operator x = .error fault) :
    fault.line = operator.line := by
  rw [decides] at h
  split at h <;> cases h
  rfl

end

namespace Expr

/-- The tokens that an expression keeps: its operators and its names. -/
def kept : Expr → List Token
  | literal _ => []
  | grouping inner => inner.kept
  | unary operator right => operator :: right.kept
  | binary left operator right | logical left operator right => left.kept ++ operator :: right.kept
  | read name => [name]
  | assign name value => name :: value.kept

/-- An evaluation stops on the line of a token that the expression keeps. -/
theorem eval_error_line {e : Expr} {c : Chain} {fault : RuntimeFault}
    (h : (e.eval c).1 = .error fault) : ∃ t ∈ e.kept, fault.line = t.line := by
  induction e generalizing c with
  | literal value => cases h
  | grouping inner ih => exact ih h
  | read name =>
    refine ⟨name, List.mem_singleton_self name, ?_⟩
    change readVariable name c = .error fault at h
    rw [readVariable] at h
    split at h <;> cases h
    rfl
  | unary operator right ih =>
    rw [eval_unary] at h
    rcases andThen_error h with h | ⟨v, h⟩
    · obtain ⟨t, ht, hline⟩ := ih h
      exact ⟨t, List.mem_cons_of_mem _ ht, hline⟩
    · exact ⟨operator, List.mem_cons_self, applyUnary_error_line h⟩
  | binary left operator right ihleft ihright =>
    rw [eval_binary] at h
    rcases andThen_error h with h | ⟨x, h⟩
    · obtain ⟨t, ht, hline⟩ := ihleft h
      exact ⟨t, List.mem_append_left _ ht, hline⟩
    · rcases andThen_error h with h | ⟨y, h⟩
      · obtain ⟨t, ht, hline⟩ := ihright h
        exact ⟨t, List.mem_append_right _ (List.mem_cons_of_mem _ ht), hline⟩
      · exact ⟨operator, List.mem_append_right _ List.mem_cons_self, applyBinary_error_line h⟩
  | logical left operator right ihleft ihright =>
    rw [eval_logical] at h
    rcases andThen_error h with h | ⟨x, h⟩
    · obtain ⟨t, ht, hline⟩ := ihleft h
      exact ⟨t, List.mem_append_left _ ht, hline⟩
    · rw [shortCircuit] at h
      split at h
      · next hdecides =>
        cases h
        exact ⟨operator, List.mem_append_right _ List.mem_cons_self, decides_error_line hdecides⟩
      · cases h
      · obtain ⟨t, ht, hline⟩ := ihright h
        exact ⟨t, List.mem_append_right _ (List.mem_cons_of_mem _ ht), hline⟩
  | assign name value ih =>
    rw [eval_assign] at h
    rcases andThen_error h with h | ⟨v, h⟩
    · obtain ⟨t, ht, hline⟩ := ih h
      exact ⟨t, List.mem_cons_of_mem _ ht, hline⟩
    · refine ⟨name, List.mem_cons_self, ?_⟩
      rw [assignVariable] at h
      split at h <;> cases h
      rfl

end Expr

/-- The kinds of operators and names. -/
def keptKinds : List Kind :=
  .identifier :: (unaryKinds ++ binaryKinds ++ logicalKinds)

/-- A regular expression keeps operators and identifiers only. -/
theorem Expr.Regular.kind_mem_of_mem_kept {S : Token → Prop} {e : Expr} (h : e.Regular S) :
    ∀ t ∈ e.kept, t.kind ∈ keptKinds := by
  have hunary : unaryKinds ⊆ keptKinds := by decide
  have hbinary : binaryKinds ⊆ keptKinds := by decide
  have hlogical : logicalKinds ⊆ keptKinds := by decide
  induction h with
  | literal => exact nofun
  | grouping _ ih => exact ih
  | unary hkind _ ih => exact List.forall_mem_cons.2 ⟨hunary hkind, ih⟩
  | binary hkind _ _ ihleft ihright =>
    exact List.forall_mem_append.2 ⟨ihleft, List.forall_mem_cons.2 ⟨hbinary hkind, ihright⟩⟩
  | logical hkind _ _ ihleft ihright =>
    exact List.forall_mem_append.2 ⟨ihleft, List.forall_mem_cons.2 ⟨hlogical hkind, ihright⟩⟩
  | read _ hkind => exact List.forall_mem_singleton.2 (hkind ▸ List.mem_cons_self)
  | assign _ hkind _ ih => exact List.forall_mem_cons.2 ⟨hkind ▸ List.mem_cons_self, ih⟩

/-- The expressions of a statement keep only tokens of a list. -/
def Stmt.Keeps (used : List Token) (s : Stmt) : Prop :=
  ∀ visible, ∀ site ∈ s.sites visible, site.expr.kept ⊆ used

namespace Stmt

variable {used used' : List Token} {e : Expr} {s yes no : Stmt} {body : List Stmt}

/-- A statement that keeps only some tokens keeps only some of more. -/
theorem Keeps.mono (h : s.Keeps used) (hsubset : used ⊆ used') : s.Keeps used' :=
  fun visible site hsite => List.Subset.trans (h visible site hsite) hsubset

/-- An expression statement keeps what its expression keeps. -/
theorem keeps_expression (h : e.kept ⊆ used) : (expression e).Keeps used :=
  fun _ => List.forall_mem_singleton.2 h

/-- A print statement keeps what its expression keeps. -/
theorem keeps_print (h : e.kept ⊆ used) : (print e).Keeps used :=
  fun _ => List.forall_mem_singleton.2 h

/-- A declaration keeps what its initial value keeps; its own name is on the line of no fault. -/
theorem keeps_declare {name : Token} {initial : Option Expr} (h : ∀ e ∈ initial, e.kept ⊆ used) :
    (declare name initial).Keeps used := by
  cases initial with
  | none => exact nofun
  | some e => exact fun _ => List.forall_mem_singleton.2 (h e rfl)

/-- A block keeps what its statements keep. -/
theorem keeps_block (h : ∀ s ∈ body, s.Keeps used) : (block body).Keeps used := by
  intro visible site hsite
  obtain ⟨s, hs, visible', hsite⟩ := exists_of_mem_sitesAll hsite
  exact h s hs visible' site hsite

/-- An `if` statement keeps what its condition and its branch keep. -/
theorem keeps_ifThen (h : e.kept ⊆ used) (hyes : yes.Keeps used) : (ifThen e yes).Keeps used :=
  fun visible => List.forall_mem_cons.2 ⟨h, hyes visible⟩

/-- An `if` statement with an alternative keeps what its condition and its branches keep. -/
theorem keeps_ifThenElse (h : e.kept ⊆ used) (hyes : yes.Keeps used) (hno : no.Keeps used) :
    (ifThenElse e yes no).Keeps used :=
  fun visible => List.forall_mem_cons.2 ⟨h, List.forall_mem_append.2 ⟨hyes visible, hno visible⟩⟩

/-- A loop keeps what its condition and its body keep. -/
theorem keeps_whileLoop (h : e.kept ⊆ used) (hs : s.Keeps used) : (whileLoop e s).Keeps used :=
  fun visible => List.forall_mem_cons.2 ⟨h, hs visible⟩

end Stmt

/-! ## Trees keep tokens they were read from -/

namespace Grammar

/-- A fold over operators keeps what the first operand keeps, the operators, and what the other operands keep. -/
theorem Ladder.kept_foldl_join {l : Ladder} {more : List Operand} {e : Expr} {t : Token}
    (h : t ∈ (more.foldl (fun left o => l.join left o.operator o.tree) e).kept) :
    t ∈ e.kept ∨ ∃ o ∈ more, t = o.operator ∨ t ∈ o.tree.kept := by
  induction more generalizing e with
  | nil => exact .inl h
  | cons o more ih =>
    rcases ih h with h | ⟨o', ho', h⟩
    · have hjoin : (l.join e o.operator o.tree).kept = e.kept ++ o.operator :: o.tree.kept := by
        cases l <;> rfl
      rw [hjoin] at h
      rcases List.mem_append.1 h with h | h
      · exact .inl h
      · exact .inr ⟨o, List.mem_cons_self, List.mem_cons.1 h⟩
    · exact .inr ⟨o', List.mem_cons_of_mem o ho', h⟩

/-- An expression keeps only tokens it was read from. -/
theorem DerivesExpr.kept_subset {symbol : Symbol} {used : List Token} {e : Expr}
    (h : DerivesExpr symbol used e) : e.kept ⊆ used := by
  induction h with
  | assign _ _ _ ih => exact List.cons_subset_cons _ (List.subset_cons_of_subset _ ih)
  | noAssign _ ih | noUnary _ ih => exact ih
  | repetition l more _ _ _ ihfirst ihmore =>
    intro t ht
    rcases Ladder.kept_foldl_join ht with ht | ⟨o, ho, ht⟩
    · exact List.mem_append_left _ (ihfirst ht)
    · refine List.mem_append_right _ (List.mem_flatMap.2 ⟨o, ho, List.mem_cons.2 ?_⟩)
      exact ht.imp id fun ht => ihmore o ho ht
  | unary _ _ ih => exact List.cons_subset_cons _ ih
  | number | string | trueWord | falseWord | nullWord => exact List.nil_subset _
  | read => exact List.Subset.refl _
  | grouping _ _ _ ih => exact fun t ht => by simp [ih ht]

/-- An expression that may be missing keeps only tokens it was read from. -/
theorem OptionalExpression.kept_subset {used : List Token} {o : Option Expr}
    (h : OptionalExpression used o) : ∀ e ∈ o, e.kept ⊆ used := by
  rintro e rfl
  cases h with
  | present h => exact h.kept_subset

/-- A declaration of a variable keeps only tokens it was read from. -/
theorem VarDecl.keeps {used : List Token} {s : Stmt} (h : VarDecl used s) : s.Keeps used := by
  cases h with
  | mk _ _ h _ =>
    refine Stmt.keeps_declare ?_
    rintro e rfl
    cases h with
    | present _ h => exact fun t ht => by simp [h.kept_subset ht]

/-- An expression statement keeps only tokens it was read from. -/
theorem ExprStmt.keeps {used : List Token} {s : Stmt} (h : ExprStmt used s) : s.Keeps used := by
  cases h with
  | mk h _ => exact Stmt.keeps_expression (List.Subset.trans h.kept_subset (List.subset_append_left _ _))

/-- The first clause of a `for` statement keeps only tokens it was read from. -/
theorem ForInitial.keeps {used : List Token} {o : Option Stmt} (h : ForInitial used o) :
    ∀ s ∈ o, s.Keeps used := by
  rintro s rfl
  cases h with
  | varDecl h => exact h.keeps
  | exprStmt h => exact h.keeps

/-- A declaration or a statement keeps only tokens that it is derived from. -/
theorem DerivesStmt.keeps {rule : ElseRule} {form : Form} {used : List Token} {s : Stmt}
    (h : DerivesStmt rule form used s) : s.Keeps used := by
  induction h with
  | varDecl h => exact h.keeps
  | statement _ ih => exact ih
  | exprStmt h => exact h.keeps
  | printStmt _ h _ => exact Stmt.keeps_print fun t ht => by simp [h.kept_subset ht]
  | block parts _ _ _ ih =>
    refine Stmt.keeps_block (List.forall_mem_map.2 fun p hp => (ih p hp).mono fun t ht => ?_)
    have hmem : t ∈ parts.flatMap Prod.fst := List.mem_flatMap.2 ⟨p, hp, ht⟩
    simp [hmem]
  | ifThen _ _ hcondition _ _ ih =>
    exact Stmt.keeps_ifThen (fun t ht => by simp [hcondition.kept_subset ht])
      (ih.mono fun t ht => by simp [ht])
  | ifThenElse _ _ hcondition _ _ _ _ _ ihyes ihno =>
    exact Stmt.keeps_ifThenElse (fun t ht => by simp [hcondition.kept_subset ht])
      (ihyes.mono fun t ht => by simp [ht]) (ihno.mono fun t ht => by simp [ht])
  | whileStmt _ _ hcondition _ _ ih =>
    exact Stmt.keeps_whileLoop (fun t ht => by simp [hcondition.kept_subset ht])
      (ih.mono fun t ht => by simp [ht])
  | forStmt _ _ hinitial hcondition _ hincrement _ _ ih =>
    rw [forTree_eq_forLoop]
    exact Stmt.forLoop_of_parts Stmt.keeps_expression Stmt.keeps_block Stmt.keeps_whileLoop (List.nil_subset _)
      (fun s hs => (hinitial.keeps s hs).mono fun t ht => by simp [ht])
      (fun e he t ht => by simp [hcondition.kept_subset e he ht])
      (fun e he t ht => by simp [hincrement.kept_subset e he ht]) (ih.mono fun t ht => by simp [ht])

end Grammar

/-! ## Diagnostics and sources -/

/-- The diagnostic points into the source: at a lexical fault of it, at a token with its lexeme or at the end,
or at an operator or a name. -/
def Diagnostic.Located (source : String) : Diagnostic → Prop
  | .lexical line _ => ∃ f ∈ Source.faults source, line = f.line
  | .grammatical line lexeme _ =>
    (∃ t ∈ Source.body source, line = t.line ∧ lexeme = some t.lexeme) ∨
      (line = 1 + source.toList.count '\n' ∧ lexeme = none)
  | .runtime line _ => ∃ t ∈ Source.body source, t.kind ∈ keptKinds ∧ line = t.line
  | .output _ | .encoding _ => True

section
variable {source : String} {d : Diagnostic}

/-- A fault that blames a token of the source, or its end mark, points into the source. -/
theorem located_of_token {f : ParseFault}
    (h : f.token = Item.endMark (1 + source.toList.count '\n') ∨ f.token ∈ Source.body source) :
    f.diagnostic.Located source := by
  rcases h with h | h
  · exact .inr ⟨congrArg Token.line h, congrArg Token.quotable? h⟩
  · exact .inl ⟨f.token, h, rfl, if_neg (Source.kind_ne_eof_of_mem_body h)⟩

/-- What is said about reading a source points into it if what is said about its tokens does. -/
theorem located_of_static {reports : List ParseFault} (hreports : ∀ f ∈ reports, f.diagnostic.Located source)
    (h : d ∈ Source.diagnostics source ++ reports.map ParseFault.diagnostic) : d.Located source := by
  rcases List.mem_append.1 h with h | h
  · obtain ⟨f, hf, rfl⟩ := List.mem_map.1 h
    exact ⟨f, hf, rfl⟩
  · obtain ⟨f, hf, rfl⟩ := List.mem_map.1 h
    exact hreports f hf

/-- What is reported while a source is read as a program points into it. -/
theorem located_of_mem_program (h : d ∈ (Source.program source).2) : d.Located source := by
  have hreports : ∀ f ∈ (Parse.program (Source.tokens source)).2, f.diagnostic.Located source := by
    intro f hf
    rw [Source.tokens_eq,
      Parse.program_append_mark_reports (fun _ => Source.kind_ne_eof_of_mem_body) rfl] at hf
    exact located_of_token ((Parser.program_blames _ _ _).token_mem hf)
  exact located_of_static hreports h

/-- What is reported while a source is read as an expression points into it. -/
theorem located_of_mem_expression (h : d ∈ (Source.expression source).2) : d.Located source := by
  have hreports : ∀ f ∈ (Parse.expression (Source.tokens source)).2, f.diagnostic.Located source := by
    intro f hf
    rw [Source.tokens_eq, Parse.expression,
      Stream.ofTokens?_append_mark (fun _ => Source.kind_ne_eof_of_mem_body) rfl] at hf
    have hblames := Parser.soleExpression_blames (Source.body source).length
      (Item.endMark (1 + source.toList.count '\n')) (Source.body source)
    dsimp only at hf
    split at hf
    · exact located_of_token (hblames.token_mem hf)
    · next fault hfault =>
      rcases List.mem_append.1 hf with hf | hf
      · exact located_of_token (hblames.token_mem hf)
      · obtain rfl := List.mem_singleton.1 hf
        exact located_of_token (hblames.token_mem_of_error hfault)
  exact located_of_static hreports h

/-- An expression that keeps only tokens of the source stops on the line of one of them. -/
theorem located_of_eval {S : Token → Prop} {e : Expr} {c : Chain} {fault : RuntimeFault}
    (hkept : e.kept ⊆ Source.body source) (hregular : e.Regular S) (h : (e.eval c).1 = .error fault) :
    fault.diagnostic.Located source := by
  obtain ⟨t, ht, hline⟩ := Expr.eval_error_line h
  exact ⟨t, hkept ht, hregular.kind_mem_of_mem_kept t ht, hline⟩

end

namespace Session

section
variable {rounds : Nat} {source : String} {s : Session} {d : Diagnostic}

/-- What a run reports points into its source. -/
theorem located_run (h : d ∈ (s.run rounds source).diagnostics) : d.Located source := by
  by_cases hread : (Source.program source).2 = []
  · rcases mem_diagnostics_run h with h | ⟨fault | cause, hstop, rfl⟩
    · exact located_of_mem_program h
    · obtain ⟨site, hsite, c, -, heval⟩ := Stmt.execAll_stopsOnlyAt rounds _ [] s.machine fault nofun
        (interpret_stopped hstop)
      obtain ⟨stmt, hstmt, visible, hsite⟩ := Stmt.exists_of_mem_sitesAll hsite
      have hregular := Parse.program_regular (Source.tokens source) stmt hstmt
      obtain ⟨-, parts, hbody, htrees, hparts⟩ :=
        (Source.program_eq_iff source (Source.program source).1).1 (Prod.ext rfl hread)
      rw [htrees] at hstmt
      obtain ⟨p, hp, rfl⟩ := List.mem_map.1 hstmt
      refine located_of_eval (fun t ht => ?_) (hregular.of_mem_sites site hsite) heval
      rw [hbody]
      exact List.mem_flatMap.2 ⟨p, hp, (hparts p hp).keeps visible site hsite ht⟩
    · trivial
  · -- Nothing was run.
    have hstatic : (Source.program source).2.hasStatic = true := by
      rw [← Bool.not_eq_false, Source.hasStatic_program_eq_false_iff]
      exact hread
    rw [run] at h
    dsimp only at h
    rw [if_pos hstatic] at h
    exact located_of_mem_program h

/-- What an evaluation reports points into its source. -/
theorem located_evaluate (h : d ∈ (s.evaluate source).2.1) : d.Located source := by
  cases he : evaluable? source with
  | none =>
    rw [evaluate_of_evaluable?_eq_none he] at h
    exact located_of_mem_expression h
  | some e =>
    have hread := evaluable?_eq_some_iff.1 he
    have htree := congrArg Prod.fst ((Source.expression_eq_iff source e).2 hread)
    have hregular := Parse.expression_regular (Source.tokens source) e htree
    rw [evaluate_of_evaluable?_eq_some he] at h
    rcases heval : s.machine.eval e with ⟨fault | v, m⟩ <;> rw [heval] at h
    · obtain rfl := List.mem_singleton.1 h
      exact located_of_eval hread.2.kept_subset hregular (congrArg Prod.fst heval)
    · cases h

end

/-! ## Calls in a row -/

/-- The source of a call. -/
def Call.source : Call → String
  | run _ source | evaluate source => source

/-- What a call reports points into the source of the call. -/
theorem located_perform {s : Session} {call : Call} :
    ∀ d ∈ (s.perform call).diagnostics, d.Located call.source := by
  cases call with
  | run rounds source => exact fun d hd => located_run hd
  | evaluate source => exact fun d hd => located_evaluate hd

/-- What calls in a row report points into the source of each call, never into that of another one. -/
theorem located_performAll (s : Session) (calls : List Call) :
    List.Forall₂ (fun call reply => ∀ d ∈ reply.diagnostics, d.Located call.source) calls
      (s.performAll calls) := by
  induction calls generalizing s with
  | nil => exact .nil
  | cons call rest ih => exact .cons located_perform (ih _)

/-- Lines are exact from the text to what is reported. Each item of a source stands on the line where its span
ends, and lines never decrease. Whatever calls a session performs, what each one reports points into its own
source: a fault of reading at a token with its lexeme or at the end, and a fault of a run at an operator or a
name. -/
theorem lines_exact (source : String) (s : Session) (calls : List Call) :
    (∃ answers : List LoxLang.Call,
      (∀ more, Scanner.calls source.toList (source.utf8ByteSize + 1) (answers.length + more)
        Scanner.origin = .ok (answers ++ List.replicate more Scanner.silent)) ∧
      answers.map LoxLang.Call.item = (Source.items source).map some ∧
      ∀ call ∈ answers, Scanner.ExactLine source.toList call) ∧
    ((Source.items source).Pairwise fun item other => item.line ≤ other.line) ∧
    List.Forall₂ (fun call reply => ∀ d ∈ reply.diagnostics, d.Located call.source) calls
      (s.performAll calls) :=
  ⟨Scanner.exists_calls_exactLine source, Item.pairwise_line_ofPieces 1 _, located_performAll s calls⟩

end Session

end LoxLang
