import LoxLang.Proofs.Parse.Regular
import LoxLang.Proofs.Run.Faults
import LoxLang.Proofs.Session.Units

/-!
# What a session reports

A unit of source reports the faults of reading it, or else the one fault that its run stopped at
(`mem_diagnostics_run`, `mem_diagnostics_evaluate`). Two things follow from what a run can stop at.

A program whose names are declared before they are used never reports an undefined variable
(`run_of_declaredBeforeUse`). The check goes through the statements with the names that are visible to
each; it looks at no value, and at every branch and every body once.

The trees that are read can always be dispatched on (`trees_dispatch`): no operator in them is of a kind
that its place does not take, so whatever calls a session performs, none of them reports an operator.
-/

namespace LoxLang

/-! ## Messages -/

/-- The characters that tell the messages of faults apart. -/
def opening (message : String) : List Char :=
  message.toList.take 9

/-- A long enough beginning of a message tells it apart, whatever follows. -/
theorem opening_append {start : String} (h : 9 ≤ start.toList.length) (more : String) :
    opening (start ++ more) = opening start := by
  rw [opening, String.toList_append, List.take_append_of_le_length h, opening]

/-- The message about an undefined variable is told by its beginning. -/
theorem opening_undefinedVariable (name : String) :
    opening (RuntimeCause.undefinedVariable name).message = "Undefined".toList := by
  show opening ("Undefined variable '" ++ name ++ "'.") = _
  rw [String.append_assoc]
  exact (opening_append (by decide) _).trans (by decide)

/-- The message about an invalid operator is told by its beginning. -/
theorem opening_invalidOperator (lexeme : String) :
    opening (RuntimeCause.invalidOperator lexeme).message = "Invalid o".toList := by
  show opening ("Invalid operator '" ++ lexeme ++ "'.") = _
  rw [String.append_assoc]
  exact (opening_append (by decide) _).trans (by decide)

/-- No other fault of a run is reported as an undefined variable. -/
theorem message_ne_undefinedVariable {message : String} (h : opening message ≠ "Undefined".toList)
    (name : String) : message ≠ (RuntimeCause.undefinedVariable name).message := by
  rintro rfl
  exact h (opening_undefinedVariable name)

/-- A message with another beginning is not about an invalid operator. -/
theorem message_ne_invalidOperator {message : String} (h : opening message ≠ "Invalid o".toList)
    (lexeme : String) : message ≠ (RuntimeCause.invalidOperator lexeme).message := by
  rintro rfl
  exact h (opening_invalidOperator lexeme)

/-- A message about operands is neither about an undefined variable nor about an operator. -/
theorem opening_operandCauses : ∀ cause ∈ operandCauses,
    opening cause.message ≠ "Undefined".toList ∧ opening cause.message ≠ "Invalid o".toList := by
  decide

/-- A message about output is neither about an undefined variable nor about an operator. -/
theorem opening_output (cause : OutputCause) :
    opening cause.message ≠ "Undefined".toList ∧ opening cause.message ≠ "Invalid o".toList := by
  cases cause <;> decide

/-- A message about characters is not about an operator. -/
theorem opening_lexical (cause : LexicalCause) : opening cause.message ≠ "Invalid o".toList := by
  cases cause <;> decide

/-- A message about tokens is not about an operator. -/
theorem opening_grammatical (cause : ParseCause) : opening cause.message ≠ "Invalid o".toList := by
  cases cause <;> decide

/-! ## The fault of a unit -/

namespace Session

variable {rounds : Nat} {source : String} {s : Session} {d : Diagnostic}

/-- A session that stops at a fault of the program has executed the program up to that fault; flushing the sink
gives no such fault. -/
theorem interpret_stopped {program : List Stmt} {fault : RuntimeFault}
    (h : (s.interpret rounds program).1 = .stopped (.runtime fault)) :
    (Stmt.execAll rounds program s.machine).1 = .stopped (.runtime fault) := by
  rw [interpret] at h
  rcases hrun : Stmt.execAll rounds program s.machine with ⟨_ | fault' | _, m⟩ <;> rw [hrun] at h
  · dsimp only at h
    split at h <;> cases h
  · exact h
  · cases h

/-- A run reports the faults of reading its unit or the one it stopped at. -/
theorem mem_diagnostics_run (h : d ∈ (s.run rounds source).diagnostics) :
    d ∈ (Source.program source).2 ∨
      ∃ fault, (s.interpret rounds (Source.program source).1).1 = .stopped fault ∧
        d = fault.diagnostic := by
  rw [run] at h
  dsimp only at h
  split at h
  · exact .inl h
  · rcases hrun : s.interpret rounds (Source.program source).1 with ⟨_ | fault | _, s'⟩ <;>
      rw [hrun] at h
    · exact .inl h
    · rcases List.mem_append.1 h with h | h
      · exact .inl h
      · exact .inr ⟨fault, rfl, List.mem_singleton.1 h⟩
    · exact .inl h

/-- An evaluation reports the faults of reading its unit or the one it stopped at. -/
theorem mem_diagnostics_evaluate (h : d ∈ (s.evaluate source).2.1) :
    d ∈ (Source.expression source).2 ∨
      ∃ e fault, (Source.expression source).1 = some e ∧
        (e.eval (.root s.globals)).1 = .error fault ∧ d = fault.diagnostic := by
  rw [evaluate] at h
  rcases hread : Source.expression source with ⟨_ | e, ds⟩ <;> rw [hread] at h
  · exact .inl h
  · dsimp only at h
    split at h
    · exact .inl h
    · rcases heval : s.evaluateExpr e with ⟨fault | v, s'⟩ <;> rw [heval] at h
      · rcases List.mem_append.1 h with h | h
        · exact .inl h
        · exact .inr ⟨e, fault, rfl, congrArg Prod.fst heval, List.mem_singleton.1 h⟩
      · exact .inl h

end Session

/-! ## Names that are declared before they are used -/

/-- Every name that is read or assigned is visible where it stands, if the given names are visible at the
beginning: a declaration makes its name visible behind it, to the end of its block. -/
def Stmt.DeclaredBeforeUse (visible : List String) (program : List Stmt) : Prop :=
  ∀ site ∈ Stmt.sitesAll visible program, ∀ t ∈ site.expr.names, t.lexeme ∈ site.visible

/-- Whether names are declared before they are used can be decided by going through the statements. -/
instance (visible : List String) (program : List Stmt) :
    Decidable (Stmt.DeclaredBeforeUse visible program) :=
  inferInstanceAs (Decidable (∀ site ∈ Stmt.sitesAll visible program,
    ∀ t ∈ site.expr.names, t.lexeme ∈ site.visible))

namespace Session

/-- A run in which every name is declared before it is used never reports an undefined variable, whichever
branches it takes, however often its loops go round, and whatever else it stops at. -/
theorem run_of_declaredBeforeUse {s : Session} {source : String} {visible : List String}
    (hglobals : ∀ name ∈ visible, (s.globals.get? name).isSome)
    (hstatic : (Source.program source).2.hasStatic = false)
    (hdeclared : Stmt.DeclaredBeforeUse visible (Source.program source).1) (rounds : Nat) :
    ∀ d ∈ (s.run rounds source).diagnostics, ∀ name,
      d.message ≠ (RuntimeCause.undefinedVariable name).message := by
  intro d hd name
  rw [Source.hasStatic_program_eq_false_iff] at hstatic
  rcases mem_diagnostics_run hd with hd | ⟨fault | cause, hstop, rfl⟩
  · rw [hstatic] at hd
    cases hd
  · obtain ⟨site, hsite, c, hc, heval⟩ := Stmt.execAll_stopsOnlyAt rounds _ visible s.machine fault
      hglobals (interpret_stopped hstop)
    show fault.cause.message ≠ _
    rcases Expr.eval_error heval with hcause | ⟨t, ht, hnone, -⟩ | ⟨operator, -, hcause⟩
    · exact message_ne_undefinedVariable (opening_operandCauses _ hcause).1 name
    · have hbound := hc t.lexeme (hdeclared site hsite t ht)
      rw [hnone] at hbound
      cases hbound
    · rw [hcause]
      refine message_ne_undefinedVariable ?_ name
      rw [opening_invalidOperator]
      decide
  · exact message_ne_undefinedVariable (opening_output cause).1 name

/-- A loop whose body declares a variable and a block in it that hides one; `n` comes from outside. -/
def nestedLoop : String :=
  "var i = \"\"; while (i != n) \x7b var j = i + \"x\"; \x7b var i = j; print i + n; \x7d i = j; \x7d"

/-- With `n` given, the loop and its hiding block report no undefined variable, however many rounds are allowed. -/
theorem run_of_declaredBeforeUse_nestedLoop :
    (Source.program nestedLoop).2.hasStatic = false ∧
      Stmt.DeclaredBeforeUse ["n"] (Source.program nestedLoop).1 ∧
      ∀ rounds, ∀ d ∈ (Session.run rounds nestedLoop
          ⟨.ofList [("n", .string "xxx")], .unlimited⟩).diagnostics, ∀ name,
        d.message ≠ (RuntimeCause.undefinedVariable name).message := by
  have hglobals : ∀ name ∈ ["n"],
      ((Scope.ofList [("n", .string "xxx")]).get? name).isSome := by decide
  have hstatic : (Source.program nestedLoop).2.hasStatic = false := by decide +kernel
  have hdeclared : Stmt.DeclaredBeforeUse ["n"] (Source.program nestedLoop).1 := by decide +kernel
  exact ⟨hstatic, hdeclared, run_of_declaredBeforeUse (s := ⟨_, _⟩) hglobals hstatic hdeclared⟩

/-- The initial value of a variable does not see the variable. -/
example : ¬Stmt.DeclaredBeforeUse [] (Source.program "var a = a;").1 := by
  decide +kernel

end Session

/-! ## Trees that can be dispatched on -/

/-- An operator of the kinds that its place takes is not among the misplaced ones. -/
theorem filter_operator {operator : Token} (kinds : List Kind) (h : operator.kind ∈ kinds) :
    [operator].filter (·.kind ∉ kinds) = [] := by
  simp [h]

/-- No operator of a regular expression is misplaced. -/
theorem Expr.Regular.misplaced_eq_nil {S : Token → Prop} {e : Expr} (h : e.Regular S) :
    e.misplaced = [] := by
  induction h with
  | literal | read => rfl
  | grouping _ ih | assign _ _ _ ih => exact ih
  | unary hkind _ ih => rw [misplaced, filter_operator unaryKinds hkind, ih, List.append_nil]
  | binary hkind _ _ ihleft ihright =>
    rw [misplaced, filter_operator binaryKinds hkind, ihleft, ihright, List.append_nil,
      List.append_nil]
  | logical hkind _ _ ihleft ihright =>
    rw [misplaced, filter_operator logicalKinds hkind, ihleft, ihright, List.append_nil,
      List.append_nil]

/-- The expressions of a regular statement are regular. -/
theorem Stmt.Regular.of_mem_sites {S : Token → Prop} {s : Stmt} (h : s.Regular S) :
    ∀ {visible : List String}, ∀ site ∈ s.sites visible, site.expr.Regular S := by
  induction h with
  | expression he | print he => exact List.forall_mem_singleton.2 he
  | @declare _ initial _ _ hinitial =>
    cases initial with
    | none => exact nofun
    | some e => exact List.forall_mem_singleton.2 (hinitial e rfl)
  | block _ ih =>
    intro visible site hsite
    obtain ⟨s, hs, visible', hsite⟩ := Stmt.exists_of_mem_sitesAll hsite
    exact ih s hs site hsite
  | ifThen hcondition _ _ ih | whileLoop hcondition _ _ ih =>
    exact List.forall_mem_cons.2 ⟨hcondition, ih⟩
  | ifThenElse hcondition _ _ _ _ ihyes ihno =>
    exact List.forall_mem_cons.2 ⟨hcondition, List.forall_mem_append.2 ⟨ihyes, ihno⟩⟩

/-- A regular expression stops at operands of the wrong types or at a name that is not bound. -/
theorem Expr.Regular.eval_error {S : Token → Prop} {e : Expr} (h : e.Regular S) {c : Chain}
    {fault : RuntimeFault} (hfault : (e.eval c).1 = .error fault) :
    fault.cause ∈ operandCauses ∨ ∃ name, fault.cause = .undefinedVariable name := by
  rcases Expr.eval_error hfault with hcause | ⟨t, -, -, hcause⟩ | ⟨operator, hoperator, -⟩
  · exact .inl hcause
  · exact .inr ⟨t.lexeme, hcause⟩
  · rw [h.misplaced_eq_nil] at hoperator
    cases hoperator

/-- The diagnostic is not about an operator, and if it is about an expression without a value, then about
operands of the wrong types or an undefined variable. -/
def Diagnostic.Dispatched (d : Diagnostic) : Prop :=
  (∀ lexeme, d.message ≠ (RuntimeCause.invalidOperator lexeme).message) ∧
    ∀ line message, d = .runtime line message →
      (∃ cause ∈ operandCauses, message = cause.message) ∨
        ∃ name, message = (RuntimeCause.undefinedVariable name).message

/-- What is said about reading a source is about its text. -/
theorem dispatched_of_static {source : String} {reports : List ParseFault} {d : Diagnostic}
    (h : d ∈ Source.diagnostics source ++ reports.map ParseFault.diagnostic) : d.Dispatched := by
  rcases List.mem_append.1 h with h | h
  · obtain ⟨f, -, rfl⟩ := List.mem_map.1 h
    exact ⟨message_ne_invalidOperator (opening_lexical f.cause), fun _ _ h => by cases h⟩
  · obtain ⟨f, -, rfl⟩ := List.mem_map.1 h
    exact ⟨message_ne_invalidOperator (opening_grammatical f.cause), fun _ _ h => by cases h⟩

/-- What a regular expression stops at is not an operator. -/
theorem dispatched_of_fault {S : Token → Prop} {e : Expr} (h : e.Regular S) {c : Chain}
    {fault : RuntimeFault} (hfault : (e.eval c).1 = .error fault) : fault.diagnostic.Dispatched := by
  rcases h.eval_error hfault with hcause | ⟨name, hcause⟩
  · refine ⟨message_ne_invalidOperator (opening_operandCauses _ hcause).2, ?_⟩
    rintro _ _ ⟨⟩
    exact .inl ⟨_, hcause, rfl⟩
  · refine ⟨message_ne_invalidOperator ?_, ?_⟩
    · show opening fault.cause.message ≠ _
      rw [hcause, opening_undefinedVariable]
      decide
    · rintro _ _ ⟨⟩
      exact .inr ⟨name, congrArg _ hcause⟩

namespace Session

/-- What a run reports is not an operator: a source that is run has been read to regular trees. -/
theorem dispatched_run {rounds : Nat} {source : String} {s : Session} {d : Diagnostic}
    (h : d ∈ (s.run rounds source).diagnostics) : d.Dispatched := by
  rcases mem_diagnostics_run h with h | ⟨fault | cause, hstop, rfl⟩
  · exact dispatched_of_static h
  · obtain ⟨site, hsite, c, -, heval⟩ := Stmt.execAll_stopsOnlyAt rounds _ [] s.machine fault nofun
      (interpret_stopped hstop)
    obtain ⟨stmt, hstmt, _, hsite⟩ := Stmt.exists_of_mem_sitesAll hsite
    have hregular := Parse.program_regular (Source.tokens source) stmt hstmt
    exact dispatched_of_fault (hregular.of_mem_sites site hsite) heval
  · exact ⟨message_ne_invalidOperator (opening_output cause).2, fun _ _ h => by cases h⟩

/-- What an evaluation reports is not an operator. -/
theorem dispatched_evaluate {source : String} {s : Session} {d : Diagnostic}
    (h : d ∈ (s.evaluate source).2.1) : d.Dispatched := by
  rcases mem_diagnostics_evaluate h with h | ⟨e, fault, he, heval, rfl⟩
  · exact dispatched_of_static h
  · exact dispatched_of_fault (Parse.expression_regular (Source.tokens source) e he) heval

/-! ## Calls in a row -/

/-- What a session is asked for. -/
inductive Call where
  | run (rounds : Nat) (source : String)
  | evaluate (source : String)

/-- What a session answers, and the session behind the call. -/
structure Reply where
  value : Option Value
  diagnostics : Diagnostics
  session : Session

/-- Performs a call; a run has no value. -/
def perform (s : Session) : Call → Reply
  | .run rounds source => ⟨none, (s.run rounds source).diagnostics, (s.run rounds source).session⟩
  | .evaluate source =>
    let (value, diagnostics, session) := s.evaluate source
    ⟨value, diagnostics, session⟩

/-- The replies to calls that one session performs one after the other. -/
def performAll : Session → List Call → List Reply
  | _, [] => []
  | s, call :: rest => s.perform call :: (s.perform call).session.performAll rest

/-- What a call reports is not an operator. -/
theorem dispatched_perform {s : Session} {call : Call} :
    ∀ d ∈ (s.perform call).diagnostics, d.Dispatched := by
  cases call with
  | run rounds source => exact fun d hd => dispatched_run hd
  | evaluate source => exact fun d hd => dispatched_evaluate hd

/-- What calls in a row report is not an operator. -/
theorem dispatched_performAll (s : Session) (calls : List Call) :
    ∀ reply ∈ s.performAll calls, ∀ d ∈ reply.diagnostics, d.Dispatched := by
  induction calls generalizing s with
  | nil => exact nofun
  | cons call rest ih => exact List.forall_mem_cons.2 ⟨dispatched_perform, ih _⟩

/-- What is read can always be dispatched on. From every token list and whatever is reported, the program
and the expression that are returned have only operators that their places take, only identifiers of the
list as names, and no declaration as a branch or a body. So no call of any session reports an operator:
a fault of a run is one of operands or of an undefined variable. -/
theorem trees_dispatch (tokens : List Token) (s : Session) (calls : List Call) :
    (∀ tree ∈ (Parse.program tokens).1, tree.Regular (· ∈ tokens)) ∧
      (∀ e ∈ (Parse.expression tokens).1, e.Regular (· ∈ tokens)) ∧
      ∀ reply ∈ s.performAll calls, ∀ d ∈ reply.diagnostics, d.Dispatched :=
  ⟨Parse.program_regular tokens, Parse.expression_regular tokens, dispatched_performAll s calls⟩

end Session

end LoxLang
