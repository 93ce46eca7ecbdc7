import LoxLang.Proofs.Session.Exchanges
import LoxLang.Proofs.Token.Layout

/-!
# Evaluating and printing

A session can evaluate an expression, or run a program that prints it. The two go different ways: an
expression is read up to the mark of the end, and a `print` statement up to a semicolon. But the word and
the blank behind it do not touch the source that follows (`Source.items_print`), and a newline ends whatever
the source ends with, be it a comment. So a source that is an expression is printed as that expression
(`Source.program_printing`), on the same lines, and `run_printing` says that nothing tells the two apart but
the output.
-/

namespace LoxLang

open Grammar

namespace Source

/-- The source of a `print` statement: the word, a source as its expression, and a semicolon on a line of its
own. -/
def printing (source : String) : String :=
  "print " ++ source ++ "\n;"

/-! ## Reading -/

/-- The token of the word before a source. -/
def printToken : Token :=
  ⟨.printWord, "print", none, 1⟩

/-- The word adds its token to those of the source, which stay on their lines. -/
theorem items_print (source : String) :
    items ("print " ++ source) = .token printToken :: items source := by
  have hword : Lexical.Denotes ['p', 'r', 'i', 'n', 't'] .printWord none :=
    .reserved (.mk rfl (by simp [Piece.isWordPart])) (by decide)
  have hstops : ∀ d ∈ (' ' :: source.toList).head?, (Lexical.classOf 'p').Stops d := by
    rintro _ ⟨⟩
    exact Lexical.stops_of_mem_blanks (by decide) _
  have hblank : Lexical.Step [' '] source.toList .blank := .blank (by decide)
  have htext : ("print " ++ source).toList = ['p', 'r', 'i', 'n', 't'] ++ ([' '] ++ source.toList) :=
    String.toList_append
  rw [items, htext]
  refine ((hword.step_of_stops hstops).ofPieces_token 1).trans ?_
  exact congrArg (.token printToken :: ·) (hblank.ofPieces_blank 1)

/-- The word before a source adds no fault to those of the source. -/
theorem faults_print (source : String) : faults ("print " ++ source) = faults source := by
  rw [faults, items_print]
  rfl

/-- The word before a source is one token before those of the source. -/
theorem body_print (source : String) : body ("print " ++ source) = printToken :: body source := by
  have hne : items source ≠ [] := Item.ofPieces_ne_nil _ _
  rw [body, items_print, List.dropLast_cons_of_ne_nil hne]
  rfl

/-- A source that is an expression is a `print` statement of that expression. -/
theorem program_printing {source : String} {e : Expr} (hfaults : faults source = [])
    (he : Expression (body source) e) : program (printing source) = ([.print e], []) := by
  have hnone : faults ("print " ++ source) = [] := (faults_print source).trans hfaults
  have hopen : ∀ f ∈ faults ("print " ++ source), f.cause ≠ .unterminatedString := by
    rw [hnone]
    exact nofun
  have htext : printing source = "print " ++ source ++ "\n" ++ ";" := by
    rw [String.append_assoc]
    rfl
  have hsemicolon : faults ";" = [] ∧ body ";" = [⟨.semicolon, ";", none, 1⟩] := by decide
  have hprint (t : Token) (ht : t.kind = .semicolon) :
      Program .nearest (printToken :: body source ++ [t]) [.print e] := by
    have hstmt : DerivesStmt .nearest .declaration (printToken :: body source ++ [t]) (.print e) :=
      .statement (.printStmt rfl he ht)
    exact List.append_nil (_ ++ [t]) ▸ Program.cons hstmt (.nil _)
  rw [htext, program_eq_iff, faults_append_newline ";" hopen, body_append_newline ";" hopen, hnone,
    hsemicolon.1, hsemicolon.2, body_print]
  exact ⟨rfl, hprint _ rfl⟩

end Source

namespace Session

variable {source : String} {s : Session} {e : Expr}

/-! ## Running -/

/-- On a sink that takes everything, printing an expression is evaluating it and, if it has a value, adding
that to the output. -/
theorem run_of_program_print (hsink : s.sink.Reliable) (rounds : Nat)
    (h : Source.program source = ([.print e], [])) :
    s.run rounds source =
      match s.machine.eval e with
      | (.ok v, m) => ⟨[], true, ⟨m.chain.globals, s.sink.append (Machine.printed v)⟩⟩
      | (.error fault, m) => ⟨[fault.diagnostic], true, ofMachine m⟩ := by
  have hkeeps : (s.machine.eval e).2.sink = s.sink := rfl
  rw [run_of_program h, interpret_of_flush hsink.2, Stmt.execAll, Stmt.exec, Machine.evalThen]
  rcases heval : s.machine.eval e with ⟨fault | v, m⟩
  · rfl
  · rw [heval] at hkeeps
    dsimp only at hkeeps ⊢
    rw [Machine.print, hkeeps, hsink.write_eq]
    rfl

/-- Printing an expression agrees with evaluating it. Whatever the source and the session, if evaluating the
source meets no static fault, the run that prints it meets none either and comes to its end. If the source
has a value, the run succeeds and prints the value and a newline; if evaluating it stops at a fault, the run
prints nothing and reports the same fault on the same line. And either way the same names are bound to the
same values in the root scope. -/
theorem run_printing (source : String) (rounds : Nat) (hsink : s.sink.Reliable)
    (hstatic : (s.evaluate source).2.1.hasStatic = false) :
    let evaluated := s.evaluate source
    let printed := s.run rounds (Source.printing source)
    printed.diagnostics.hasStatic = false ∧
      printed.finished = true ∧
      (∀ v, evaluated.1 = some v →
        printed.diagnostics = [] ∧ printed.session.sink = s.sink.append (v.render ++ "\n").toUTF8) ∧
      (∀ line message, .runtime line message ∈ evaluated.2.1 →
        printed.diagnostics = [.runtime line message] ∧ printed.session.sink = s.sink) ∧
      printed.session.globals = evaluated.2.2.globals := by
  intro evaluated printed
  obtain ⟨e, he⟩ : ∃ e, evaluable? source = some e := by
    refine Option.ne_none_iff_exists'.1 fun hnone => ?_
    rw [evaluate_of_evaluable?_eq_none hnone] at hstatic
    exact Bool.false_ne_true (hstatic.symm.trans ((evaluable?_eq_none_iff source).1 hnone))
  obtain ⟨hfaults, hbody⟩ := evaluable?_eq_some_iff.1 he
  have hevaluated : evaluated = _ := evaluate_of_evaluable?_eq_some he s
  have hprinted : printed = _ :=
    run_of_program_print hsink rounds (Source.program_printing hfaults hbody)
  have hkeeps : (s.machine.eval e).2.sink = s.sink := rfl
  rw [hevaluated, hprinted]
  rcases heval : s.machine.eval e with ⟨fault | v, m⟩ <;> rw [heval] at hkeeps
  · refine ⟨rfl, rfl, nofun, fun line message hmem => ?_, rfl⟩
    exact ⟨congrArg (· :: []) (List.mem_singleton.1 hmem).symm, hkeeps⟩
  · refine ⟨rfl, rfl, ?_, nofun, rfl⟩
    rintro _ ⟨⟩
    exact ⟨rfl, rfl⟩

/-- A session whose root scope binds one name, to a truth value. -/
def switched : Session :=
  ⟨Scope.empty.define "on" (.bool true), .unlimited⟩

/-- A printed expression assigns on its way: what is read behind the assignment sees the new value, also when the
run then stops. -/
theorem run_printing_switched :
    (switched.run 1 (Source.printing "on = !on // off")).session.sink =
        Sink.unlimited.append "false\n".toUTF8 ∧
      (switched.run 1 (Source.printing "(on = !on) ==\n off")).diagnostics =
        [.runtime 2 "Undefined variable 'off'."] ∧
      (switched.run 1 (Source.printing "(on = !on) ==\n off")).session.globals.get? "on" =
        some (.bool false) := by
  have hvalue : (switched.evaluate "on = !on // off").1 = some (.bool false) := by decide +kernel
  have hfault : .runtime 2 "Undefined variable 'off'." ∈
      (switched.evaluate "(on = !on) ==\n off").2.1 := by decide +kernel
  have hon : (switched.evaluate "(on = !on) ==\n off").2.2.globals.get? "on" = some (.bool false) := by
    decide +kernel
  have htext : (Value.bool false).render ++ "\n" = "false\n" := by decide
  have hturned :=
    run_printing (s := switched) "on = !on // off" 1 Sink.reliable_unlimited (by decide +kernel)
  have hstopped :=
    run_printing (s := switched) "(on = !on) ==\n off" 1 Sink.reliable_unlimited (by decide +kernel)
  refine ⟨?_, (hstopped.2.2.2.1 _ _ hfault).1, ?_⟩
  · exact htext ▸ (hturned.2.2.1 _ hvalue).2
  · rw [hstopped.2.2.2.2]
    exact hon

end Session

end LoxLang
