import Mathlib.Data.List.Forall2
import LoxLang.Proofs.Parse.Lines
import LoxLang.Proofs.Run.Agreement
import LoxLang.Proofs.Session.Rest

/-!
# What a run depends on

What a run shows is what it reports, what it prints and what it leaves in the root scope. Two runs are
compared, in two sessions whose sinks take everything. They show the same if the sources have the same
tokens but for their lines, which come back in the lines of diagnostics only (`run_of_sameText`), and if the
root scopes agree on the identifiers of the source, of which a run changes only those that it assigns or
declares (`run_of_agreeOn_named`).

Both are cases of `runRead_alike`: trees are run alike in root scopes that agree on their names, also with
their lines moved. Sources that differ in lines only are compared through trees in which all lines are the
same, which both sources are run alike with.
-/

namespace LoxLang

/-- Whether a fault is static does not depend on its line. -/
theorem Diagnostics.hasStatic_reline (move : Nat → Nat) (ds : Diagnostics) :
    hasStatic (ds.map (Diagnostic.reline move)) = ds.hasStatic := by
  have hstatic : Diagnostic.isStatic ∘ Diagnostic.reline move = Diagnostic.isStatic := by
    funext d
    cases d <;> rfl
  rw [hasStatic, hasStatic, List.any_map, hstatic]

namespace Session

section
variable {P : String → Prop} {s s' : Session}

/-! ## Runs that are alike -/

/-- Runs in the sessions `s` and `s'` that cannot be told apart but for lines: the second one reports what
the first one does with its lines moved, both print the same, and their root scopes agree. -/
structure Alike (move : Nat → Nat) (P : String → Prop) (s s' : Session) (r r' : Report) : Prop where
  diagnostics : r'.diagnostics = r.diagnostics.map (Diagnostic.reline move)
  finished : r'.finished = r.finished
  printed : ∃ printed, r.session.sink = s.sink.append printed ∧
    r'.session.sink = s'.sink.append printed
  globals : r.session.globals.AgreeOn P r'.session.globals

/-- Runs what was read of a unit of source, with the diagnostics of reading it. -/
def runRead (rounds : Nat) (read : List Stmt × Diagnostics) (s : Session) : Report :=
  if read.2.hasStatic then ⟨read.2, true, s⟩
  else
    let report := Report.ofRun (s.interpret rounds read.1)
    { report with diagnostics := read.2 ++ report.diagnostics }

/-- A unit of source is run by running what was read of it. -/
theorem run_eq_runRead (rounds : Nat) (source : String) (s : Session) :
    s.run rounds source = s.runRead rounds (Source.program source) := by
  rw [run, runRead]
  dsimp only
  split
  · rfl
  · rcases s.interpret rounds (Source.program source).1 with ⟨_ | _ | _, s'⟩
    · simp only [Report.ofRun, List.append_nil]
    · rfl
    · simp only [Report.ofRun, List.append_nil]

/-- Executions that end alike are reported alike. -/
theorem alike_ofRun (move : Nat → Nat) (completion : Completion) (t t' : Session)
    (hprinted : ∃ printed, t.sink = s.sink.append printed ∧ t'.sink = s'.sink.append printed)
    (hglobals : t.globals.AgreeOn P t'.globals) :
    Alike move P s s' (Report.ofRun (completion, t)) (Report.ofRun (completion.reline move, t')) := by
  cases completion with
  | done | unfinished => exact ⟨rfl, rfl, hprinted, hglobals⟩
  | stopped fault =>
    have hdiagnostic := fault.diagnostic_reline move
    exact ⟨congrArg ([·]) hdiagnostic, rfl, hprinted, hglobals⟩

/-- What was read is run alike in sessions that agree on its names, also with its lines moved. -/
theorem runRead_alike (move : Nat → Nat) (read : List Stmt × Diagnostics)
    (hnames : ∀ stmt ∈ read.1, ∀ t ∈ stmt.names, P t.lexeme) (hs : s.sink.Reliable)
    (hs' : s'.sink.Reliable) (hglobals : s.globals.AgreeOn P s'.globals) (rounds : Nat) :
    Alike move P s s' (s.runRead rounds read)
      (s'.runRead rounds (read.1.map (Stmt.reline move), read.2.map (Diagnostic.reline move))) := by
  rw [runRead, runRead]
  dsimp only
  rw [Diagnostics.hasStatic_reline]
  split
  · exact ⟨rfl, rfl, ⟨.empty, (s.sink.append_empty).symm, (s'.sink.append_empty).symm⟩, hglobals⟩
  · have hroots : (Chain.root s.globals).AgreeOn P (.root s'.globals) := hglobals
    obtain ⟨completion, d, d', printed, hd, hrun⟩ :=
      Stmt.exists_execAll_agreeOn move hnames rounds hroots
    rw [interpret_of_flush hs.2, interpret_of_flush hs'.2, machine, machine, (hrun _ hs).1,
      (hrun _ hs').2]
    have halike := alike_ofRun move completion (ofMachine ⟨d, s.sink.append printed⟩)
      (ofMachine ⟨d', s'.sink.append printed⟩) ⟨printed, rfl, rfl⟩ hd.globals
    refine ⟨?_, halike.finished, halike.printed, halike.globals⟩
    rw [List.map_append, ← halike.diagnostics]

end

end Session

/-! ## Lines -/

/-- Moves all lines to one place, where they tell nothing apart. -/
def noLine (_ : Nat) : Nat := 0

/-- The tokens are the same but for their lines. -/
def Token.SameText (t u : Token) : Prop :=
  t.kind = u.kind ∧ t.lexeme = u.lexeme ∧ t.literal = u.literal

/-- Tokens are the same but for their lines if they are the same with all lines at one place. -/
theorem Token.sameText_iff (t u : Token) : t.SameText u ↔ t.reline noLine = u.reline noLine := by
  obtain ⟨kind, lexeme, literal, line⟩ := t
  obtain ⟨kind', lexeme', literal', line'⟩ := u
  simp only [SameText, reline, noLine, mk.injEq, and_true]

/-- The same for lists of tokens, one by one. -/
theorem forall₂_sameText_iff (tokens tokens' : List Token) :
    List.Forall₂ Token.SameText tokens tokens' ↔
      tokens.map (Token.reline noLine) = tokens'.map (Token.reline noLine) := by
  have hsame : Token.SameText = fun t u => t.reline noLine = u.reline noLine :=
    funext₂ fun t u => propext (t.sameText_iff u)
  rw [← List.forall₂_eq_eq_eq, List.forall₂_map_left_iff, List.forall₂_map_right_iff, hsame]

/-- With all lines moved to one place, what is read of a source without lexical faults depends on its tokens
with their lines moved there. -/
theorem Source.program_noLine {source : String} (h : faults source = []) :
    ((program source).1.map (Stmt.reline noLine), (program source).2.map (Diagnostic.reline noLine)) =
      ((Parse.program ((tokens source).map (Token.reline noLine))).1,
        (Parse.program ((tokens source).map (Token.reline noLine))).2.map ParseFault.diagnostic) := by
  rw [Parse.program_reline, program, diagnostics, h]
  simp only [List.map_nil, List.nil_append, List.map_map]
  rfl

namespace Session

/-- Layout does not matter but for lines. Sources without lexical faults whose tokens are the same but for
their lines are read to the same trees but for lines. In sessions with the same root bindings, whose sinks
take everything, running them ends the same way: the diagnostics are the same but for lines, the same is
printed behind what the sinks hold, and the root bindings are the same again. -/
theorem run_of_sameText {a b : String} (ha : Source.faults a = []) (hb : Source.faults b = [])
    (htokens : List.Forall₂ Token.SameText (Source.tokens a) (Source.tokens b)) {s s' : Session}
    (hs : s.sink.Reliable) (hs' : s'.sink.Reliable)
    (hglobals : ∀ name, s'.globals.get? name = s.globals.get? name) (rounds : Nat) :
    let r := s.run rounds a
    let r' := s'.run rounds b
    (Source.program b).1.map (Stmt.reline noLine) = (Source.program a).1.map (Stmt.reline noLine) ∧
      r'.finished = r.finished ∧
      r'.diagnostics.map (Diagnostic.reline noLine) = r.diagnostics.map (Diagnostic.reline noLine) ∧
      (∃ printed, r.session.sink = s.sink.append printed ∧
        r'.session.sink = s'.sink.append printed) ∧
      ∀ name, r'.session.globals.get? name = r.session.globals.get? name := by
  have hread := Source.program_noLine hb
  rw [← (forall₂_sameText_iff _ _).1 htokens, ← Source.program_noLine ha] at hread
  -- Both runs are alike with the run, in the second session, of the trees without lines.
  have halike := runRead_alike noLine (Source.program a) (P := fun _ => True)
    (fun _ _ _ _ => trivial) hs hs' (fun name _ => hglobals name) rounds
  have halike' := runRead_alike noLine (Source.program b) (P := fun _ => True)
    (fun _ _ _ _ => trivial) hs' hs' (Scope.AgreeOn.refl _) rounds
  rw [← run_eq_runRead] at halike
  rw [← run_eq_runRead, hread] at halike'
  obtain ⟨printed, hprinted, hbetween⟩ := halike.printed
  obtain ⟨printed', hprinted', hbetween'⟩ := halike'.printed
  intro r r'
  refine ⟨congrArg Prod.fst hread, halike'.finished.symm.trans halike.finished,
    halike'.diagnostics.symm.trans halike.diagnostics, ⟨printed, hprinted, ?_⟩, fun name => ?_⟩
  · exact (hprinted'.trans hbetween'.symm).trans hbetween
  · exact (halike'.globals name trivial).symm.trans (halike.globals name trivial)

/-- A source that prints a text and then tries to negate it. -/
def oneLine : String :=
  "var a = b; print a; print -a;"

/-- The same tokens on more lines, with a comment between them. -/
def manyLines : String :=
  "var a\n  = b; // b is bound\n\nprint a;\nprint\n  -a;"

/-- On more lines, the same tokens print the same, leave the same bindings and stop at the same operator, on
another line. -/
theorem run_of_sameText_manyLines :
    (Source.faults oneLine = [] ∧ Source.faults manyLines = [] ∧
      List.Forall₂ Token.SameText (Source.tokens oneLine) (Source.tokens manyLines)) ∧
    let s : Session := ⟨⟨[("b", .string "x"), ("c", .null)]⟩, .unlimited⟩
    let s' : Session := ⟨⟨[("c", .null), ("b", .string "x")]⟩, Sink.unlimited.append "y".toUTF8⟩
    (s.run 1 oneLine).diagnostics = [.runtime 1 "Operand must be a number."] ∧
      (s'.run 1 manyLines).diagnostics = [.runtime 6 "Operand must be a number."] ∧
      ((s'.run 1 manyLines).diagnostics.map (Diagnostic.reline noLine) =
        (s.run 1 oneLine).diagnostics.map (Diagnostic.reline noLine)) ∧
      (∃ printed, (s.run 1 oneLine).session.sink = s.sink.append printed ∧
        (s'.run 1 manyLines).session.sink = s'.sink.append printed) ∧
      ∀ name, (s'.run 1 manyLines).session.globals.get? name =
        (s.run 1 oneLine).session.globals.get? name := by
  have ha : Source.faults oneLine = [] := by decide +kernel
  have hb : Source.faults manyLines = [] := by decide +kernel
  have htokens := (forall₂_sameText_iff (Source.tokens oneLine) (Source.tokens manyLines)).2
    (by decide +kernel)
  refine ⟨⟨ha, hb, htokens⟩, ?_⟩
  intro s s'
  have hglobals : ∀ name, s'.globals.get? name = s.globals.get? name := by
    intro name
    by_cases hname : name = "b"
    · subst hname
      rfl
    · simp [s, s', Scope.get?, List.lookup_cons, beq_false_of_ne hname]
  have hs : s.sink.Reliable := ⟨rfl, rfl⟩
  have hs' : s'.sink.Reliable := ⟨rfl, rfl⟩
  obtain ⟨-, -, hdiagnostics, hprinted, hbindings⟩ :=
    run_of_sameText ha hb htokens hs hs' hglobals 1
  exact ⟨by decide +kernel, by decide +kernel, hdiagnostics, hprinted, hbindings⟩

/-! ## Identifiers -/

/-- The name is that of an identifier in the source. -/
def Named (source name : String) : Prop :=
  ∃ t ∈ Source.tokens source, t.kind = .identifier ∧ t.lexeme = name

/-- The names that a program assigns or declares. -/
def written (trees : List Stmt) : List String :=
  (trees.flatMap Stmt.targets).map Token.lexeme

/-- The names in the trees of a source are identifiers in it. -/
theorem named_of_mem_names {source : String} {stmt : Stmt} (hstmt : stmt ∈ (Source.program source).1) :
    ∀ t ∈ stmt.names, Named source t.lexeme := by
  have hregular := Parse.program_regular (Source.tokens source) stmt hstmt
  intro t ht
  obtain ⟨hmem, hkind⟩ := hregular.of_mem_names t ht
  exact ⟨t, hmem, hkind, rfl⟩

/-- Runs of one source are alike in sessions that agree on its identifiers, with all lines as they are. -/
theorem run_alike {source : String} {s s' : Session} (hs : s.sink.Reliable) (hs' : s'.sink.Reliable)
    (hglobals : s.globals.AgreeOn (Named source) s'.globals) (rounds : Nat) :
    Alike id (Named source) s s' (s.run rounds source) (s'.run rounds source) := by
  have halike := runRead_alike id (Source.program source) (fun _ => named_of_mem_names) hs hs' hglobals
    rounds
  rw [List.map_congr_left fun stmt _ => stmt.reline_id, List.map_id', Diagnostics.map_reline_id] at halike
  rw [run_eq_runRead, run_eq_runRead]
  exact halike

/-- A run changes no name of the root scope that it does not write, however it ends. -/
theorem get?_run_of_not_mem_written {source name : String}
    (h : name ∉ written (Source.program source).1) (rounds : Nat) (s : Session) :
    (s.run rounds source).session.globals.get? name = s.globals.get? name := by
  have hunwritten : ∀ stmt ∈ (Source.program source).1, ∀ t ∈ stmt.targets, ¬t.lexeme = name := by
    rintro stmt hstmt t ht rfl
    exact h (List.mem_map.2 ⟨t, List.mem_flatMap.2 ⟨stmt, hstmt, ht⟩, rfl⟩)
  rw [session_run]
  split
  · rfl
  · exact (Stmt.execAll_unwritten (P := (· = name)) hunwritten rounds s.machine).globals name rfl

/-- A run depends on the root bindings that its source names, and changes only those that it writes. In
sessions whose sinks take everything and whose root scopes agree on the identifiers of a source, running it
ends the same way: the diagnostics are the same, the same is printed behind what the sinks hold, and the
root scopes agree on these identifiers again. And in either session a name that the source neither assigns
nor declares keeps its value, or stays unbound. -/
theorem run_of_agreeOn_named {source : String} {s s' : Session} (hs : s.sink.Reliable)
    (hs' : s'.sink.Reliable)
    (hglobals : ∀ name, Named source name → s'.globals.get? name = s.globals.get? name)
    (rounds : Nat) :
    let r := s.run rounds source
    let r' := s'.run rounds source
    r'.finished = r.finished ∧ r'.diagnostics = r.diagnostics ∧
      (∃ printed, r.session.sink = s.sink.append printed ∧
        r'.session.sink = s'.sink.append printed) ∧
      (∀ name, Named source name →
        r'.session.globals.get? name = r.session.globals.get? name) ∧
      ∀ name, name ∉ written (Source.program source).1 →
        r.session.globals.get? name = s.globals.get? name ∧
          r'.session.globals.get? name = s'.globals.get? name := by
  have halike := run_alike hs hs' hglobals rounds
  have hdiagnostics := halike.diagnostics
  rw [Diagnostics.map_reline_id] at hdiagnostics
  refine ⟨halike.finished, hdiagnostics, halike.printed, halike.globals, fun name hname => ?_⟩
  exact ⟨get?_run_of_not_mem_written hname rounds s, get?_run_of_not_mem_written hname rounds s'⟩

/-- A source that shadows one of its names in a block and stops at a name that is not bound. -/
def shadowingSource : String :=
  "var a = b; { var b = a; print b; b = c; } c = a; print d;"

/-- Names that do not stand in the source make no difference to the run and keep their values. -/
theorem run_of_agreeOn_named_shadowingSource :
    let s : Session := ⟨⟨[("b", .string "x"), ("c", .null), ("e", .string "y")]⟩, .unlimited⟩
    let s' : Session := ⟨⟨[("f", .null), ("c", .null), ("b", .string "x")]⟩,
      Sink.unlimited.append "z".toUTF8⟩
    (∀ name, Named shadowingSource name → s'.globals.get? name = s.globals.get? name) ∧
      (s.run 1 shadowingSource).diagnostics = [.runtime 1 "Undefined variable 'd'."] ∧
      (s'.run 1 shadowingSource).diagnostics = (s.run 1 shadowingSource).diagnostics ∧
      (∃ printed, (s.run 1 shadowingSource).session.sink = s.sink.append printed ∧
        (s'.run 1 shadowingSource).session.sink = s'.sink.append printed) ∧
      (∀ name, Named shadowingSource name →
        (s'.run 1 shadowingSource).session.globals.get? name =
          (s.run 1 shadowingSource).session.globals.get? name) ∧
      (s.run 1 shadowingSource).session.globals.get? "e" = some (.string "y") ∧
      (s'.run 1 shadowingSource).session.globals.get? "e" = none := by
  intro s s'
  have hs : s.sink.Reliable := ⟨rfl, rfl⟩
  have hs' : s'.sink.Reliable := ⟨rfl, rfl⟩
  have hidentifiers : ∀ t ∈ Source.tokens shadowingSource, t.kind = .identifier →
      s'.globals.get? t.lexeme = s.globals.get? t.lexeme := by decide +kernel
  have hglobals : ∀ name, Named shadowingSource name →
      s'.globals.get? name = s.globals.get? name := by
    rintro _ ⟨t, ht, hkind, rfl⟩
    exact hidentifiers t ht hkind
  have hunwritten : "e" ∉ written (Source.program shadowingSource).1 := by decide +kernel
  obtain ⟨-, hdiagnostics, hprinted, hagree, hkept⟩ := run_of_agreeOn_named hs hs' hglobals 1
  obtain ⟨he, he'⟩ := hkept "e" hunwritten
  exact ⟨hglobals, by decide +kernel, hdiagnostics, hprinted, hagree, he, he'⟩

end Session

end LoxLang
