import LoxLang.Proofs.Parse.ReadsStmt
import LoxLang.Proofs.Run.Lockstep
import LoxLang.Session

/-!
# Units of source one by one

A source can be run in one piece or unit by unit, as its lines are typed. `run_intercalate` says that it
makes no difference: units that are each free of static faults, run one after the other up to the first
that stops at a fault, leave the session that their join by newlines leaves, and report what it reports, on
lines counted from the first unit. This takes one lemma for each stage a source goes through. Its tokens are
those of the units (`Source.body_append_newline`), its trees those of the units with their lines moved
(`Source.program_append_newline`), and its execution that of one unit behind the other
(`run_append_newline`), because a unit leaves nothing behind but the root scope and the sink.
-/

namespace LoxLang

open Grammar

/-! ## Reading two units -/

namespace Source

/-- What is said about a source before it is run is about static faults. -/
theorem isStatic_of_mem_program {source : String} {d : Diagnostic} (h : d ∈ (program source).2) :
    d.isStatic = true := by
  rcases List.mem_append.1 h with h | h
  · obtain ⟨f, -, rfl⟩ := List.mem_map.1 h
    rfl
  · obtain ⟨f, -, rfl⟩ := List.mem_map.1 h
    rfl

/-- A program has no static fault exactly if nothing is reported while it is read. -/
theorem hasStatic_program_eq_false_iff (source : String) :
    (program source).2.hasStatic = false ↔ (program source).2 = [] := by
  constructor
  · intro h
    rw [Diagnostics.hasStatic, List.any_eq_false] at h
    exact List.eq_nil_iff_forall_not_mem.2 fun d hd => h d hd (isStatic_of_mem_program hd)
  · intro h
    rw [h]
    rfl

/-- A source is read without a fault exactly when it has no lexical fault and its tokens are a row of
declarations, whose trees are then its program. -/
theorem program_eq_iff (source : String) (trees : List Stmt) :
    program source = (trees, []) ↔ faults source = [] ∧ Program .nearest (body source) trees := by
  have hmark : (Item.endMark (1 + source.toList.count '\n')).kind = .eof := rfl
  rw [← parse_program_iff (fun t ht => kind_ne_eof_of_mem_body ht) hmark, ← tokens_eq, program,
    diagnostics, Prod.mk.injEq, Prod.ext_iff, List.append_eq_nil_iff, List.map_eq_nil_iff,
    List.map_eq_nil_iff]
  exact and_left_comm

/-- A source is read as an expression without a fault exactly when it has no lexical fault and its tokens are
the expression. -/
theorem expression_eq_iff (source : String) (e : Expr) :
    expression source = (some e, []) ↔ faults source = [] ∧ Expression (body source) e := by
  have hmark : (Item.endMark (1 + source.toList.count '\n')).kind = .eof := rfl
  rw [← parse_expression_iff (fun t ht => kind_ne_eof_of_mem_body ht) hmark, ← tokens_eq, expression,
    diagnostics, Prod.mk.injEq, Prod.ext_iff, List.append_eq_nil_iff, List.map_eq_nil_iff,
    List.map_eq_nil_iff]
  exact and_left_comm

/-- Two units that are read without a fault are read without one with a newline between them, to the
trees of the first and those of the second with their lines moved. -/
theorem program_append_newline {source other : String} {trees trees' : List Stmt}
    (h : program source = (trees, [])) (h' : program other = (trees', [])) :
    program (source ++ "\n" ++ other) =
      (trees ++ trees'.map (Stmt.reline (· + (1 + source.toList.count '\n'))), []) := by
  obtain ⟨hfaults, hbody⟩ := (program_eq_iff source trees).1 h
  obtain ⟨hfaults', hbody'⟩ := (program_eq_iff other trees').1 h'
  have hopen : ∀ f ∈ faults source, f.cause ≠ .unterminatedString := by
    rw [hfaults]
    exact nofun
  rw [program_eq_iff, faults_append_newline other hopen, body_append_newline other hopen, hfaults,
    hfaults']
  exact ⟨rfl, hbody.append (hbody'.reline _)⟩

end Source

/-! ## Reports with their lines moved -/

/-- The diagnostic with its line moved, if it has one. -/
def Diagnostic.reline (move : Nat → Nat) : Diagnostic → Diagnostic
  | lexical line message => lexical (move line) message
  | grammatical line lexeme message => grammatical (move line) lexeme message
  | runtime line message => runtime (move line) message
  | output message => output message
  | encoding fault => encoding fault

/-- Lines that are moved twice are moved once, by both moves. -/
theorem Diagnostic.reline_reline (move move' : Nat → Nat) (d : Diagnostic) :
    (d.reline move).reline move' = d.reline (move' ∘ move) := by
  cases d <;> rfl

/-- Diagnostics whose lines are left alone are the same. -/
theorem Diagnostics.map_reline_id (ds : Diagnostics) : ds.map (Diagnostic.reline id) = ds := by
  have hid : Diagnostic.reline id = id := by
    funext d
    cases d <;> rfl
  rw [hid, List.map_id]

/-- A fault with its line moved is reported on the moved line. -/
theorem RunFault.diagnostic_reline (move : Nat → Nat) (f : RunFault) :
    (f.reline move).diagnostic = f.diagnostic.reline move := by
  cases f <;> rfl

/-- What a run stops at is no static fault. -/
theorem RunFault.isStatic_diagnostic (f : RunFault) : f.diagnostic.isStatic = false := by
  cases f <;> rfl

namespace Session

/-- The report with the lines of its diagnostics moved. -/
def Report.reline (move : Nat → Nat) (r : Report) : Report :=
  { r with diagnostics := r.diagnostics.map (Diagnostic.reline move) }

/-- A report with its lines moved twice has them moved once, by both moves. -/
theorem Report.reline_reline (move move' : Nat → Nat) (r : Report) :
    (r.reline move).reline move' = r.reline (move' ∘ move) := by
  simp only [Report.reline, List.map_map, Report.mk.injEq, and_self, and_true]
  exact List.map_congr_left fun d _ => d.reline_reline move move'

/-- A report with its lines left alone is the same. -/
theorem Report.reline_id (r : Report) : r.reline id = r := by
  rw [Report.reline, Diagnostics.map_reline_id]

/-- Whether nothing stands against running another unit: this one came to its end without a fault. -/
def Report.goesOn (r : Report) : Bool :=
  r.finished && !r.diagnostics.hasRun

/-- What is reported about a program that was executed. -/
def Report.ofRun : Completion × Session → Report
  | (.done, s) => ⟨[], true, s⟩
  | (.stopped fault, s) => ⟨[fault.diagnostic], true, s⟩
  | (.unfinished, s) => ⟨[], false, s⟩

/-- The session behind a program is reported with it. -/
theorem Report.session_ofRun (completion : Completion) (s : Session) :
    (Report.ofRun (completion, s)).session = s := by
  cases completion <;> rfl

/-- A fault with its line moved is reported with the line moved. -/
theorem Report.ofRun_reline (move : Nat → Nat) (completion : Completion) (s : Session) :
    Report.ofRun (completion.reline move, s) = (Report.ofRun (completion, s)).reline move := by
  cases completion with
  | done | unfinished => rfl
  | stopped fault =>
    rw [Completion.reline, Report.ofRun, fault.diagnostic_reline]
    rfl

/-! ## Running one unit -/

/-- A unit that is read without a fault is executed. -/
theorem run_of_program {source : String} {trees : List Stmt} (h : Source.program source = (trees, []))
    (rounds : Nat) (s : Session) : s.run rounds source = Report.ofRun (s.interpret rounds trees) := by
  rw [run, h]
  simp only [Diagnostics.hasStatic, List.any_nil, Bool.false_eq_true, if_false, List.nil_append]
  rcases s.interpret rounds trees with ⟨_ | _ | _, s'⟩ <;> rfl

/-- Whether a unit has a static fault does not depend on the session. -/
theorem hasStatic_run (rounds : Nat) (source : String) (s : Session) :
    (s.run rounds source).diagnostics.hasStatic = (Source.program source).2.hasStatic := by
  rw [run]
  rcases Source.program source with ⟨trees, ds⟩
  dsimp only
  split
  · rfl
  · rcases s.interpret rounds trees with ⟨_ | fault | _, s'⟩
    · rfl
    · simp only [Diagnostics.hasStatic, List.any_append, List.any_cons, List.any_nil,
        fault.isStatic_diagnostic, Bool.or_false]
    · rfl

/-- A source that is run without a static fault was read without any. -/
theorem exists_program_of_hasStatic_eq_false {rounds : Nat} {source : String} {s : Session}
    (h : (s.run rounds source).diagnostics.hasStatic = false) :
    ∃ trees, Source.program source = (trees, []) := by
  rw [hasStatic_run, Source.hasStatic_program_eq_false_iff] at h
  exact ⟨(Source.program source).1, Prod.ext rfl h⟩

/-- Behind an execution from a session at rest, the root scope is the innermost one again. -/
theorem machine_ofMachine_execAll (rounds : Nat) (trees : List Stmt) (s : Session) :
    (ofMachine (Stmt.execAll rounds trees s.machine).2).machine =
      (Stmt.execAll rounds trees s.machine).2 := by
  have hroot := Chain.Grows.eq_root (Stmt.execAll_grows rounds trees s.machine)
  rw [machine, ofMachine, ← hroot]

/-- A sink that can be flushed has no part in how an execution ends. -/
theorem interpret_of_flush {s : Session} (h : s.sink.refusesFlush = false) (rounds : Nat)
    (trees : List Stmt) :
    s.interpret rounds trees =
      ((Stmt.execAll rounds trees s.machine).1, ofMachine (Stmt.execAll rounds trees s.machine).2) := by
  have hsink : (Stmt.execAll rounds trees s.machine).2.sink.refusesFlush = false :=
    (Stmt.execAll_sink rounds trees s.machine).2.trans h
  rw [interpret]
  rcases hrun : Stmt.execAll rounds trees s.machine with ⟨_ | _ | _, m⟩
  · rw [hrun] at hsink
    dsimp only at hsink ⊢
    rw [Sink.flush, hsink]
    rfl
  · rfl
  · rfl

/-- A unit that is run leaves a sink that can be flushed as one. -/
theorem refusesFlush_run {source : String} {trees : List Stmt} {s : Session}
    (h : Source.program source = (trees, [])) (hflush : s.sink.refusesFlush = false) (rounds : Nat) :
    (s.run rounds source).session.sink.refusesFlush = false := by
  have hsink := (Stmt.execAll_sink rounds trees s.machine).2.trans hflush
  rw [run_of_program h, interpret_of_flush hflush, Report.session_ofRun]
  exact hsink

/-- Two units without static faults, joined by a newline, are run one after the other, the second one only
if nothing stands against it. -/
theorem run_append_newline {source other : String} {trees trees' : List Stmt} {s : Session}
    (hsource : Source.program source = (trees, [])) (hother : Source.program other = (trees', []))
    (hflush : s.sink.refusesFlush = false) (rounds : Nat) :
    s.run rounds (source ++ "\n" ++ other) =
      if (s.run rounds source).goesOn then
        ((s.run rounds source).session.run rounds other).reline (· + (1 + source.toList.count '\n'))
      else s.run rounds source := by
  have hboth := Source.program_append_newline hsource hother
  have hroot := machine_ofMachine_execAll rounds trees s
  have hsink := (Stmt.execAll_sink rounds trees s.machine).2.trans hflush
  rw [run_of_program hboth, run_of_program hsource, interpret_of_flush hflush,
    interpret_of_flush hflush, Stmt.execAll_append]
  rcases hrun : Stmt.execAll rounds trees s.machine with ⟨completion, m⟩
  rw [hrun] at hroot hsink
  cases completion with
  | done =>
    -- The second unit is executed on the machine that a session at rest gives it.
    have hflush' : (ofMachine m).sink.refusesFlush = false := hsink
    have hexec := Stmt.execAll_reline (· + (1 + source.toList.count '\n')) rounds trees' m
    have hdone : (Report.ofRun (.done, ofMachine m)).goesOn = true := rfl
    dsimp only
    rw [if_pos hdone, hexec, Report.ofRun_reline, run_of_program hother, Report.ofRun,
      interpret_of_flush hflush', hroot]
  | stopped fault =>
    have hstopped : (Report.ofRun (.stopped fault, ofMachine m)).goesOn = false := by
      simp [Report.goesOn, Report.ofRun, Diagnostics.hasRun, fault.isStatic_diagnostic]
    dsimp only
    rw [hstopped]
    rfl
  | unfinished => rfl

/-! ## Running unit by unit -/

/-- Runs units one after the other up to the first that reports a fault of its run or comes to no end. The
number is that of the units before the last one that was run, which the report is about. -/
def runUnits (rounds : Nat) : List String → Session → Nat × Report
  | [], s => (0, ⟨[], true, s⟩)
  | [source], s => (0, s.run rounds source)
  | source :: next :: rest, s =>
    if (s.run rounds source).goesOn then
      let (before, last) := runUnits rounds (next :: rest) (s.run rounds source).session
      (before + 1, last)
    else (0, s.run rounds source)

/-- No more units stand before the last one that was run than there are. -/
theorem runUnits_fst_le (rounds : Nat) (units : List String) (s : Session) :
    (s.runUnits rounds units).1 ≤ units.length := by
  induction units generalizing s with
  | nil => exact Nat.le_refl 0
  | cons source rest ih =>
    cases rest with
    | nil => exact Nat.zero_le 1
    | cons next rest =>
      rw [runUnits]
      split
      · exact Nat.succ_le_succ (ih _)
      · exact Nat.zero_le _

/-- How many lines down a unit starts that stands behind others: their newlines and those between. -/
def linesBefore (units : List String) : Nat :=
  (units.flatMap String.toList).count '\n' + units.length

/-- A unit before others adds its own lines, and the line break behind it, to those before what follows. -/
theorem linesBefore_cons (source : String) (units : List String) :
    linesBefore (source :: units) = linesBefore units + (1 + source.toList.count '\n') := by
  rw [linesBefore, linesBefore, List.flatMap_cons, List.count_append, List.length_cons]
  omega

/-- Units without static faults have none when they are joined. -/
theorem exists_program_intercalate {units : List String}
    (h : ∀ source ∈ units, ∃ trees, Source.program source = (trees, [])) :
    ∃ trees, Source.program ("\n".intercalate units) = (trees, []) := by
  induction units with
  | nil => exact ⟨[], (Source.program_eq_iff "" []).2 ⟨by decide, Program.nil _⟩⟩
  | cons source rest ih =>
    obtain ⟨⟨trees, hsource⟩, hrest⟩ := List.forall_mem_cons.1 h
    cases rest with
    | nil => exact ⟨trees, by rwa [String.intercalate_singleton]⟩
    | cons next rest =>
      obtain ⟨trees', hjoined⟩ := ih hrest
      rw [String.intercalate_cons_of_ne_nil (List.cons_ne_nil next rest)]
      exact ⟨_, Source.program_append_newline hsource hjoined⟩

/-- The join of units without static faults is reported on as the units are when they are run one by one,
with the lines of the unit that was run last counted from the first. -/
theorem run_intercalate_eq (rounds : Nat) (units : List String) (s : Session)
    (hflush : s.sink.refusesFlush = false)
    (h : ∀ source ∈ units, ∃ trees, Source.program source = (trees, [])) :
    s.run rounds ("\n".intercalate units) =
      (s.runUnits rounds units).2.reline (· + linesBefore (units.take (s.runUnits rounds units).1)) := by
  induction units generalizing s with
  | nil =>
    have hempty : Source.program "" = ([], []) :=
      (Source.program_eq_iff "" []).2 ⟨by decide, Program.nil _⟩
    rw [String.intercalate_nil, run_of_program hempty, interpret_of_flush hflush]
    rfl
  | cons source rest ih =>
    obtain ⟨⟨trees, hsource⟩, hrest⟩ := List.forall_mem_cons.1 h
    cases rest with
    | nil => exact String.intercalate_singleton ▸ (Report.reline_id _).symm
    | cons next rest =>
      obtain ⟨trees', hjoined⟩ := exists_program_intercalate hrest
      rw [String.intercalate_cons_of_ne_nil (List.cons_ne_nil next rest),
        run_append_newline hsource hjoined hflush, runUnits]
      by_cases hon : (s.run rounds source).goesOn
      · have hflush' := refusesFlush_run hsource hflush rounds
        rw [if_pos hon, if_pos hon, ih _ hflush' hrest, Report.reline_reline]
        dsimp only
        rw [List.take_succ_cons, linesBefore_cons]
        congr 1
        funext line
        exact Nat.add_assoc line _ _
      · rw [if_neg hon, if_neg hon]
        exact (Report.reline_id _).symm

/-- Running units one after the other agrees with running them in one piece. However long the row of units
and whatever the session, if no unit alone has a static fault and the sink can be flushed, their join by
newlines prints the same bytes, leaves the same root scope and reports the same fault, or none. The line of
the fault in the join is its line in the unit plus the lines of the units before it. -/
theorem run_intercalate (rounds : Nat) (units : List String) (s : Session)
    (hflush : s.sink.refusesFlush = false)
    (hstatic : ∀ source ∈ units, (s.run rounds source).diagnostics.hasStatic = false) :
    let before := (s.runUnits rounds units).1
    let last := (s.runUnits rounds units).2
    let joined := s.run rounds ("\n".intercalate units)
    joined.session.sink = last.session.sink ∧
      joined.session.globals = last.session.globals ∧
      joined.finished = last.finished ∧
      joined.diagnostics = last.diagnostics.map
        (Diagnostic.reline fun line =>
          line + ((units.take before).flatMap String.toList).count '\n' + before) := by
  have hclean : ∀ source ∈ units, ∃ trees, Source.program source = (trees, []) := by
    intro source hsource
    exact exists_program_of_hasStatic_eq_false (hstatic source hsource)
  have hlines : ∀ line, line + linesBefore (units.take (s.runUnits rounds units).1) =
      line + ((units.take (s.runUnits rounds units).1).flatMap String.toList).count '\n' +
        (s.runUnits rounds units).1 := by
    intro line
    rw [linesBefore, List.length_take_of_le (runUnits_fst_le rounds units s), Nat.add_assoc]
  have heq := run_intercalate_eq rounds units s hflush hclean
  simp only [hlines] at heq
  intro before last joined
  have hjoined : joined = last.reline _ := heq
  rw [hjoined]
  exact ⟨rfl, rfl, rfl, rfl⟩

/-- A row of units whose second one stops inside of a block, so that the third is not run. -/
def stoppingUnits : List String :=
  ["var a = true; // one\n", "\x7b var a;\n print b; \x7d", "print a;"]

/-- The second unit stops on its own second line, which is the fourth of the whole. -/
theorem run_intercalate_stoppingUnits :
    ((start .unlimited).runUnits 1 stoppingUnits).2.diagnostics =
        [.runtime 2 "Undefined variable 'b'."] ∧
      ((start .unlimited).run 1 ("\n".intercalate stoppingUnits)).diagnostics =
        [.runtime 4 "Undefined variable 'b'."] := by
  have hbefore : ((start .unlimited).runUnits 1 stoppingUnits).1 = 1 := by decide +kernel
  have hlast : ((start .unlimited).runUnits 1 stoppingUnits).2.diagnostics =
      [.runtime 2 "Undefined variable 'b'."] := by decide +kernel
  have hstatic : ∀ source ∈ stoppingUnits,
      ((start .unlimited).run 1 source).diagnostics.hasStatic = false := by decide +kernel
  have hjoined := (run_intercalate 1 stoppingUnits (start .unlimited) rfl hstatic).2.2.2
  rw [hlast, hbefore] at hjoined
  exact ⟨hlast, hjoined.trans (by decide)⟩

end Session

end LoxLang
