import LoxLang.Command.Perform
import LoxLang.Proofs.Run.Prints
import LoxLang.Proofs.Session.Units
import LoxLang.Proofs.Token.Joining

/-!
# The commands about one file

Each command puts its own stages together: a listing goes through the items one by one and tells of a fault as
soon as it meets it, the trees are shown when all diagnostics are collected, and a run leaves both to a session.
That they agree on every file, in what they say and in how they exit, is `perform_consistent`.

What it takes is one account of each command. A listing, however far it is, has told of the faults that it has met
(`Listing.foldl_add`), so in the end it has told of all lexical faults of the source, and of nothing else
(`tokenizeSource_eq`). What is said about trees is what is said about the program (`parseSource_eq`). And the
program of a source without static faults is run to the end of which `Stmt.Prints` speaks, within whatever number
of rounds it comes to an end (`exists_prints_of_finishes`, `exists_finishes_of_prints`).
-/

namespace LoxLang

/-- Bytes that are a text are decoded to that text. -/
theorem Utf8.decode_of_isValidUTF8 {bytes : ByteArray} (h : bytes.IsValidUTF8) :
    decode bytes = .ok (.fromUTF8 bytes h) := by
  rw [decode, String.fromUTF8?, dif_pos h]

/-- Diagnostics in a row are rendered one after the other. -/
theorem Diagnostics.render_append (first second : Diagnostics) :
    render (first ++ second) = first.render ++ second.render := by
  rw [render, List.map_append, String.join_append, ← render, ← render]

/-- A diagnostic is rendered on lines of its own. -/
theorem Diagnostics.render_singleton (d : Diagnostic) : render [d] = d.render ++ "\n" :=
  String.empty_append

/-- Lexical faults are static, so there is a static one exactly if there is one at all. -/
theorem Diagnostics.hasStatic_map_lexical (faults : List LexicalFault) :
    hasStatic (faults.map LexicalFault.diagnostic) = true ↔ faults ≠ [] := by
  cases faults with
  | nil => exact iff_of_false nofun (not_not_intro rfl)
  | cons f rest => exact iff_of_true rfl (List.cons_ne_nil _ _)

namespace Command

/-- Data are refused exactly for a static diagnostic. -/
theorem exitStatus_eq_iff (ds : Diagnostics) : exitStatus ds = 65 ↔ ds.hasStatic = true := by
  rw [exitStatus]
  cases ds.hasStatic <;> cases ds.hasRun <;> decide

@[simp] theorem Result.exit_ofText (text : String) (ds : Diagnostics) :
    (ofText text ds).exit = exitStatus ds :=
  rfl

@[simp] theorem Result.err_ofText (text : String) (ds : Diagnostics) : (ofText text ds).err = ds.render :=
  rfl

/-! ## Listing item by item -/

/-- From any stage on, a listing writes or keeps the tokens that it meets and tells of the faults. -/
theorem Listing.foldl_add (json : Bool) (items : List Item) (l : Listing) :
    items.foldl (add json) l =
      { out := l.out ++ if json then "" else lines ((items.filterMap Item.token?).map Token.render)
        err := l.err ++ Diagnostics.render ((items.filterMap Item.fault?).map LexicalFault.diagnostic)
        kept := l.kept ++ if json then (items.filterMap Item.token?).toArray else #[]
        diagnostics := l.diagnostics ++ (items.filterMap Item.fault?).map LexicalFault.diagnostic } := by
  induction items generalizing l with
  | nil => cases json <;> simp [lines, Diagnostics.render]
  | cons item rest ih =>
    rw [List.foldl_cons, ih]
    cases item with
    | token t =>
      have htokens : (Item.token t :: rest).filterMap Item.token? = t :: rest.filterMap Item.token? := rfl
      have hfaults : (Item.token t :: rest).filterMap Item.fault? = rest.filterMap Item.fault? := rfl
      rw [htokens, hfaults]
      cases json <;> simp [add, lines, String.append_assoc]
    | fault f =>
      have htokens : (Item.fault f :: rest).filterMap Item.token? = rest.filterMap Item.token? := rfl
      have hfaults : (Item.fault f :: rest).filterMap Item.fault? = f :: rest.filterMap Item.fault? := rfl
      rw [htokens, hfaults]
      simp [add, Diagnostics.render, String.append_assoc]

/-- Item by item the tokens of a source are listed, and its lexical faults reported. -/
theorem tokenizeSource_eq (json : Bool) (source : String) :
    tokenizeSource json source =
      .ofText
        (if json then lines [(Json.array ((Source.tokens source).map Token.toJson)).indented]
          else lines ((Source.tokens source).map Token.render))
        (Source.diagnostics source) := by
  rw [tokenizeSource, Listing.foldl_add, ← Source.tokens, ← Source.faults, ← Source.diagnostics]
  cases json <;> simp [Listing.result, Listing.blank, Result.ofText]

/-- What is said about a source does not depend on how its trees are shown. -/
theorem parseSource_eq (json : Bool) (source : String) :
    (parseSource json source).exit = exitStatus (Source.program source).2 ∧
      (parseSource json source).err = (Source.program source).2.render := by
  rw [parseSource]
  rcases Source.program source with ⟨trees, ds⟩
  exact ⟨rfl, rfl⟩

/-! ## Sources without static faults -/

variable {source : String} {trees : List Stmt}

/-- The result of a run that printed these values and came to this end. The texts of the values are written, each
with a newline; then there is nothing to say, or the one fault is told. -/
def Result.ofEnding (vs : List Value) : Ending → Result
  | .completed => ⟨0, (lines (vs.map Value.render)).toUTF8, ""⟩
  | .faulted fault => ⟨70, (lines (vs.map Value.render)).toUTF8, fault.diagnostic.render ++ "\n"⟩

/-- The texts of values are printed one to a line. -/
theorem printedAll_eq (vs : List Value) : Machine.printedAll vs = (lines (vs.map Value.render)).toUTF8 := by
  induction vs with
  | nil => rfl
  | cons v rest ih =>
    have hlines : lines ((v :: rest).map Value.render) =
        (v.render ++ "\n") ++ lines (rest.map Value.render) := String.join_cons
    rw [Machine.printedAll, ih, hlines, Machine.printed]
    exact String.toByteArray_append.symm

/-- The run of a source comes to an end within this number of rounds. -/
def Finishes (rounds : Nat) (source : String) : Prop :=
  ((Session.start .unlimited).run rounds source).finished = true

/-- A source without static faults is run in an empty root scope, on a sink that takes everything. -/
theorem run_start (h : Source.program source = (trees, [])) (rounds : Nat) :
    (Session.start .unlimited).run rounds source =
      .ofRun ((Stmt.execAll rounds trees ⟨.root .empty, .unlimited⟩).1,
        .ofMachine (Stmt.execAll rounds trees ⟨.root .empty, .unlimited⟩).2) := by
  rw [Session.run_of_program h, Session.interpret_of_flush rfl]
  rfl

/-- The run of a source without static faults gives what the execution of its program does. -/
theorem runSource_of_execAll (h : Source.program source = (trees, [])) {rounds : Nat} {vs : List Value}
    {ending : Ending} {d : Chain}
    (hrun : Stmt.execAll rounds trees ⟨.root .empty, .unlimited⟩ =
      (ending.completion, ⟨d, Sink.unlimited.append (Machine.printedAll vs)⟩)) :
    Finishes rounds source ∧ runSource rounds source = .ofEnding vs ending := by
  have hheld : ByteArray.empty ++ Machine.printedAll vs = (lines (vs.map Value.render)).toUTF8 := by
    rw [ByteArray.empty_append, printedAll_eq]
  rw [Finishes, runSource, run_start h, hrun]
  cases ending with
  | completed =>
    refine ⟨rfl, ?_⟩
    rw [Result.ofEnding, ← hheld]
    rfl
  | faulted fault =>
    refine ⟨rfl, ?_⟩
    rw [Result.ofEnding, ← hheld, ← Diagnostics.render_singleton]
    rfl

/-- A run that comes to an end answers as `Stmt.Prints` says. -/
theorem exists_prints_of_finishes (h : Source.program source = (trees, [])) {rounds : Nat}
    (hfinishes : Finishes rounds source) :
    ∃ vs ending d, Stmt.Prints trees (.root .empty) vs ending d ∧
      runSource rounds source = .ofEnding vs ending := by
  have hend : (Stmt.execAll rounds trees ⟨.root .empty, .unlimited⟩).1 ≠ .unfinished := by
    intro hunfinished
    rw [Finishes, run_start h, hunfinished] at hfinishes
    cases hfinishes
  obtain ⟨vs, ending, d, hprints, hrun⟩ :=
    Stmt.execAll_prints trees (.root .empty) Sink.reliable_unlimited hend
  exact ⟨vs, ending, d, hprints, (runSource_of_execAll h hrun).2⟩

/-- What `Stmt.Prints` says is what a run answers, as soon as it is allowed enough rounds. -/
theorem exists_finishes_of_prints (h : Source.program source = (trees, [])) {vs : List Value}
    {ending : Ending} {d : Chain} (hprints : Stmt.Prints trees (.root .empty) vs ending d) :
    ∃ enough, ∀ rounds, enough ≤ rounds →
      Finishes rounds source ∧ runSource rounds source = .ofEnding vs ending := by
  obtain ⟨enough, hexecutes⟩ := hprints.exists_executes
  refine ⟨enough, fun rounds hle => ?_⟩
  exact runSource_of_execAll h (hexecutes.mono hle .unlimited Sink.reliable_unlimited)

/-! ## Sources with static faults -/

/-- Without trees there is no output, and what is said is all that was found. -/
theorem parseSource_of_hasStatic (h : (Source.program source).2.hasStatic = true) (json : Bool) :
    parseSource json source = ⟨65, .empty, (Source.program source).2.render⟩ := by
  rw [parseSource]
  dsimp only
  rw [if_pos h, Result.ofText, (exitStatus_eq_iff _).2 h]
  rfl

/-- A source that is not run is refused with all that was found. -/
theorem runSource_of_hasStatic (h : (Source.program source).2.hasStatic = true) (rounds : Nat) :
    runSource rounds source = ⟨65, .empty, (Source.program source).2.render⟩ := by
  have hreport : (Session.start .unlimited).run rounds source =
      ⟨(Source.program source).2, true, .start .unlimited⟩ := by
    rw [Session.run]
    exact if_pos h
  rw [runSource, hreport]
  dsimp only
  rw [(exitStatus_eq_iff _).2 h]
  rfl

/-! ## When a source is refused -/

/-- Tokens are refused exactly for a lexical fault. -/
theorem tokenizeSource_exit_iff (json : Bool) (source : String) :
    (tokenizeSource json source).exit = 65 ↔ ∃ f, Item.fault f ∈ Source.items source := by
  have hexists : Source.faults source ≠ [] ↔ ∃ f, Item.fault f ∈ Source.items source := by
    rw [← List.isEmpty_eq_false_iff, List.isEmpty_eq_false_iff_exists_mem]
    exact exists_congr fun f => Source.mem_faults_iff
  rw [tokenizeSource_eq, Result.exit_ofText, ← hexists, ← Diagnostics.hasStatic_map_lexical]
  exact exitStatus_eq_iff _

/-- Trees are refused exactly for a static fault. -/
theorem parseSource_exit_iff (json : Bool) (source : String) :
    (parseSource json source).exit = 65 ↔ (Source.program source).2.hasStatic = true := by
  rw [(parseSource_eq json source).1, exitStatus_eq_iff]

/-- A run is refused exactly for a static fault: what a run stops at has another exit status. -/
theorem runSource_exit_iff (rounds : Nat) (source : String) :
    (runSource rounds source).exit = 65 ↔ (Source.program source).2.hasStatic = true := by
  rw [← Session.hasStatic_run rounds source (.start .unlimited), runSource]
  dsimp only
  rw [exitStatus_eq_iff]

/-- A source with a lexical fault is refused as a program too. -/
theorem hasStatic_program_of_fault (h : ∃ f, Item.fault f ∈ Source.items source) :
    (Source.program source).2.hasStatic = true := by
  obtain ⟨f, hf⟩ := h
  have hlexical := (Diagnostics.hasStatic_map_lexical _).2 (List.ne_nil_of_mem (Source.mem_faults_iff.2 hf))
  rw [Diagnostics.hasStatic, Source.program, List.any_append]
  exact Bool.or_eq_true_iff.2 (.inl hlexical)

/-- What is not refused is a program. -/
theorem program_of_exit_ne {json : Bool} (h : (parseSource json source).exit ≠ 65) :
    Source.program source = ((Source.program source).1, []) := by
  rw [ne_eq, parseSource_exit_iff, Bool.not_eq_true, Source.hasStatic_program_eq_false_iff] at h
  exact Prod.ext rfl h

/-! ## All commands about a file -/

/-- How the commands about a file that holds a source agree: listing its tokens and showing its trees, each with a
document or without, and running it, within each number of rounds. -/
structure Consistent (source : String) (tokenize parse : Bool → Result) (run : Nat → Result) : Prop where
  /-- What is said of the tokens is said of the trees, before anything else. -/
  err_begins : ∀ json, (tokenize json).err.toList <+: (parse json).err.toList
  /-- Tokens are refused exactly where there is a lexical fault, and trees are refused there too. -/
  tokenize_iff : ∀ json, (tokenize json).exit = 65 ↔ ∃ f, Item.fault f ∈ Source.items source
  parse_of_tokenize : ∀ json, (tokenize json).exit = 65 → (parse json).exit = 65
  /-- Trees and run are refused together, in the same words and without any output. -/
  parse_iff_run : ∀ json rounds, (parse json).exit = 65 ↔ (run rounds).exit = 65
  refused : ∀ json rounds, (parse json).exit = 65 →
    (parse json).out = .empty ∧ (run rounds).out = .empty ∧ (parse json).err = (run rounds).err
  /-- Otherwise there is nothing to say about the trees. -/
  accepted : ∀ json, (parse json).exit ≠ 65 → (parse json).exit = 0 ∧ (parse json).err = ""
  /-- And a run that comes to an end has printed what the program prints up to there: either it is through, or it
  has stopped at a fault and tells of that one. -/
  prints_of_finishes : ∀ json rounds, (parse json).exit ≠ 65 → Finishes rounds source →
    ∃ vs ending d, Stmt.Prints (Source.program source).1 (.root .empty) vs ending d ∧
      run rounds = .ofEnding vs ending
  /-- It does come to an end if the program does, and always to the same one, once the rounds are enough. -/
  finishes_of_prints : ∀ json vs ending d, (parse json).exit ≠ 65 →
    Stmt.Prints (Source.program source).1 (.root .empty) vs ending d →
    ∃ enough, ∀ rounds, enough ≤ rounds → Finishes rounds source ∧ run rounds = .ofEnding vs ending
  /-- Asking for a document changes neither an exit status nor what is said. -/
  document : ∀ json, (tokenize json).exit = (tokenize false).exit ∧ (tokenize json).err = (tokenize false).err ∧
    (parse json).exit = (parse false).exit ∧ (parse json).err = (parse false).err

/-- A file that holds a text is used by its text. -/
theorem withSource_holds (name : String) {bytes : ByteArray} (h : bytes.IsValidUTF8) (use : String → Result) :
    withSource name (.holds bytes) use = use (.fromUTF8 bytes h) := by
  rw [withSource, Utf8.decode_of_isValidUTF8 h]

/-- The commands agree on every file whose bytes are text. What a listing of the tokens says is the beginning of
what is said about the trees, and it is refused for lexical faults only. Trees and run are refused together, in the
same words and without output. Otherwise the trees are shown without a word, and a run that comes to an end is
either through, without a word, or stopped at one fault of the program; what it wrote is what the program printed
before. A document instead of lines makes no difference to any of this. -/
theorem perform_consistent (name : String) (rounds : Nat) (typed : ByteArray) {bytes : ByteArray}
    (h : bytes.IsValidUTF8) :
    Consistent (.fromUTF8 bytes h)
      (fun json => perform rounds (.holds bytes) typed (.tokenize name json))
      (fun json => perform rounds (.holds bytes) typed (.parse name json))
      (fun rounds => perform rounds (.holds bytes) typed (.run name)) := by
  simp only [perform, withSource_holds name h]
  generalize String.fromUTF8 bytes h = source
  exact {
    err_begins := fun json => by
      rw [tokenizeSource_eq, Result.err_ofText, (parseSource_eq json source).2, Source.program,
        Diagnostics.render_append, String.toList_append]
      exact List.prefix_append _ _
    tokenize_iff := fun json => tokenizeSource_exit_iff json source
    parse_of_tokenize := fun json hexit => by
      rw [tokenizeSource_exit_iff] at hexit
      rw [parseSource_exit_iff]
      exact hasStatic_program_of_fault hexit
    parse_iff_run := fun json rounds => by rw [parseSource_exit_iff, runSource_exit_iff]
    refused := fun json rounds hexit => by
      rw [parseSource_exit_iff] at hexit
      rw [parseSource_of_hasStatic hexit, runSource_of_hasStatic hexit]
      exact ⟨rfl, rfl, rfl⟩
    accepted := fun json hexit => by
      obtain ⟨hstatus, herr⟩ := parseSource_eq json source
      rw [hstatus, herr, program_of_exit_ne hexit]
      exact ⟨rfl, rfl⟩
    prints_of_finishes := fun json rounds hexit => exists_prints_of_finishes (program_of_exit_ne hexit)
    finishes_of_prints := fun json vs ending d hexit => exists_finishes_of_prints (program_of_exit_ne hexit)
    document := fun json => by
      rw [(parseSource_eq json source).1, (parseSource_eq json source).2, (parseSource_eq false source).1,
        (parseSource_eq false source).2, tokenizeSource_eq, tokenizeSource_eq]
      exact ⟨rfl, rfl, rfl, rfl⟩ }

/-- A loop that prints in two of its rounds, and an operand behind it that is no number. -/
def stoppingScript : String :=
  "var a = \"\";\nwhile (a != \"éé\") \x7b print a = a + \"é\"; \x7d\nprint -a;"

/-- The commands agree on the script: its tokens and its trees are listed, and its run prints what the rounds of
the loop print and then stops at the operand. -/
theorem perform_consistent_stoppingScript :
    ∃ h : stoppingScript.toUTF8.IsValidUTF8,
      Consistent (.fromUTF8 stoppingScript.toUTF8 h)
        (fun json => perform 3 (.holds stoppingScript.toUTF8) .empty (.tokenize "é.lox" json))
        (fun json => perform 3 (.holds stoppingScript.toUTF8) .empty (.parse "é.lox" json))
        (fun rounds => perform rounds (.holds stoppingScript.toUTF8) .empty (.run "é.lox")) ∧
      (perform 3 (.holds stoppingScript.toUTF8) .empty (.parse "é.lox" true)).exit = 0 ∧
      (perform 3 (.holds stoppingScript.toUTF8) .empty (.run "é.lox")).exit = 70 ∧
      (perform 3 (.holds stoppingScript.toUTF8) .empty (.run "é.lox")).out = "é\néé\n".toUTF8 ∧
      (perform 3 (.holds stoppingScript.toUTF8) .empty (.run "é.lox")).err =
        "Operand must be a number.\n[line 3]\n" := by
  refine ⟨stoppingScript.isValidUTF8, perform_consistent "é.lox" 3 .empty stoppingScript.isValidUTF8, ?_⟩
  decide +kernel

/-- A lexical fault is told first, also where a token in front of it is blamed. -/
example :
    (tokenizeSource true "print ;\n#").err = "[line 2] Error: Unexpected character.\n" ∧
      (parseSource true "print ;\n#").err =
        "[line 2] Error: Unexpected character.\n[line 1] Error at ';': Expect expression.\n" := by
  decide +kernel

end Command

end LoxLang
