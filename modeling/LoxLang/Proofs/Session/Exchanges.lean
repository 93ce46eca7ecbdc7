import LoxLang.Proofs.Run.Output
import LoxLang.Proofs.Session.Rest

/-!
# Calls and the replies to them

A session answers calls one after the other, and each call meets the session that the one before it left
(`Session.exchanges`). A unit with a static fault is not executed, so the session stays what it was
(`session_perform_of_hasStatic`), and calls with such units can be left out of a row of calls without a
trace in the others. On a sink that takes everything, the diagnostics of a call have one of three shapes
(`Diagnostics.WellShaped`): none; static ones only, the lexical ones first; or the one fault that a run
stopped at. `exchanges_without_static` puts this together.

It rests on two facts. An expression is not returned only where a fault was reported
(`evaluable?_eq_none_iff`), although one may be returned all the same; and a program that is executed
stops at one fault at most, which is the program's own as long as the sink takes everything
(`interpret_appends`).
-/

namespace LoxLang

/-! ## Diagnostics of one call -/

namespace Diagnostics

/-- All diagnostics are static, and no lexical one stands behind one of reading tokens. -/
def StaticInOrder (ds : Diagnostics) : Prop :=
  ∃ lexical grammatical : Diagnostics, ds = lexical ++ grammatical ∧
    (∀ d ∈ lexical, ∃ line message, d = .lexical line message) ∧
    ∀ d ∈ grammatical, ∃ line lexeme message, d = .grammatical line lexeme message

/-- The shapes that the diagnostics of a call can have. -/
def WellShaped (ds : Diagnostics) : Prop :=
  ds = [] ∨ ds ≠ [] ∧ ds.StaticInOrder ∨ ∃ line message, ds = [.runtime line message]

/-- Static diagnostics in their order have one of the shapes. -/
theorem StaticInOrder.wellShaped {ds : Diagnostics} (h : ds.StaticInOrder) : ds.WellShaped := by
  by_cases hds : ds = []
  · exact .inl hds
  · exact .inr (.inl ⟨hds, h⟩)

/-- The one fault of a run has one of the shapes. -/
theorem wellShaped_runtime (fault : RuntimeFault) : WellShaped [fault.diagnostic] :=
  .inr (.inr ⟨fault.line, fault.cause.message, rfl⟩)

/-- Static diagnostics in their order are all static. -/
theorem StaticInOrder.isStatic {ds : Diagnostics} (h : ds.StaticInOrder) :
    ∀ d ∈ ds, d.isStatic = true := by
  obtain ⟨lexical, grammatical, rfl, hlexical, hgrammatical⟩ := h
  refine List.forall_mem_append.2 ⟨fun d hd => ?_, fun d hd => ?_⟩
  · obtain ⟨line, message, rfl⟩ := hlexical d hd
    rfl
  · obtain ⟨line, lexeme, message, rfl⟩ := hgrammatical d hd
    rfl

/-- Static diagnostics are there as soon as there is any. -/
theorem StaticInOrder.hasStatic_eq_false_iff {ds : Diagnostics} (h : ds.StaticInOrder) :
    ds.hasStatic = false ↔ ds = [] := by
  constructor
  · intro hnone
    rw [hasStatic, List.any_eq_false] at hnone
    exact List.eq_nil_iff_forall_not_mem.2 fun d hd => hnone d hd (h.isStatic d hd)
  · rintro rfl
    rfl

end Diagnostics

namespace Source

/-- What is said about reading a source is in order. -/
theorem staticInOrder (source : String) (reports : List ParseFault) :
    Diagnostics.StaticInOrder (diagnostics source ++ reports.map ParseFault.diagnostic) := by
  refine ⟨_, _, rfl, fun d hd => ?_, fun d hd => ?_⟩
  · obtain ⟨f, -, rfl⟩ := List.mem_map.1 hd
    exact ⟨f.line, f.cause.message, rfl⟩
  · obtain ⟨f, -, rfl⟩ := List.mem_map.1 hd
    exact ⟨f.token.line, f.token.quotable?, f.cause.message, rfl⟩

end Source

/-- Reading tokens as one expression fails only with a report. -/
theorem Parse.reports_ne_nil_of_eq_none {tokens : List Token} (htokens : tokens ≠ [])
    (h : (Parse.expression tokens).1 = none) : (Parse.expression tokens).2 ≠ [] := by
  obtain ⟨last, hlast⟩ := Option.isSome_iff_exists.1 (List.getLast?_isSome.2 htokens)
  rw [Parse.expression, Stream.ofTokens?, hlast] at h ⊢
  dsimp only [Option.map_some] at h ⊢
  split at h
  · cases h
  · exact List.append_ne_nil_of_right_ne_nil _ (List.cons_ne_nil _ _)

namespace Session

/-! ## Evaluations -/

variable {source : String} {s : Session} {e : Expr}

/-- A unit is not evaluated exactly if it has a static fault. -/
theorem evaluable?_eq_none_iff (source : String) :
    evaluable? source = none ↔ (Source.expression source).2.hasStatic = true := by
  have horder : (Source.expression source).2.StaticInOrder := Source.staticInOrder source _
  have hnone : (Source.expression source).1 = none → (Source.expression source).2 ≠ [] := by
    have htokens : Source.tokens source ≠ [] := by
      rw [Source.tokens_eq]
      exact List.append_ne_nil_of_right_ne_nil _ (List.cons_ne_nil _ _)
    intro h hnil
    refine Parse.reports_ne_nil_of_eq_none htokens h ?_
    exact List.map_eq_nil_iff.1 (List.append_eq_nil_iff.1 hnil).2
  rw [evaluable?]
  rcases hread : Source.expression source with ⟨_ | e, ds⟩ <;> rw [hread] at horder hnone
  · refine iff_of_true rfl (Bool.of_not_eq_false fun hfalse => hnone rfl ?_)
    exact horder.hasStatic_eq_false_iff.1 hfalse
  · dsimp only
    split
    · next hstatic => exact iff_of_true rfl hstatic
    · next hstatic => exact iff_of_false (Option.some_ne_none e) hstatic

/-- A unit is evaluated as an expression exactly if it has no lexical fault and its tokens are that
expression. -/
theorem evaluable?_eq_some_iff :
    evaluable? source = some e ↔
      Source.faults source = [] ∧ Grammar.Expression (Source.body source) e := by
  have horder : (Source.expression source).2.StaticInOrder := Source.staticInOrder source _
  rw [← Source.expression_eq_iff, evaluable?]
  rcases hread : Source.expression source with ⟨_ | e', ds⟩ <;> rw [hread] at horder
  · have hne : none ≠ some e := (Option.some_ne_none e).symm
    exact iff_of_false hne fun heq => hne (Prod.mk.inj heq).1
  · rw [Prod.mk.injEq, ← horder.hasStatic_eq_false_iff]
    cases hstatic : ds.hasStatic <;> simp [hstatic]

/-- A unit that is not evaluated leaves the session as it is and gives what was found while it was read. -/
theorem evaluate_of_evaluable?_eq_none (h : evaluable? source = none) (s : Session) :
    s.evaluate source = (none, (Source.expression source).2, s) := by
  rw [evaluable?_eq_none_iff] at h
  rw [evaluate]
  rcases hread : Source.expression source with ⟨_ | e, ds⟩
  · rfl
  · rw [hread] at h
    exact if_pos h

/-- A unit without a static fault is evaluated as its expression, to a value or to one fault. -/
theorem evaluate_of_evaluable?_eq_some (h : evaluable? source = some e) (s : Session) :
    s.evaluate source =
      match s.machine.eval e with
      | (.ok v, m) => (some v, [], ofMachine m)
      | (.error fault, m) => (none, [fault.diagnostic], ofMachine m) := by
  have horder : (Source.expression source).2.StaticInOrder := Source.staticInOrder source _
  rw [evaluable?] at h
  rw [evaluate]
  rcases hread : Source.expression source with ⟨_ | e', ds⟩ <;> rw [hread] at h horder
  · cases h
  · dsimp only at h horder ⊢
    split at h
    · cases h
    · next hstatic =>
      cases h
      obtain rfl := horder.hasStatic_eq_false_iff.1 (Bool.eq_false_iff.2 hstatic)
      rw [if_neg hstatic, evaluateExpr]
      rcases s.machine.eval e with ⟨_ | v, m⟩ <;> rfl

/-- An evaluation gives a value exactly if it has no diagnostics; it prints nothing, and its diagnostics are
static ones in order or the one fault it stopped at. -/
theorem evaluate_shape (source : String) (s : Session) :
    (s.evaluate source).2.1.WellShaped ∧
      ((s.evaluate source).1.isSome ↔ (s.evaluate source).2.1 = []) ∧
      (s.evaluate source).2.2.sink = s.sink := by
  have horder : (Source.expression source).2.StaticInOrder := Source.staticInOrder source _
  cases he : evaluable? source with
  | none =>
    have hstatic := (evaluable?_eq_none_iff source).1 he
    rw [evaluate_of_evaluable?_eq_none he]
    refine ⟨horder.wellShaped, iff_of_false Bool.false_ne_true fun hnil => ?_, rfl⟩
    dsimp only at hnil
    rw [horder.hasStatic_eq_false_iff.2 hnil] at hstatic
    cases hstatic
  | some e =>
    have hsink : (s.machine.eval e).2.sink = s.sink := rfl
    rw [evaluate_of_evaluable?_eq_some he]
    rcases heval : s.machine.eval e with ⟨fault | v, m⟩ <;> rw [heval] at hsink
    · exact ⟨Diagnostics.wellShaped_runtime fault, iff_of_false Bool.false_ne_true (List.cons_ne_nil _ _),
        hsink⟩
    · exact ⟨.inl rfl, iff_of_true rfl rfl, hsink⟩

/-! ## Runs on a sink that takes everything -/

/-- A program is executed in the same way whatever a sink that takes everything holds, and stops at no
output fault. -/
theorem interpret_appends (rounds : Nat) (trees : List Stmt) (globals : Scope) :
    ∃ completion globals' printed, ¬completion.IsOutput ∧
      ∀ sink : Sink, sink.Reliable →
        (Session.mk globals sink).interpret rounds trees =
          (completion, ⟨globals', sink.append printed⟩) := by
  obtain ⟨completion, d, printed, hcompletion, hrun⟩ :=
    Stmt.execAll_appends rounds trees (.root globals)
  refine ⟨completion, d.globals, printed, hcompletion, fun sink hsink => ?_⟩
  have hflush := (hsink.append printed).flush_eq
  rw [interpret, machine, hrun sink hsink]
  cases completion with
  | done =>
    dsimp only
    rw [hflush]
    rfl
  | stopped | unfinished => rfl

/-- What a run reports has one of the shapes, on a sink that takes everything. -/
theorem run_wellShaped (hsink : s.sink.Reliable) (rounds : Nat) (source : String) :
    (s.run rounds source).diagnostics.WellShaped := by
  have horder : (Source.program source).2.StaticInOrder := Source.staticInOrder source _
  cases hstatic : (Source.program source).2.hasStatic with
  | true =>
    rw [run]
    dsimp only
    rw [if_pos hstatic]
    exact horder.wellShaped
  | false =>
    have hprogram : Source.program source = ((Source.program source).1, []) :=
      Prod.ext rfl (horder.hasStatic_eq_false_iff.1 hstatic)
    obtain ⟨completion, globals, printed, hcompletion, hrun⟩ :=
      interpret_appends rounds (Source.program source).1 s.globals
    rw [run_of_program hprogram, hrun s.sink hsink]
    rcases completion with _ | ⟨fault | cause⟩ | _
    · exact .inl rfl
    · exact Diagnostics.wellShaped_runtime fault
    · exact absurd trivial hcompletion
    · exact .inl rfl

/-! ## One call -/

/-- A call with a static fault leaves the session as it is. -/
theorem session_perform_of_hasStatic {call : Call}
    (h : (s.perform call).diagnostics.hasStatic = true) : (s.perform call).session = s := by
  cases call with
  | run rounds source =>
    have hstatic := (hasStatic_run rounds source s).symm.trans h
    exact (session_run rounds source s).trans (if_pos hstatic)
  | evaluate source =>
    have hsession : (s.perform (.evaluate source)).session = (s.evaluate source).2.2 := rfl
    have hdiagnostics : (s.evaluate source).2.1.hasStatic = true := h
    rw [hsession]
    cases he : evaluable? source with
    | none => rw [evaluate_of_evaluable?_eq_none he]
    | some e =>
      rw [evaluate_of_evaluable?_eq_some he] at hdiagnostics
      rcases heval : s.machine.eval e with ⟨fault | v, m⟩ <;> rw [heval] at hdiagnostics <;>
        cases hdiagnostics

/-- A sink that takes everything does so behind every call. -/
theorem reliable_perform (h : s.sink.Reliable) (call : Call) :
    (s.perform call).session.sink.Reliable := by
  cases call with
  | run rounds source =>
    have hsession : (s.perform (.run rounds source)).session = (s.run rounds source).session := rfl
    rw [hsession, session_run]
    split
    · exact h
    · obtain ⟨hlimit, hflush⟩ := Stmt.execAll_sink rounds (Source.program source).1 s.machine
      exact ⟨hlimit.trans h.1, hflush.trans h.2⟩
  | evaluate source =>
    have hsession : (s.perform (.evaluate source)).session = (s.evaluate source).2.2 := rfl
    rw [hsession, (evaluate_shape source s).2.2]
    exact h

/-! ## Calls in a row -/

/-- A call, the session that it met, and the reply to it. -/
structure Exchange where
  before : Session
  call : Call
  reply : Reply

/-- The exchanges of calls that a session performs one after the other. -/
def exchanges : Session → List Call → List Exchange
  | _, [] => []
  | s, call :: rest => ⟨s, call, s.perform call⟩ :: (s.perform call).session.exchanges rest

namespace Exchange

/-- The diagnostics hold a static fault. -/
def IsStatic (x : Exchange) : Prop :=
  x.reply.diagnostics.hasStatic = true

/-- What a call shows of itself: its diagnostics have one of their shapes; an evaluation gives a value
exactly if there are none, and prints nothing; and with a static fault the session stays what it was. -/
structure Proper (x : Exchange) : Prop where
  wellShaped : x.reply.diagnostics.WellShaped
  evaluate : ∀ source, x.call = .evaluate source →
    (x.reply.value.isSome ↔ x.reply.diagnostics = []) ∧ x.reply.session.sink = x.before.sink
  static : x.IsStatic → x.reply.session = x.before

end Exchange

/-- A call shows of itself what it should. -/
theorem proper_perform (h : s.sink.Reliable) (call : Call) :
    Exchange.Proper ⟨s, call, s.perform call⟩ where
  wellShaped := by
    cases call with
    | run rounds source => exact run_wellShaped h rounds source
    | evaluate source => exact (evaluate_shape source s).1
  evaluate := by
    rintro source ⟨⟩
    exact (evaluate_shape source s).2
  static := session_perform_of_hasStatic

/-- Every call in a row shows of itself what it should: the sink still takes everything behind the calls before it.
-/
theorem proper_exchanges {s : Session} (h : s.sink.Reliable) (calls : List Call) :
    ∀ x ∈ s.exchanges calls, x.Proper := by
  induction calls generalizing s with
  | nil => exact nofun
  | cons call rest ih =>
    exact List.forall_mem_cons.2 ⟨proper_perform h call, ih (reliable_perform h call)⟩

end Session

/-- The second list is the first without some of its entries, all of which satisfy `p`. -/
inductive Without {α : Type} (p : α → Prop) : List α → List α → Prop where
  | nil : Without p [] []
  | keep {a : α} {all kept : List α} : Without p all kept → Without p (a :: all) (a :: kept)
  | drop {a : α} {all kept : List α} : p a → Without p all kept → Without p (a :: all) kept

namespace Session

/-- Calls with static faults can be left out: the others meet the same sessions and get the same replies. -/
theorem exchanges_of_without {s : Session} {calls : List Call} {kept : List Exchange}
    (h : Without Exchange.IsStatic (s.exchanges calls) kept) :
    s.exchanges (kept.map Exchange.call) = kept := by
  induction calls generalizing s kept with
  | nil =>
    cases h
    rfl
  | cons call rest ih =>
    cases h with
    | keep h => rw [List.map_cons, exchanges, ih h]
    | drop hstatic h =>
      rw [session_perform_of_hasStatic hstatic] at h
      exact ih h

/-- Static faults have no effect on a session, and diagnostics have a fixed shape. Whatever calls a session
with a sink that takes everything performs, any of those with a static fault can be left out: every other
call meets the same session, so it gives the same value and the same diagnostics and prints the same. And
of each call the diagnostics are none, static ones with the lexical ones first, or one fault of a run; an
evaluation gives a value exactly if it has no diagnostics and prints nothing, and nor does a call with a
static fault, which leaves the session as it is. -/
theorem exchanges_without_static {s : Session} (hsink : s.sink.Reliable) (calls : List Call) :
    (∀ kept, Without Exchange.IsStatic (s.exchanges calls) kept →
        s.exchanges (kept.map Exchange.call) = kept) ∧
      ∀ x ∈ s.exchanges calls, x.Proper :=
  ⟨fun _ => exchanges_of_without, proper_exchanges hsink calls⟩

/-- Calls of which the second has a lexical fault and one of reading tokens, and the third the latter. -/
def mixedCalls : List Call :=
  [.run 1 "var a = \"x\";", .run 1 "print a; # var ;", .evaluate "a = ", .evaluate "a + b", .run 1 "print a;"]

/-- Without the two calls that have static faults, the other three meet the same sessions and get the same replies.
-/
theorem exchanges_without_static_mixedCalls :
    ∃ kept, kept.map Exchange.call =
        [.run 1 "var a = \"x\";", .evaluate "a + b", .run 1 "print a;"] ∧
      Without Exchange.IsStatic ((start .unlimited).exchanges mixedCalls) kept ∧
      (start .unlimited).exchanges (kept.map Exchange.call) = kept ∧
      ∀ x ∈ (start .unlimited).exchanges mixedCalls, x.Proper := by
  have hwithout : Without Exchange.IsStatic ((start .unlimited).exchanges mixedCalls) _ :=
    .keep (.drop (by unfold Exchange.IsStatic; decide +kernel)
      (.drop (by unfold Exchange.IsStatic; decide +kernel) (.keep (.keep .nil))))
  have hmain := exchanges_without_static (s := start .unlimited) Sink.reliable_unlimited mixedCalls
  exact ⟨_, rfl, hwithout, hmain.1 _ hwithout, hmain.2⟩

end Session

end LoxLang
