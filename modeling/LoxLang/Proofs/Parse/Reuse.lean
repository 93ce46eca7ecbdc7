import LoxLang.Parse.Goal
import LoxLang.Proofs.Parse.Progress

/-!
# A reader can be used again

A `Reader` holds a token list, a cursor and the diagnostics found so far. A walker that is run on it starts where
the last one left the cursor, and what it reports goes behind what was found, the first of two walkers before the
second (`run_bind`). A call runs one of the two walkers over whole token lists, so that calls share the cursor and
the diagnostics.

Nothing of that is seen in the answers (`calls_eq_fresh`): a call answers, and adds to the diagnostics, what it does
on a reader that was never used, and no call breaks off.
-/

namespace LoxLang

open Parse (Goal Answer)

/-- A token list with a cursor, and what was found in it. -/
structure Reader where
  tokens : List Token
  current : Nat
  found : Diagnostics

namespace Reader

variable {α β : Type}

/-- A reader that was never used. -/
def fresh (tokens : List Token) : Reader :=
  ⟨tokens, 0, []⟩

/-- Runs a walker from where the cursor stands. -/
def run (r : Reader) (w : Walker α) : Except Breach (Except ParseFault α × Reader) :=
  (w r.tokens r.current).map fun landing =>
    (landing.result,
      ⟨r.tokens, landing.current, r.found ++ landing.reports.map ParseFault.diagnostic⟩)

/-! ## The order in which diagnostics are found -/

/-- A walker that answers leaves its cursor and its reports with the reader. -/
theorem run_of_ok {r : Reader} {w : Walker α} {landing : Landing α}
    (h : w r.tokens r.current = .ok landing) :
    r.run w = .ok (landing.result,
      ⟨r.tokens, landing.current, r.found ++ landing.reports.map ParseFault.diagnostic⟩) := by
  rw [run, h]
  rfl

/-- A walker with a result of its own leaves the reader as it is. -/
theorem run_pure (r : Reader) (a : α) : r.run (pure a) = .ok (.ok a, r) := by
  have hpure : (pure a : Walker α) r.tokens r.current = .ok ⟨.ok a, [], [], r.current⟩ := rfl
  rw [run_of_ok hpure, List.map_nil, List.append_nil]

/-- The second of two walkers is run on the reader that the first one leaves. -/
theorem run_bind (r : Reader) (w : Walker α) (f : α → Walker β) :
    r.run (w >>= f) = (r.run w).bind fun (result, after) =>
      match result with
      | .ok a => after.run (f a)
      | .error fault => .ok (.error fault, after) := by
  show ((Walker.andThen w f) r.tokens r.current).map _ = _
  rcases h : w r.tokens r.current with breach | ⟨fault | a, reports, recoveries, current⟩
  · simp only [run, Walker.andThen, h, Except.map, Except.bind]
  · simp only [run, Walker.andThen, h, Except.map, Except.bind]
  · simp only [run, Walker.andThen, h, Except.map, Except.bind]
    cases f a r.tokens current with
    | error breach => rfl
    | ok second => simp

/-! ## Calls -/

/-- The walker of a goal. -/
def reading (bound : Nat) : Goal → Walker Answer
  | .program => do return .program (← Walker.program bound)
  | .expression => do return .expression (← Walker.soleExpression bound)

/-- Reads the tokens for a goal. The bound is no limit: there is a round for each token, and one that finds the
end. -/
def call (r : Reader) (goal : Goal) : Except Breach (Except ParseFault Answer × Reader) :=
  r.run (reading (r.tokens.length + 1) goal)

/-- Reads the tokens for one goal after the other. -/
def calls (r : Reader) : List Goal → Except Breach (List (Except ParseFault Answer) × Reader)
  | [] => .ok ([], r)
  | goal :: goals => do
    let (answer, r) ← r.call goal
    let (answers, r) ← r.calls goals
    return (answer :: answers, r)

/-- What a reader of the tokens finds when it reads them for a goal. -/
def finds (tokens : List Token) (goal : Goal) : Diagnostics :=
  (Parse.read tokens goal).2.map ParseFault.diagnostic

/-- A call does not depend on the cursor, nor on what was found before. -/
theorem call_eq_read (r : Reader) (goal : Goal) :
    ∃ current, r.call goal =
      .ok (.ok (Parse.read r.tokens goal).1, ⟨r.tokens, current, r.found ++ finds r.tokens goal⟩) := by
  cases hstream : Stream.ofTokens? r.tokens with
  | none =>
    have hnil := List.getLast?_eq_none_iff.1 (Option.map_eq_none_iff.1 hstream)
    obtain ⟨tokens, start, found⟩ := r
    obtain rfl : tokens = [] := hnil
    cases goal <;> exact ⟨0, rfl⟩
  | some stream =>
    have hbound := Nat.lt_succ_self r.tokens.length
    cases goal with
    | program =>
      obtain ⟨recoveries, current, -, hwalk⟩ := Walker.program_of_ofTokens? hstream hbound r.current
      rw [call, reading, run_bind, run_of_ok hwalk]
      exact ⟨current, run_pure _ _⟩
    | expression =>
      obtain ⟨recoveries, current, -, hwalk⟩ := Walker.soleExpression_of_ofTokens? hstream hbound r.current
      rw [call, reading, run_bind, run_of_ok hwalk]
      exact ⟨current, run_pure _ _⟩

/-- Reading for one goal after the other answers each of them alone and finds what each of them finds, in turn. -/
theorem readAll_eq_map (tokens : List Token) (goals : List Goal) (found : Diagnostics) :
    Parse.readAll tokens goals found =
      (goals.map fun goal => (Parse.read tokens goal).1, found ++ goals.flatMap (finds tokens)) := by
  induction goals generalizing found with
  | nil => simp [Parse.readAll]
  | cons goal goals ih => simp [Parse.readAll, ih, finds]

/-- Calls in a row do the same, wherever the cursor stands between them. -/
theorem calls_eq_map (r : Reader) (goals : List Goal) :
    ∃ current, r.calls goals =
      .ok (goals.map fun goal => .ok (Parse.read r.tokens goal).1,
        ⟨r.tokens, current, r.found ++ goals.flatMap (finds r.tokens)⟩) := by
  induction goals generalizing r with
  | nil => exact ⟨r.current, by simp [calls]⟩
  | cons goal goals ih =>
    obtain ⟨after, hcall⟩ := r.call_eq_read goal
    obtain ⟨current, hcalls⟩ := ih ⟨r.tokens, after, r.found ++ finds r.tokens goal⟩
    refine ⟨current, ?_⟩
    rw [calls, hcall]
    show (Except.bind (calls _ goals) _) = _
    rw [hcalls, List.append_assoc]
    rfl

/-- Calls on a reader, wherever its cursor was left and whatever was found before, are the calls of readers that
were never used. Each one answers what it answers on such a reader, and behind the diagnostics that were there
before stand, call by call, those that such a reader finds. This is how a token list is read for a series of
goals. -/
theorem calls_eq_fresh (r : Reader) (goals : List Goal) :
    (∀ goal, ∃ current, (fresh r.tokens).call goal =
      .ok (.ok (Parse.read r.tokens goal).1, ⟨r.tokens, current, finds r.tokens goal⟩)) ∧
    (∃ current, r.calls goals =
      .ok (goals.map fun goal => .ok (Parse.read r.tokens goal).1,
        ⟨r.tokens, current, r.found ++ goals.flatMap (finds r.tokens)⟩)) ∧
    Parse.readAll r.tokens goals r.found =
      (goals.map fun goal => (Parse.read r.tokens goal).1, r.found ++ goals.flatMap (finds r.tokens)) :=
  ⟨(fresh r.tokens).call_eq_read, r.calls_eq_map goals, readAll_eq_map r.tokens goals r.found⟩

end Reader

end LoxLang
