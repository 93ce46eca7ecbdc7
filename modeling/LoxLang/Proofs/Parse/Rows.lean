import LoxLang.Proofs.Parse.Local
import LoxLang.Proofs.Parse.ReadsStmt

/-!
# Rows of declarations

A program is read declaration by declaration, the malformed ones with reports (`Row`). Since reading is
local, no bound plays a part in it, and a row can be put together from its parts: one declaration, read or
recovered from, and the row behind it (`Row.cons`), or declarations that are free of faults and what
follows them (`row_parts`). `program_eq_of_row` and `row_program` say that `Parse.program` reads the row of
a token list.
-/

namespace LoxLang

open LoxLang.Parser

namespace Parser

variable {size : Nat} {tokens : List Token}

/-- A row of declarations is read as the given trees with the given reports, with every bound on their
number that reaches the number of tokens. -/
def Row (size : Nat) (stop : Token) (tokens : List Token) (trees : List Stmt)
    (reports : List ParseFault) : Prop :=
  ∀ bound, tokens.length ≤ bound → ∃ rest,
    declarations [] (declaration size (statement size)) bound stop tokens =
      ⟨.ok trees, reports, rest⟩

/-- No tokens are a row of no declarations. -/
theorem row_nil (size : Nat) (stop : Token) : Row size stop [] [] [] :=
  fun bound _ => ⟨[], declarations_nil [] _ bound stop⟩

/-- A row is its first declaration, read or recovered from, and a row of the others. -/
theorem Row.cons {stop : Token} {rest : List Token} {first : Option Stmt} {others : List Stmt}
    {reports reports' : List ParseFault} (hrest : rest.length < tokens.length)
    (hfirst : recovering (declaration size (statement size)) stop tokens = ⟨.ok first, reports, rest⟩)
    (hothers : Row size stop rest others reports') :
    Row size stop tokens (first.toList ++ others) (reports ++ reports') := by
  obtain ⟨t, ts, rfl⟩ := List.exists_cons_of_length_pos (Nat.zero_lt_of_lt hrest)
  intro bound hbound
  obtain ⟨bound, rfl⟩ : ∃ b, bound = b + 1 := ⟨bound - 1, by omega⟩
  obtain ⟨left, hleft⟩ := hothers bound (by omega)
  refine ⟨left, ?_⟩
  rw [declarations, peekKind?_bind]
  simp only [List.head?_cons, Option.map_some, if_neg (List.not_mem_nil (a := t.kind))]
  rw [bind_of_ok hfirst, bind_of_ok hleft]
  show (⟨.ok _, reports ++ (reports' ++ []), left⟩ : Outcome (List Stmt)) = _
  rw [List.append_nil]

/-- Every token list is a row: what cannot be read is reported. -/
theorem exists_row (stop : Token) (hsize : tokens.length ≤ size) :
    ∃ trees reports, Row size stop tokens trees reports := by
  have hone := declaration_statement_local hsize hsize
  obtain ⟨trees, htrees⟩ := total_declarations [] (declaration size (statement size)) tokens.length
    stop tokens
  rcases hrow : declarations [] (declaration size (statement size)) tokens.length stop tokens with
    ⟨result, reports, rest⟩
  rw [hrow] at htrees
  obtain rfl : result = .ok trees := htrees
  refine ⟨trees, reports, fun bound hbound => ⟨rest, ?_⟩⟩
  rw [(declarations_local [] hone (Nat.le_refl _) hbound).eq (Nat.le_refl _) stop, hrow]

end Parser

/-- What stands before the first end mark is not cut by it. -/
theorem Stream.ofTokens?_append {tokens : List Token} {stream : Stream}
    (h : Stream.ofTokens? tokens = some stream) {before : List Token}
    (hbefore : ∀ t ∈ before, t.kind ≠ .eof) :
    Stream.ofTokens? (before ++ tokens) = some ⟨before ++ stream.body, stream.stop⟩ := by
  obtain ⟨last, hlast, rfl⟩ := Option.map_eq_some_iff.1 h
  have htake : (before ++ tokens).takeWhile (·.kind ≠ .eof) =
      before ++ tokens.takeWhile (·.kind ≠ .eof) :=
    List.takeWhile_append_of_pos (by simpa using hbefore)
  have hfind : (before ++ tokens).find? (·.kind = .eof) = tokens.find? (·.kind = .eof) := by
    have hnone : before.find? (·.kind = .eof) = none := by simpa using hbefore
    rw [List.find?_append, hnone, Option.none_or]
  rw [Stream.ofTokens?, List.getLast?_append, hlast, Option.some_or, Option.map_some, htake, hfind]

namespace Parse

/-! ## Programs are rows -/

/-- What is read as a row is read as a program. -/
theorem program_eq_of_row {size : Nat} {tokens : List Token} {stream : Stream} {trees : List Stmt}
    {reports : List ParseFault} (h : Stream.ofTokens? tokens = some stream)
    (hsize : stream.body.length ≤ size) (hrow : Row size stream.stop stream.body trees reports) :
    program tokens = (trees, reports) := by
  obtain ⟨rest, hrest⟩ := hrow stream.body.length (Nat.le_refl _)
  have hone := declaration_statement_local hsize (Nat.le_refl _)
  have heq := (declarations_local [] hone (Nat.le_refl _) (Nat.le_refl _)).eq (Nat.le_refl _)
    stream.stop
  rw [program, h]
  dsimp only [Parser.program]
  rw [heq, hrest]
  rfl

/-- What is read of a token list as a program is the row of what there is to read in it. -/
theorem row_program {size : Nat} {tokens : List Token} {stream : Stream}
    (h : Stream.ofTokens? tokens = some stream) (hsize : stream.body.length ≤ size) :
    Row size stream.stop stream.body (program tokens).1 (program tokens).2 := by
  obtain ⟨trees, reports, hrow⟩ := exists_row stream.stop hsize
  rw [program_eq_of_row h hsize hrow]
  exact hrow

/-- Declarations in a row are read one by one, and then what follows them. -/
theorem row_parts {size : Nat} {stop : Token} {more : List Token} {others : List Stmt}
    {reports : List ParseFault} (hmore : NextNot [.elseWord] more)
    (hothers : Row size stop more others reports) {parts : List (List Token × Stmt)}
    (hparts : ∀ p ∈ parts, Grammar.DerivesStmt .nearest .declaration p.1 p.2)
    (hsize : (parts.flatMap Prod.fst).length ≤ size) :
    Row size stop (parts.flatMap Prod.fst ++ more) (parts.map Prod.snd ++ others) reports := by
  induction parts with
  | nil => exact hothers
  | cons p parts ih =>
    obtain ⟨hp, hparts⟩ := List.forall_mem_cons.1 hparts
    rw [List.flatMap_cons, List.length_append] at hsize
    -- What follows a declaration is another one or what follows the row.
    have hnext : NextNot [.elseWord] (parts.flatMap Prod.fst ++ more) := by
      cases parts with
      | nil => exact hmore
      | cons q parts =>
        rw [List.flatMap_cons, List.append_assoc]
        exact (hparts q List.mem_cons_self).nextNot.mono (by simp)
    have hfirst := hp.complete size stop _ (by omega) hnext
    have hpos := hp.length_pos
    rw [List.flatMap_cons, List.append_assoc]
    refine Row.cons ?_ (recovering_of_ok hfirst) (ih hparts (by omega))
    simp only [List.length_append]
    omega

end Parse

end LoxLang
