import LoxLang.Diagnostic
import LoxLang.Parse.Stmt

/-!
# Reading source

A unit of source is read as a program or as one expression. Either way the diagnostics of its lexical
faults come first and those of reading its tokens after them; tokens are read also when some of the
source was none.
-/

namespace LoxLang

namespace Source

/-- The diagnostics of the lexical faults of a source. -/
def diagnostics (source : String) : Diagnostics :=
  (faults source).map LexicalFault.diagnostic

/-- A source read as a program. -/
def program (source : String) : List Stmt × Diagnostics :=
  let (statements, reports) := Parse.program (tokens source)
  (statements, diagnostics source ++ reports.map ParseFault.diagnostic)

/-- A source read as one expression. -/
def expression (source : String) : Option Expr × Diagnostics :=
  let (e, reports) := Parse.expression (tokens source)
  (e, diagnostics source ++ reports.map ParseFault.diagnostic)

end Source

end LoxLang
