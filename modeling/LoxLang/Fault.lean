import LoxLang.Token.Basic

/-!
# Faults of a running program

A run stops either because an expression has no value, which is a fault of the program on some line,
or because its output does not take what is printed.
-/

namespace LoxLang

/-- Why an expression has no value. -/
inductive RuntimeCause where
  | operandNotNumber
  | operandsNotNumbers
  | operandsNotAddable
  | undefinedVariable (name : String)
  | invalidOperator (lexeme : String)
  deriving DecidableEq, Repr

/-- The text of a fault. -/
def RuntimeCause.message : RuntimeCause → String
  | operandNotNumber => "Operand must be a number."
  | operandsNotNumbers => "Operands must be numbers."
  | operandsNotAddable => "Operands must be two numbers or two strings."
  | undefinedVariable name => "Undefined variable '" ++ name ++ "'."
  | invalidOperator lexeme => "Invalid operator '" ++ lexeme ++ "'."

/-- A fault and the line of the token it arose at. -/
structure RuntimeFault where
  cause : RuntimeCause
  line : Nat
  deriving DecidableEq, Repr

/-- Why output was not taken. -/
inductive OutputCause where
  | full
  | unflushed
  deriving DecidableEq, Repr

/-- The text of an output fault. -/
def OutputCause.message : OutputCause → String
  | full => "sink full"
  | unflushed => "flush failed"

/-- Why a run stopped. -/
inductive RunFault where
  | runtime (fault : RuntimeFault)
  | output (cause : OutputCause)
  deriving DecidableEq, Repr

end LoxLang
