import LoxLang.Json
import LoxLang.Number.Style

/-!
# Tokens

A token has a kind, the stretch of source it was read from (its lexeme), a literal if it is a number
or a string, and the line on which it ends. Nothing ties the four together here, since a token list
may come from anywhere; `LoxLang.Token.Item` reads tokens from source.
-/

namespace LoxLang

/-- The kinds of tokens: punctuation and operators, the open classes, the reserved words, and the mark
behind the last token of a source. -/
inductive Kind where
  | leftParen | rightParen | leftBrace | rightBrace | comma | dot | minus | plus | semicolon | slash
  | star | bang | bangEqual | equal | equalEqual | greater | greaterEqual | less | lessEqual
  | identifier | string | number
  | andWord | classWord | elseWord | falseWord | funWord | forWord | ifWord | nullWord | orWord
  | printWord | returnWord | superWord | thisWord | trueWord | varWord | whileWord
  | eof
  deriving DecidableEq, Repr

namespace Kind

/-- The name of a kind in listings. -/
def label : Kind → String
  | leftParen => "LEFT_PAREN" | rightParen => "RIGHT_PAREN"
  | leftBrace => "LEFT_BRACE" | rightBrace => "RIGHT_BRACE"
  | comma => "COMMA" | dot => "DOT" | minus => "MINUS" | plus => "PLUS"
  | semicolon => "SEMICOLON" | slash => "SLASH" | star => "STAR"
  | bang => "BANG" | bangEqual => "BANG_EQUAL" | equal => "EQUAL" | equalEqual => "EQUAL_EQUAL"
  | greater => "GREATER" | greaterEqual => "GREATER_EQUAL"
  | less => "LESS" | lessEqual => "LESS_EQUAL"
  | identifier => "IDENTIFIER" | string => "STRING" | number => "NUMBER"
  | andWord => "AND" | classWord => "CLASS" | elseWord => "ELSE" | falseWord => "FALSE"
  | funWord => "FUN" | forWord => "FOR" | ifWord => "IF" | nullWord => "NULL" | orWord => "OR"
  | printWord => "PRINT" | returnWord => "RETURN" | superWord => "SUPER" | thisWord => "THIS"
  | trueWord => "TRUE" | varWord => "VAR" | whileWord => "WHILE"
  | eof => "EOF"

/-- Every kind. -/
def all : List Kind :=
  [leftParen, rightParen, leftBrace, rightBrace, comma, dot, minus, plus, semicolon, slash,
    star, bang, bangEqual, equal, equalEqual, greater, greaterEqual, less, lessEqual,
    identifier, string, number,
    andWord, classWord, elseWord, falseWord, funWord, forWord, ifWord, nullWord, orWord,
    printWord, returnWord, superWord, thisWord, trueWord, varWord, whileWord,
    eof]

/-- The kind that a label names. -/
def ofLabel? (s : String) : Option Kind :=
  all.find? (·.label = s)

/-- A label names its own kind, so no two kinds share one. -/
theorem ofLabel?_label (k : Kind) : ofLabel? k.label = some k := by
  cases k <;> rfl

/-- The reserved words. -/
def words : List (List Char × Kind) :=
  [("and".toList, andWord), ("class".toList, classWord), ("else".toList, elseWord),
    ("false".toList, falseWord), ("fun".toList, funWord), ("for".toList, forWord),
    ("if".toList, ifWord), ("null".toList, nullWord), ("or".toList, orWord),
    ("print".toList, printWord), ("return".toList, returnWord), ("super".toList, superWord),
    ("this".toList, thisWord), ("true".toList, trueWord), ("var".toList, varWord),
    ("while".toList, whileWord)]

/-- The kind of a word: reserved if it is listed, an identifier otherwise. -/
def ofWord (word : List Char) : Kind :=
  (words.lookup word).getD identifier

end Kind

/-- What the lexeme of a number or a string stands for. -/
inductive Literal where
  | number (x : Float)
  | string (s : String)
  deriving DecidableEq

namespace Literal

/-- Numbers in listings keep a fraction part as long as they are small whole numbers, and the sign of
a zero is dropped. -/
def numberStyle : NumberStyle where
  nan := "NaN"
  infinity := "inf"
  exactBelow := some (Nat.pow 10 15)
  wholeSuffix := ".0"
  signedZero := false

/-- The text of a literal in listings. -/
def render : Literal → String
  | number x => numberStyle.render x
  | string s => s

/-- The document of a literal: one member, named for what the literal is. -/
def toJson : Literal → Json
  | number x => .object [("Number", .number x)]
  | string s => .object [("Str", .string s)]

end Literal

/-- A token, wherever it came from. -/
structure Token where
  kind : Kind
  lexeme : String
  literal : Option Literal
  line : Nat
  deriving DecidableEq

namespace Token

/-- A line of a listing: kind, lexeme and literal. -/
def render (t : Token) : String :=
  t.kind.label ++ " " ++ t.lexeme ++ " " ++ (t.literal.map Literal.render).getD "null"

/-- The lexeme by which a message points at a token; the end has none. -/
def quotable? (t : Token) : Option String :=
  if t.kind = .eof then none else some t.lexeme

/-- The document of a token. -/
def toJson (t : Token) : Json :=
  .object [("token_type", .string t.kind.label), ("lexeme", .string t.lexeme),
    ("literal", (t.literal.map Literal.toJson).getD .null), ("line", .natural t.line)]

end Token

end LoxLang
