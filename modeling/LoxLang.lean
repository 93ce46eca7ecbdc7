import LoxLang.Main
import LoxLang.Parse.Goal
import LoxLang.Proofs.Parse.Grammar
import LoxLang.Proofs.Parse.Reads
import LoxLang.Scope.Forest
import LoxLang.Proofs.Parse.ReadsExpr
import LoxLang.Proofs.Parse.ReadsStmt
import LoxLang.Proofs.Token.Newline
import LoxLang.Proofs.Tree.Tokens
import LoxLang.Proofs.Run.Lockstep
import LoxLang.Proofs.Run.Scopes
import LoxLang.Proofs.Session.Units
import LoxLang.Proofs.Parse.Regular
import LoxLang.Proofs.Run.Renaming
import LoxLang.Proofs.Run.ForLoop
import LoxLang.Proofs.Token.LongestMatch
import LoxLang.Proofs.Parse.Local
import LoxLang.Proofs.Parse.Rows
import LoxLang.Proofs.Parse.Recovery
import LoxLang.Proofs.Run.Faults
import LoxLang.Proofs.Session.Reports
import LoxLang.Proofs.Session.Rest
import LoxLang.Proofs.Run.Output
import LoxLang.Proofs.Session.Exchanges
import LoxLang.Proofs.Parse.Lines
import LoxLang.Proofs.Run.Agreement
import LoxLang.Proofs.Session.Dependence
import LoxLang.Proofs.Scope.History
import LoxLang.Proofs.Scope.ChainOfScope
import LoxLang.Proofs.Session.Truncation
import LoxLang.Proofs.Token.Layout
import LoxLang.Proofs.Session.Arithmetic
import LoxLang.Proofs.Session.PrintedValue
import LoxLang.Proofs.Parse.WordBoundary
import LoxLang.Proofs.Parse.Progress
import LoxLang.Proofs.Parse.Braces
import LoxLang.Proofs.Token.Tiling
import LoxLang.Proofs.Parse.Blame
import LoxLang.Proofs.Parse.Reuse
import LoxLang.Proofs.Token.LineCount
import LoxLang.Proofs.Session.Locations
import LoxLang.Proofs.Parse.Viable
import LoxLang.Proofs.Parse.Reaches
import LoxLang.Proofs.Parse.Earliest
import LoxLang.Proofs.Token.Joining
import LoxLang.Proofs.Number.Rounding
import LoxLang.Proofs.Number.Words
import LoxLang.Proofs.Number.Text
import LoxLang.Proofs.Session.NumberText
import LoxLang.Proofs.Tree.PrefixForm
import LoxLang.Proofs.Session.PrefixText
import LoxLang.Proofs.Run.Rounds
import LoxLang.Proofs.Run.Prints
import LoxLang.Proofs.Command.Consistency
