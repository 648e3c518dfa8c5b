import Abacus.Binary64.Basic
import Abacus.Binary64.Text
import Abacus.Compile
import Abacus.Datum.Basic
import Abacus.Datum.Display
import Abacus.Datum.Same
import Abacus.Demo
import Abacus.Describe
import Abacus.Expr.Basic
import Abacus.Expr.Eval
import Abacus.Expr.Measure
import Abacus.Expr.Record
import Abacus.Expr.Same
import Abacus.Expr.Simplify
import Abacus.Fault
import Abacus.Foreign
import Abacus.Host.Basic
import Abacus.Host.Template
import Abacus.Host.Text
import Abacus.Infix.Reader
import Abacus.Infix.Token
import Abacus.Infix.Tree
import Abacus.Json.Fault
import Abacus.Json.Reader
import Abacus.Json.Text
import Abacus.Layout
import Abacus.Main
import Abacus.Proofs.Answer
import Abacus.Proofs.Compile
import Abacus.Proofs.Datum.Mapping
import Abacus.Proofs.Env
import Abacus.Proofs.Expr.Corpus
import Abacus.Proofs.Expr.Defect
import Abacus.Proofs.Expr.Dependence
import Abacus.Proofs.Expr.Distinct
import Abacus.Proofs.Expr.Flaw
import Abacus.Proofs.Expr.GoodRecord
import Abacus.Proofs.Expr.Kept
import Abacus.Proofs.Expr.NormalForm
import Abacus.Proofs.Expr.Place
import Abacus.Proofs.Expr.PrunedRecord
import Abacus.Proofs.Expr.Record
import Abacus.Proofs.Expr.Rules
import Abacus.Proofs.Expr.Shape
import Abacus.Proofs.Expr.Shrinking
import Abacus.Proofs.Expr.Soundness
import Abacus.Proofs.Expr.Value
import Abacus.Proofs.Host.Function
import Abacus.Proofs.Host.Grammar
import Abacus.Proofs.Host.Printed
import Abacus.Proofs.Host.Template
import Abacus.Proofs.Host.Text
import Abacus.Proofs.Host.Width
import Abacus.Proofs.Infix.Acceptance
import Abacus.Proofs.Infix.CutInto
import Abacus.Proofs.Infix.Fault
import Abacus.Proofs.Infix.Grammar
import Abacus.Proofs.Infix.InOrder
import Abacus.Proofs.Infix.Situation
import Abacus.Proofs.Infix.Spelling
import Abacus.Proofs.Infix.Token
import Abacus.Proofs.Infix.Viable
import Abacus.Proofs.Json.Numbers
import Abacus.Proofs.Json.RoundTrip
import Abacus.Proofs.Json.Strings
import Abacus.Proofs.Layout
import Abacus.Proofs.Layout.Mapping
import Abacus.Proofs.Renaming
import Abacus.Proofs.Scope
import Abacus.Proofs.Slots
import Abacus.Proofs.Slotted
import Abacus.Proofs.Text.Decimal
import Abacus.Proofs.Text.Line
import Abacus.Proofs.Trace.Changes
import Abacus.Proofs.Trace.Completed
import Abacus.Proofs.Trace.Program
import Abacus.Proofs.Trace.Remarks
import Abacus.Proofs.Trace.Traced
import Abacus.Slotted
import Abacus.Text.Hidden
import Abacus.Text.Numeral
import Abacus.Text.Place
import Abacus.Text.Quoted
import Abacus.Trace.Expr
import Abacus.Trace.Traced
import Abacus.Trace.Writer
