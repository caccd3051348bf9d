import ScriptTree.Kind
import ScriptTree.Grammar
import ScriptTree.Operator
import ScriptTree.Numeral
import ScriptTree.Double
import ScriptTree.Decimal
import ScriptTree.Misuse
import ScriptTree.Literal
import ScriptTree.Environment
import ScriptTree.Node
import ScriptTree.Forest
import ScriptTree.Forest.Build
import ScriptTree.Forest.Lineage
import ScriptTree.Forest.Usage
import ScriptTree.Forest.Edit
import ScriptTree.Forest.Walk
import ScriptTree.Forest.Fold
import ScriptTree.Outline
import ScriptTree.Printer
import ScriptTree.Forest.Drawing
import ScriptTree.Diagnostic
import ScriptTree.Reporter
import ScriptTree.Forest.Links
import ScriptTree.Proofs.Ownership
import ScriptTree.Proofs.Splice
import ScriptTree.Proofs.Recursion
import ScriptTree.Proofs.Preorder
import ScriptTree.Proofs.Survey
import ScriptTree.Proofs.Pruning
import ScriptTree.Proofs.Session
import ScriptTree.Proofs.Linkage
import ScriptTree.Proofs.Fold
import ScriptTree.Proofs.Printing
import ScriptTree.Proofs.OutlineText
import ScriptTree.Proofs.View
import ScriptTree.Proofs.Ancestry
import ScriptTree.Proofs.Rehoming
import ScriptTree.Proofs.Conformity
import ScriptTree.Proofs.Acceptance
import ScriptTree.Proofs.Rows
import ScriptTree.Proofs.RowOrder
import ScriptTree.Proofs.Uses
import ScriptTree.Proofs.Dependence
import ScriptTree.Proofs.Surgery
import ScriptTree.Proofs.Undo
import ScriptTree.Proofs.History
import ScriptTree.Proofs.Audit
import ScriptTree.Proofs.Repair
import ScriptTree.Proofs.ScopeChain
import ScriptTree.Proofs.DoubleOrder
import ScriptTree.Proofs.Rounding
import ScriptTree.Proofs.Precision
import ScriptTree.Proofs.NumeralText
import ScriptTree.Proofs.NumberNames
import ScriptTree.Proofs.IntegerNames
import ScriptTree.Proofs.Commutation
import ScriptTree.Proofs.Measures
import ScriptTree.Proofs.Declarations
import ScriptTree.Proofs.Spellings
