import TupleLang.Builtin.Catalogue
import TupleLang.Diagnostic
import TupleLang.Expr
import TupleLang.Proofs.DatumText
import TupleLang.Proofs.LinearParser
import TupleLang.Proofs.Statement
import TupleLang.Proofs.ExprBuilt
import TupleLang.Proofs.ExprSpelling
import TupleLang.Proofs.Identity
import TupleLang.Proofs.Footprint
import TupleLang.Proofs.Scoping
import TupleLang.Proofs.BalanceParser
import TupleLang.Proofs.TypeDepth
import TupleLang.Proofs.Flight
import TupleLang.Proofs.Parents
import TupleLang.Proofs.Places
import TupleLang.Proofs.Tables
import TupleLang.Proofs.OnwardParser
import TupleLang.Proofs.DataTuples
import TupleLang.Proofs.Freeing
import TupleLang.Proofs.Refusal
import TupleLang.Proofs.Handles
import TupleLang.Proofs.Precedence
import TupleLang.Proofs.PrecedenceParser
import TupleLang.Proofs.TreeText
import TupleLang.Proofs.Ageing
import TupleLang.Proofs.Proviso
import TupleLang.Proofs.ExprMeaning
import TupleLang.Proofs.ExprReading
import TupleLang.Proofs.ScopeView
import TupleLang.Proofs.ExprText
import TupleLang.Proofs.Compatibility
import TupleLang.Proofs.Refinement
import TupleLang.Proofs.Overload
import TupleLang.Proofs.DeepCopy
import TupleLang.Proofs.Leeway
import TupleLang.Proofs.Stacking
import TupleLang.Proofs.BacktrackingParser
import TupleLang.Proofs.Wildcard
import TupleLang.Proofs.Operands
import TupleLang.Proofs.Conditionals
import TupleLang.Proofs.Seclusion
import TupleLang.Proofs.Relations
import TupleLang.Proofs.Comparison
import TupleLang.Proofs.Argument
import TupleLang.Proofs.Placement
import TupleLang.Proofs.Registration
import TupleLang.Proofs.Construction
import TupleLang.Proofs.Growth
import TupleLang.Proofs.Calling
import TupleLang.Proofs.Lookup
import TupleLang.Proofs.Exactness
import TupleLang.Proofs.OperandStack
import TupleLang.Proofs.TypeOrder
import TupleLang.Proofs.Spacing
import TupleLang.Proofs.TypeSoundness
