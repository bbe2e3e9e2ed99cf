import MiniC.Main
import MiniC.Proofs.Grammar.Conflict
import MiniC.Proofs.Grammar.RoundTrip
import MiniC.Proofs.Rule.Layout
import MiniC.Proofs.Run.Capacity
import MiniC.Proofs.Run.Fuel
import MiniC.Proofs.Run.Isolation
import MiniC.Proofs.Run.Safe
import MiniC.Proofs.Run.Stack
import MiniC.Proofs.Grammar.Append
import MiniC.Proofs.Tokens.Exact
import MiniC.Proofs.Grammar.Spacing
import MiniC.Proofs.Tokens.Spelled
import MiniC.Proofs.Run.Kinds
import MiniC.Proofs.Run.Bindings
import MiniC.Proofs.Run.ExtraInput
import MiniC.Proofs.Run.Shadow
import MiniC.Proofs.Run.EmptyScope
import MiniC.Proofs.Run.Fold
import MiniC.Proofs.Run.ForLoop
import MiniC.Proofs.Run.Writes
import MiniC.Proofs.Operator.Integers
import MiniC.Proofs.Grammar.Progress
import MiniC.Proofs.Binary64.Conversion
import MiniC.Proofs.Operator.Order
import MiniC.Proofs.Run.CallGraph
import MiniC.Proofs.Run.Stepping
import MiniC.Proofs.Rule.Grouping
