import Stylesheet.Import.Resolver
import Stylesheet.Main
import Stylesheet.Value.Reader
import Stylesheet.Proofs.Arithmetic.Grammar
import Stylesheet.Proofs.Arithmetic.Items
import Stylesheet.Proofs.Binding.Agreement
import Stylesheet.Proofs.Binding.Stack
import Stylesheet.Proofs.Condition.Grammar
import Stylesheet.Proofs.Condition.Numbers
import Stylesheet.Proofs.Condition.Quoting
import Stylesheet.Proofs.Condition.Words
import Stylesheet.Proofs.Expansion.Bounds
import Stylesheet.Proofs.Expansion.Coherence
import Stylesheet.Proofs.Expansion.Counting
import Stylesheet.Proofs.Expansion.Extensions
import Stylesheet.Proofs.Expansion.Flattening
import Stylesheet.Proofs.Expansion.Hygiene
import Stylesheet.Proofs.Expansion.Idempotence
import Stylesheet.Proofs.Expansion.Importing
import Stylesheet.Proofs.Expansion.Including
import Stylesheet.Proofs.Expansion.Integrity
import Stylesheet.Proofs.Expansion.Locality
import Stylesheet.Proofs.Expansion.Output
import Stylesheet.Proofs.Expansion.Pending
import Stylesheet.Proofs.Expansion.Preorder
import Stylesheet.Proofs.Expansion.Purity
import Stylesheet.Proofs.Expansion.Rejection
import Stylesheet.Proofs.Import.Order
import Stylesheet.Proofs.Interpolation.Copies
import Stylesheet.Proofs.Selector.Extending
import Stylesheet.Proofs.Tree.Contents
import Stylesheet.Proofs.Tree.Faithful
import Stylesheet.Proofs.Tree.Placement
import Stylesheet.Proofs.Value.Choosing
import Stylesheet.Proofs.Value.Colors
import Stylesheet.Proofs.Value.Lists
import Stylesheet.Proofs.Value.Numbers
import Stylesheet.Proofs.Value.Positions
import Stylesheet.Proofs.Value.RoundTrip
import Stylesheet.Proofs.Value.Scanning
import Stylesheet.Proofs.Value.Substituting
