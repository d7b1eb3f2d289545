import TagTree.Block.Code
import TagTree.Config.Directory
import TagTree.Json.Value
import TagTree.Proofs.Block.Registering
import TagTree.Proofs.Block.Scopes
import TagTree.Proofs.Container.Equality
import TagTree.Proofs.Container.Leaves
import TagTree.Proofs.Container.Made
import TagTree.Proofs.Container.Membership
import TagTree.Proofs.Published.Lifecycle
import TagTree.Proofs.Query.Exchanging
import TagTree.Proofs.Query.Restoring
import TagTree.Proofs.Registry.CommonFront
import TagTree.Proofs.Registry.Contract
import TagTree.Proofs.Registry.Handles
import TagTree.Proofs.Registry.Missing
import TagTree.Proofs.Registry.Optimality
import TagTree.Proofs.Registry.Precedence
import TagTree.Proofs.Registry.Rebuilding
import TagTree.Proofs.Registry.Refusing
import TagTree.Proofs.Registry.Savings
import TagTree.Proofs.Registry.Traversing
import TagTree.Proofs.Registry.TreeLaws
import TagTree.Proofs.Text.RoundTrip
import TagTree.Proofs.Text.Words
import TagTree.Proofs.Wire.Accounting
import TagTree.Proofs.Wire.Arithmetic
import TagTree.Proofs.Wire.Pieces
import TagTree.Proofs.Wire.Truncation
import TagTree.Query.Saved
import TagTree.Registry.Assembly
import TagTree.Text.Form
import TagTree.Wire.Codec
