import Linearity.Draft.Place
import Linearity.Settings.Read
import Linearity.Proofs.Freezing
import Linearity.Proofs.Stores
import Linearity.Proofs.Soundness
import Linearity.Proofs.Precision
import Linearity.Proofs.Aliasing
import Linearity.Proofs.Scoping
import Linearity.Proofs.Generic
import Linearity.Proofs.Validation
import Linearity.Proofs.FirstError
import Linearity.Proofs.Boundaries
import Linearity.Proofs.Obligations
import Linearity.Proofs.Loops
import Linearity.Proofs.Merging
import Linearity.Proofs.Temporaries
import Linearity.Proofs.Erasure
import Linearity.Proofs.LeafReads
import Linearity.Proofs.Nesting
import Linearity.Proofs.Reordering
import Linearity.Proofs.Lifetimes
import Linearity.Proofs.Mentions
import Linearity.Proofs.Spelling
import Linearity.Proofs.Numbering
import Linearity.Proofs.Search
