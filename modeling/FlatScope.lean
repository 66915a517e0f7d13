import FlatScope.Main
import FlatScope.Trace
import FlatScope.Proofs.Resolution
import FlatScope.Proofs.Traversals
import FlatScope.Proofs.LocalSlots
import FlatScope.Proofs.Lexing
import FlatScope.Proofs.Functions
import FlatScope.Proofs.Declarations
import FlatScope.Proofs.Room
import FlatScope.Proofs.Compiling
import FlatScope.Proofs.Rerun
import FlatScope.Proofs.Leftovers
import FlatScope.Proofs.Renumbering
import FlatScope.Proofs.Coherence
import FlatScope.Proofs.Tiling
import FlatScope.Proofs.Impasse
import FlatScope.Proofs.Reuse
import FlatScope.Proofs.Subtrees
import FlatScope.Proofs.Locations
import FlatScope.Proofs.Reissue
import FlatScope.Proofs.Ancestry
import FlatScope.Proofs.Footprint
import FlatScope.Proofs.Lossless
import FlatScope.Proofs.Canonical
import FlatScope.Proofs.Likeness
import FlatScope.Proofs.PoolHistories
import FlatScope.Proofs.Defects
import FlatScope.Proofs.Spacing
import FlatScope.Proofs.Slices
import FlatScope.Proofs.Literals
import FlatScope.Proofs.Descriptors
import FlatScope.Proofs.Colour
import FlatScope.Proofs.Blocks
import FlatScope.Proofs.Components
import FlatScope.Proofs.Nesting
