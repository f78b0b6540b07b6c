import GraphqlFragments.Main
import GraphqlFragments.Proofs.Resolution
import GraphqlFragments.Proofs.Reachability
import GraphqlFragments.Proofs.Definitions
import GraphqlFragments.Proofs.Locality
import GraphqlFragments.Proofs.Exposure
import GraphqlFragments.Proofs.Json.Reading
import GraphqlFragments.Proofs.Json.Scalars
import GraphqlFragments.Proofs.Json.Values
import GraphqlFragments.Proofs.Growth
import GraphqlFragments.Proofs.Files
import GraphqlFragments.Proofs.Media
import GraphqlFragments.Proofs.Readable
import GraphqlFragments.Proofs.Saving
import GraphqlFragments.Proofs.FilePaths
import GraphqlFragments.Proofs.ShownPaths
import GraphqlFragments.Proofs.Plans
import GraphqlFragments.Proofs.Isolation
import GraphqlFragments.Proofs.Json.Following
import GraphqlFragments.Proofs.Documents
import GraphqlFragments.Proofs.Keeping
import GraphqlFragments.Proofs.Survival
import GraphqlFragments.Proofs.Writing
import GraphqlFragments.Proofs.Repetition
import GraphqlFragments.Proofs.Rerun
import GraphqlFragments.Proofs.Meaning
import GraphqlFragments.Proofs.Emission
import GraphqlFragments.Proofs.Sdl.Names
import GraphqlFragments.Proofs.Changes
import GraphqlFragments.Proofs.Effects
import GraphqlFragments.Proofs.Directories
import GraphqlFragments.Proofs.Placement
import GraphqlFragments.Proofs.Validity
import GraphqlFragments.Proofs.Placeholders
import GraphqlFragments.Proofs.Additions
import GraphqlFragments.Proofs.Depth
import GraphqlFragments.Proofs.Contents
import GraphqlFragments.Proofs.Replacement
import GraphqlFragments.Proofs.Roots
import GraphqlFragments.Proofs.Rewriting
import GraphqlFragments.Proofs.Rendering
import GraphqlFragments.Proofs.Bundles
import GraphqlFragments.Proofs.Modes
import GraphqlFragments.Proofs.Wrappers
import GraphqlFragments.Proofs.Structure
