import Screenwright.Main
import Screenwright.Proofs.Navigation
import Screenwright.Proofs.Cleanup
import Screenwright.Proofs.Absence
import Screenwright.Proofs.Wording
import Screenwright.Proofs.Decoding
import Screenwright.Proofs.Isolation
import Screenwright.Proofs.Listing
import Screenwright.Proofs.Trees
import Screenwright.Proofs.Skeletons
import Screenwright.Proofs.Packing
import Screenwright.Proofs.Assembling
import Screenwright.Proofs.Contents
import Screenwright.Proofs.Holdings
import Screenwright.Proofs.Destination
import Screenwright.Proofs.Programs
import Screenwright.Proofs.Previews
import Screenwright.Proofs.Canonical
import Screenwright.Proofs.Values
import Screenwright.Proofs.Records
import Screenwright.Proofs.Documents
import Screenwright.Proofs.Numerals
import Screenwright.Proofs.Scanning
import Screenwright.Proofs.Outlines
import Screenwright.Proofs.Containers
import Screenwright.Proofs.Printing
import Screenwright.Proofs.Inlining
import Screenwright.Proofs.Requests
import Screenwright.Proofs.Locality
import Screenwright.Proofs.Reports
import Screenwright.Proofs.Lockstep
import Screenwright.Proofs.SideBySide
import Screenwright.Proofs.Parallels
import Screenwright.Proofs.Independence
import Screenwright.Proofs.Placement
import Screenwright.Proofs.Dangling
import Screenwright.Proofs.Unfolding
import Screenwright.Proofs.Nesting
import Screenwright.Proofs.Literals
import Screenwright.Proofs.Bases
import Screenwright.Proofs.Extensions
import Screenwright.Proofs.Spacing
import Screenwright.Proofs.Integers
import Screenwright.Proofs.Colors
import Screenwright.Proofs.Rendering
import Screenwright.Proofs.Manifests
import Screenwright.Proofs.Shorthands
import Screenwright.Proofs.Lengths
import Screenwright.Proofs.Channels
import Screenwright.Proofs.Images
import Screenwright.Proofs.Settings
import Screenwright.Proofs.Reprinting
import Screenwright.Proofs.Rewriting
import Screenwright.Proofs.Copies
import Screenwright.Proofs.Indexing
import Screenwright.Proofs.Offsets
import Screenwright.Proofs.Bytewise
