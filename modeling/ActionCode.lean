import ActionCode.Edit
import ActionCode.Listing
import ActionCode.RoundTrip
import ActionCode.Proofs.Blocks.Indices
import ActionCode.Proofs.Blocks.Placement
import ActionCode.Proofs.Blocks.Refusals
import ActionCode.Proofs.Chunks.Tiling
import ActionCode.Proofs.Chunks.Truncation
import ActionCode.Proofs.Concatenation.Buffers
import ActionCode.Proofs.Counts.Annotating
import ActionCode.Proofs.Counts.Grouping
import ActionCode.Proofs.Counts.Literals
import ActionCode.Proofs.Counts.Seeds
import ActionCode.Proofs.Depth.Limits
import ActionCode.Proofs.Emission.PushBodies
import ActionCode.Proofs.Emission.Sequences
import ActionCode.Proofs.Flow.Forest
import ActionCode.Proofs.Lines.Indentation
import ActionCode.Proofs.Merging.Invisible
import ActionCode.Proofs.Nested.Standalone
import ActionCode.Proofs.Reading.Sessions
import ActionCode.Proofs.Records.Partition
import ActionCode.Proofs.RoundTrip.Crossing
import ActionCode.Proofs.RoundTrip.Preservation
import ActionCode.Proofs.RoundTrip.Stability
import ActionCode.Proofs.Sizes.Accounting
import ActionCode.Proofs.Stack.Exactness
