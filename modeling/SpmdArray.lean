import SpmdArray.Proofs.ExactReduction
import SpmdArray.Proofs.Programs
import SpmdArray.Proofs.Schedules
import SpmdArray.Script.Buffers
import SpmdArray.Script.Groups
import SpmdArray.Script.Tensors
import SpmdArray.Proofs.ResultTypes
import SpmdArray.Proofs.Exchange
import SpmdArray.Proofs.SignedZeros
import SpmdArray.Proofs.SlicePairs
import SpmdArray.Proofs.Outputs
import SpmdArray.Proofs.Powers
import SpmdArray.Proofs.Replication
import SpmdArray.Proofs.Atomicity
import SpmdArray.Proofs.Holdings
import SpmdArray.Proofs.Entries
import SpmdArray.Proofs.AxisEntries
import SpmdArray.Proofs.Completeness
import SpmdArray.Proofs.AxisSets
import SpmdArray.Proofs.FoldTrees
import SpmdArray.Proofs.Overwriting
import SpmdArray.Proofs.Slices
import SpmdArray.Proofs.ByteStrings
import SpmdArray.Proofs.Conversions
import SpmdArray.Proofs.OperandOrder
import SpmdArray.Proofs.Adoption
import SpmdArray.Proofs.Chunks
import SpmdArray.Proofs.CommonShapes
import SpmdArray.Proofs.TiledEntries
import SpmdArray.Proofs.ElementCounts
import SpmdArray.Proofs.AxisLists
import SpmdArray.Proofs.RowMajor
import SpmdArray.Proofs.IdleRanks
