import SimdHash.Exec
import SimdHash.BitMask
import SimdHash.OpenAddressing
import SimdHash.WrappedTriangle
import SimdHash.Reciprocal
import SimdHash.Transition
import SimdHash.TagVector
import SimdHash.Capacity
import SimdHash.Ladder
import SimdHash.Core
import SimdHash.Pages
import SimdHash.Windows
import SimdHash.Coverage
import SimdHash.Search
import SimdHash.Invariant
import SimdHash.Rebuild
import SimdHash.Growth
import SimdHash.Containers
import SimdHash.Operations
import SimdHash.Calls
import SimdHash.Contents
import SimdHash.Dictionary
import SimdHash.Limits
import SimdHash.Iteration
import SimdHash.Sequence
import SimdHash.Lookups
import SimdHash.Insertions
import SimdHash.Selection
import SimdHash.Resets
import SimdHash.Agreement
import SimdHash.Fuel
import SimdHash.Unchecked
import SimdHash.Safety
import SimdHash.Permutation
import SimdHash.Lockstep
import SimdHash.LockstepRebuild
import SimdHash.LockstepCalls
import SimdHash.FastModes
import SimdHash.Reuse
import SimdHash.Slips
import SimdHash.Cascade
import SimdHash.Reserve
import SimdHash.FailedGrowth
import SimdHash.ProbeSequence
import SimdHash.FixedWidth
import SimdHash.DataSet
import SimdHash.KeyHalves
import SimdHash.DataSetFile
import SimdHash.RoundTrip
import SimdHash.Tombstones
import SimdHash.Discipline
import SimdHash.Occupancy
import SimdHash.Liveness
import SimdHash.BenchHash
import SimdHash.BenchCalls
import SimdHash.BenchLoops
import SimdHash.BenchTests
import SimdHash.BenchRuns
import SimdHash.Application
import SimdHash.HomeSlots
import SimdHash.Hashing
import SimdHash.Placement
import SimdHash.PlacedRuns
import SimdHash.SequentialKeys
import SimdHash.Crowding
import SimdHash.Retain
import SimdHash.Amortised
import SimdHash.Heap
import SimdHash.Ownership
import SimdHash.Lifetime
import SimdHash.Room
