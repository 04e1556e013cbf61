import IndexedHash.Loop
import IndexedHash.Bitmap
import IndexedHash.ByteWord
import IndexedHash.Groups
import IndexedHash.Probing
import IndexedHash.KeyedList
import IndexedHash.Bin
import IndexedHash.Calls
import IndexedHash.IdealIndex
import IndexedHash.DenseBin
import IndexedHash.GroupIndex
import IndexedHash.V0Index
import IndexedHash.Iht
import IndexedHash.IhtRefinement
import IndexedHash.Representation
import IndexedHash.Ixht
import IndexedHash.Splitting
import IndexedHash.IxhtInvariant
import IndexedHash.IxhtSimulation
import IndexedHash.IxhtSessions
import IndexedHash.Directory
import IndexedHash.Filling
import IndexedHash.SplitElements
import IndexedHash.SplitReturns
import IndexedHash.IxhtRefinement
import IndexedHash.BinRebuild
import IndexedHash.Cursor
import IndexedHash.Scanning
import IndexedHash.Probeable
import IndexedHash.IhtProbes
import IndexedHash.IxhtProbes
import IndexedHash.Iteration
import IndexedHash.ForwardIterators
import IndexedHash.Capacity
import IndexedHash.BinCalls
import IndexedHash.ByteOrder
import IndexedHash.Appending
import IndexedHash.Truncation
import IndexedHash.RebuildSpacing
import IndexedHash.Reserving
import IndexedHash.WideProduct
import IndexedHash.Lanes
import IndexedHash.Accesses
import IndexedHash.Vmum
import IndexedHash.VmumBlock
import IndexedHash.VmumHash
import IndexedHash.VmumDefault
import IndexedHash.IndexRelation
import IndexedHash.ByteBuffer
import IndexedHash.ByteGroups
import IndexedHash.Heap
import IndexedHash.IhtHeap
import IndexedHash.IxhtHeap
import IndexedHash.IxhtHeapRuns
import IndexedHash.IhtPointers
import IndexedHash.IxhtProgress
import IndexedHash.Memory
import IndexedHash.RebuildCost
import IndexedHash.VmumTargets
import IndexedHash.SmallTables
import IndexedHash.TurnoverCost
import IndexedHash.CString
import IndexedHash.StringTables
import IndexedHash.VmumRandomize
import IndexedHash.Flooding
import IndexedHash.VmumCollisions
import IndexedHash.Spreading
