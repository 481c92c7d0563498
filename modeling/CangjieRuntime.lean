import CangjieRuntime.Heap.TreeMerge
import CangjieRuntime.Heap.TreeTake
import CangjieRuntime.Heap.TreeRuns
import CangjieRuntime.Heap.RegionInfo
import CangjieRuntime.Lib.Holdings
import CangjieRuntime.Heap.RegionTable
import CangjieRuntime.Heap.FreeRegionManager
import CangjieRuntime.Heap.ManagerSections
import CangjieRuntime.Heap.UnitConservation
import CangjieRuntime.Heap.RegionResolution
import CangjieRuntime.Gc.RegionBitmap
import CangjieRuntime.Lib.Bits
import CangjieRuntime.Gc.BitMask
import CangjieRuntime.Gc.MarkBits
import CangjieRuntime.Gc.MarkExact
import CangjieRuntime.Heap.InsertExact
import CangjieRuntime.Base.RwLock
import CangjieRuntime.Base.RwLockExclusion
import CangjieRuntime.Common.PagePool
import CangjieRuntime.Common.PagePoolSafety
import CangjieRuntime.Gc.ForwardData
import CangjieRuntime.Gc.ForwardDataZones
import CangjieRuntime.Heap.RegionList
import CangjieRuntime.Heap.RegionListLinks
import CangjieRuntime.Heap.RegionListRuns
import CangjieRuntime.Gc.MarkStack
import CangjieRuntime.Gc.MarkStackBuffers
import CangjieRuntime.Gc.MarkStackRuns
import CangjieRuntime.Heap.LocalDeque
import CangjieRuntime.Heap.TreeTraversals
import CangjieRuntime.Heap.NodePool
import CangjieRuntime.Heap.NodePoolRuns
import CangjieRuntime.Exception.EhTable
import CangjieRuntime.Exception.EhLookup
import CangjieRuntime.Gc.PreLiveBytes
import CangjieRuntime.Heap.BestFit
import CangjieRuntime.Heap.TakeRegion
import CangjieRuntime.Gc.MarkStackClear
import CangjieRuntime.Heap.ReleaseGarbage
import CangjieRuntime.Lib.Positions
import CangjieRuntime.ObjectModel.GCTib
import CangjieRuntime.ObjectModel.GCTibScan
import CangjieRuntime.ObjectModel.BaseObject
import CangjieRuntime.ObjectModel.StructScan
import CangjieRuntime.Lib.BitField
import CangjieRuntime.Stackmap.StackMap
import CangjieRuntime.Stackmap.SlotRoots
import CangjieRuntime.Demangle.DemangleInfo
import CangjieRuntime.Demangle.Demangler
import CangjieRuntime.Demangle.Units
import CangjieRuntime.Demangle.Progress
import CangjieRuntime.Demangle.EntryPoints
import CangjieRuntime.Demangle.NestedDecls
import CangjieRuntime.Stackmap.Decode
import CangjieRuntime.Stackmap.Modes
import CangjieRuntime.Stackmap.Bounds
import CangjieRuntime.Stackmap.Writer
import CangjieRuntime.Stackmap.RoundTrip
import CangjieRuntime.Demangle.ForwardType
import CangjieRuntime.Demangle.TypeGrammar
import CangjieRuntime.Demangle.TypeUnits
import CangjieRuntime.Demangle.TypeLists
import CangjieRuntime.Demangle.FilterGeneric
import CangjieRuntime.Demangle.Numbers
import CangjieRuntime.Common.StateWordLock
import CangjieRuntime.Exception.LebRoundTrip
import CangjieRuntime.Heap.DequeRefinement
import CangjieRuntime.Lib.CasLoop
import CangjieRuntime.Heap.RegionFields
import CangjieRuntime.Demangle.VArrays
import CangjieRuntime.Common.MemCommon
import CangjieRuntime.Common.PagePoolSizes
import CangjieRuntime.Gc.UnbindPrevious
import CangjieRuntime.Heap.RegionAlloc
import CangjieRuntime.Lib.Rings
import CangjieRuntime.Sched.List
import CangjieRuntime.Sched.ListRuns
import CangjieRuntime.Lib.Outcomes
import CangjieRuntime.Demangle.DeCompression
import CangjieRuntime.Demangle.Expansion
import CangjieRuntime.Demangle.Recording
import CangjieRuntime.Demangle.Divergence
import CangjieRuntime.Demangle.Uncompressed
import CangjieRuntime.ObjectModel.ArrayRanges
import CangjieRuntime.Common.RunType
import CangjieRuntime.Heap.SlotList
import CangjieRuntime.Demangle.Api
import CangjieRuntime.Demangle.Symbols
import CangjieRuntime.Sched.LinkChains
