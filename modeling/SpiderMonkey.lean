import SpiderMonkey.Jit.RangeSound
import SpiderMonkey.Jit.MoveResolverSound
import SpiderMonkey.Builtin.OrderedHashTableRuns
import SpiderMonkey.Gc.FindSCCsSound
import SpiderMonkey.Gc.Heap
import SpiderMonkey.Gc.HeapCells
import SpiderMonkey.Gc.HeapSpans
import SpiderMonkey.Gc.HeapNewList
import SpiderMonkey.Gc.HeapSweep
import SpiderMonkey.Gc.HeapAllocate
import SpiderMonkey.Gc.HeapFinalize
import SpiderMonkey.Jit.DominatorTree
import SpiderMonkey.Jit.SnapshotsSound
import SpiderMonkey.Jit.SafepointsSound
import SpiderMonkey.Vm.TransferMapSound
import SpiderMonkey.Vm.RopeFlattenSound
import SpiderMonkey.Vm.StructuredCloneRoundTrip
import SpiderMonkey.Vm.DateTime
import SpiderMonkey.Jit.IntegrityCheckSound
import SpiderMonkey.Jit.StupidAllocatorRuns
import SpiderMonkey.Lib.Binary64
import SpiderMonkey.Json.Grammar
import SpiderMonkey.Json.ReadString
import SpiderMonkey.Json.Quote
import SpiderMonkey.Json.ReadNumber
import SpiderMonkey.Json.Advance
import SpiderMonkey.Json.Parser
import SpiderMonkey.Json.ParserMeaning
import SpiderMonkey.Json.ParserSound
import SpiderMonkey.Lib.Unicode
import SpiderMonkey.Vm.Uri
import SpiderMonkey.Vm.UriOctets
import SpiderMonkey.Vm.UriSound
import SpiderMonkey.Frontend.SourceNotes
import SpiderMonkey.Frontend.BytecodeEmitter
import SpiderMonkey.Frontend.SourceNoteBytes
import SpiderMonkey.Frontend.SourceNoteCells
import SpiderMonkey.Frontend.SourceNoteRuns
import SpiderMonkey.Frontend.SourceNotesSound
import SpiderMonkey.Frontend.SourceCoords
import SpiderMonkey.Frontend.SourceCoordsSound
import SpiderMonkey.Frontend.SourceCoordsRuns
import SpiderMonkey.Lib.Occurrence
import SpiderMonkey.Vm.StringMatch
import SpiderMonkey.Vm.StringMatchSound
import SpiderMonkey.Vm.StringReplace
import SpiderMonkey.Vm.StringReplaceLeaves
import SpiderMonkey.Vm.StringReplaceSound
import SpiderMonkey.Vm.StringSearch
import SpiderMonkey.Vm.StringSearchSound
import SpiderMonkey.Vm.RegExpShared
import SpiderMonkey.Vm.RegExpReplace
import SpiderMonkey.Vm.RegExpSubstitution
import SpiderMonkey.Vm.RegExpReplaceScans
import SpiderMonkey.Vm.RegExpReplaceSound
import SpiderMonkey.Vm.RegExpReplaceRemove
import SpiderMonkey.Vm.RegExpReplaceStatics
import SpiderMonkey.Lib.Splitting
import SpiderMonkey.Vm.StringSplit
import SpiderMonkey.Vm.StringSplitSound
import SpiderMonkey.Ds.LifoAlloc
import SpiderMonkey.Ds.LifoAllocInv
import SpiderMonkey.Ds.LifoAllocChunks
import SpiderMonkey.Ds.LifoAllocGrow
import SpiderMonkey.Ds.LifoAllocAlloc
import SpiderMonkey.Ds.LifoAllocTransfer
import SpiderMonkey.Ds.LifoAllocSound
import SpiderMonkey.Lib.StableSort
import SpiderMonkey.Ds.Sort
import SpiderMonkey.Ds.SortSound
import SpiderMonkey.Ds.SortOrder
import SpiderMonkey.Vm.ArraySort
import SpiderMonkey.Vm.ArraySortByKey
import SpiderMonkey.Vm.ArraySortStrings
import SpiderMonkey.Vm.ArraySortDigits
import SpiderMonkey.Vm.ArraySortSound
import SpiderMonkey.Vm.ArraySortNumbers
import SpiderMonkey.Vm.ArrayConcat
import SpiderMonkey.Vm.ArrayConcatSound
import SpiderMonkey.Lib.BackLinked
import SpiderMonkey.Vm.SparseElements
import SpiderMonkey.Vm.SparseElementsDictionary
import SpiderMonkey.Vm.SparseElementsObjects
import SpiderMonkey.Vm.SparseElementsSound
import SpiderMonkey.Vm.IndexStrings
import SpiderMonkey.Vm.EscapedString
import SpiderMonkey.Vm.EscapedStringSound
import SpiderMonkey.Vm.Escape
import SpiderMonkey.Vm.EscapeSound
import SpiderMonkey.Vm.CharacterEncodingEncode
import SpiderMonkey.Jit.RangeBitsSound
import SpiderMonkey.Jit.MoveGroup
import SpiderMonkey.Ds.SortCellsSound
import SpiderMonkey.Lib.NodeTree
import SpiderMonkey.Ds.SplayTreeSound
import SpiderMonkey.Ds.InlineMapSound
import SpiderMonkey.Jit.LiveInterval
import SpiderMonkey.Jit.LiveIntervalSound
import SpiderMonkey.Jit.RangeInvariantsSound
import SpiderMonkey.Jit.BetaNodesSound
import SpiderMonkey.Jit.FoldingSound
import SpiderMonkey.Ds.PriorityQueue
import SpiderMonkey.Vm.NumericConversions
import SpiderMonkey.Vm.DateCalendar
import SpiderMonkey.Vm.PrefixIntegerSound
import SpiderMonkey.Jit.RangeModulus
import SpiderMonkey.Jit.MoveEmitterSound
import SpiderMonkey.Vm.DateRoundTrip
import SpiderMonkey.Jit.SplitIntervalSound
import SpiderMonkey.Jit.PCMapping
