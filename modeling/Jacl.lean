import Jacl.Segments
import Jacl.RrbVec
import Jacl.RrbVecInvariant
import Jacl.RrbVecPush
import Jacl.RrbVecConcat
import Jacl.RrbVecRuns
import Jacl.Sparse
import Jacl.Entrywise
import Jacl.Hamt
import Jacl.HamtInvariant
import Jacl.HamtUpdate
import Jacl.HamtUnset
import Jacl.HamtStore
import Jacl.HamtStoreRefines
import Jacl.HamtRefinement
import Jacl.BigIntMagnitude
import Jacl.ValueEqual
import Jacl.IntTower
import Jacl.IntTowerExact
import Jacl.ValueClosed
import Jacl.Bytes
import Jacl.Wire
import Jacl.Collections
import Jacl.KeyConsistency
import Jacl.LinkLists
import Jacl.ResourcePools
import Jacl.Sched
import Jacl.SchedContext
import Jacl.SchedDelivery
import Jacl.SharedCellsRuns
import Jacl.SchedStacks
import Jacl.WireDecode
import Jacl.WireRoundTrip
import Jacl.SchedParallel
import Jacl.Timeouts
import Jacl.ChannelStream
import Jacl.PipelineRuns
import Jacl.Printing
import Jacl.SynWireRoundTrip
import Jacl.ReplUnitsReclaim
import Jacl.MacrosExpansion
import Jacl.ReplSessionSees
import Jacl.TranscriptRuns
import Jacl.TranscriptPicks
import Jacl.GensymFresh
import Jacl.Generators
import Jacl.GeneratorRuns
import Jacl.IrUnits
import Jacl.IrIntern
import Jacl.IrInternExact
import Jacl.SumTreeHeight
import Jacl.RopeLeaves
import Jacl.RegexSets
import Jacl.HeapAllocRuns
import Jacl.StringsIntern
import Jacl.BigIntDivideExact
import Jacl.RegexPrefilter
import Jacl.GraphemeRules
import Jacl.InternTableRuns
import Jacl.NfdNormal
import Jacl.Utf8Validity
import Jacl.Ranges
import Jacl.NumericCasts
import Jacl.FlatBuffers
import Jacl.FlatBufferCells
import Jacl.Arrays
import Jacl.ArrayRuns
import Jacl.Snapshots
import Jacl.SnapshotsExact
import Jacl.HamtIterator
import Jacl.RrbVecEdit
import Jacl.RrbVecLeaves
import Jacl.RrbVecPop
import Jacl.RrbVecSlice
import Jacl.RrbVecEditRuns
import Jacl.HeapSort
import Jacl.SegArray
import Jacl.SegArraySort
import Jacl.SegArrayRuns
import Jacl.Bignum
import Jacl.BignumExact
import Jacl.BignumShifts
import Jacl.BignumProducts
import Jacl.BignumDivide
import Jacl.BignumDivideExact
import Jacl.BignumGcd
import Jacl.Numerals
import Jacl.BignumStrings
import Jacl.BignumPrint
import Jacl.BignumParse
import Jacl.Bigfloat
import Jacl.DyadicNumbers
import Jacl.BigfloatOrder
import Jacl.LexerTokens
import Jacl.LexerNumbers
import Jacl.LexerLiterals
import Jacl.ChaseLevRuns
import Jacl.QuiesceRuns
import Jacl.Marking
import Jacl.HeapMark
import Jacl.HeapMarkExact
