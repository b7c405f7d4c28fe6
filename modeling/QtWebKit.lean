import QtWebKit.Graphics.RegionAlgebra
import QtWebKit.Unicode.UTF8RoundTrip
import QtWebKit.WebSockets.FrameRoundTrip
import QtWebKit.ContentExtensions.BackendScan
import QtWebKit.ContentExtensions.DFABytecodeRefinement
import QtWebKit.IndexedDB.FailedPut
import QtWebKit.IndexedDB.RangeOperations
import QtWebKit.IndexedDB.VersionChangeAbort
import QtWebKit.IndexedDB.TransactionScheduler
import QtWebKit.MediaSource.Eviction
import QtWebKit.MediaSource.FrameRemoval
import QtWebKit.MediaSource.SequenceMode
import QtWebKit.Text.ChunkedDecoding
import QtWebKit.JSON.StrictJSON
import QtWebKit.ContentExtensions.TermAutomaton
import QtWebKit.B3.DivisionMagic
import QtWebKit.ContentExtensions.DFABytecodeJumps
import QtWebKit.ContentExtensions.URLFilterParser
import QtWebKit.JIT.ARM64Relink
import QtWebKit.JIT.ARMThumbImmediate
import QtWebKit.JIT.BinarySwitch
import QtWebKit.B3.LowerMacros
import QtWebKit.Air.AllocateStack
import QtWebKit.Air.FixObviousSpills
import QtWebKit.WTF.MediaTime
import QtWebKit.ImageDecoders.GIFInterlacing
import QtWebKit.Layout.LayoutUnit
import QtWebKit.DFG.IntegerCheckCombining
