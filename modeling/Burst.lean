import Burst.Lib.LittleEndian
import Burst.Lib.TaggedFields
import Burst.Lib.CheckedRead
import Burst.Lib.PrefixFree
import Burst.Lib.Tiling
import Burst.Lib.TileRuns
import Burst.Lib.Slices
import Burst.Lib.Codecs
import Burst.Lib.Incremental
import Burst.Lib.Transition
import Burst.Lib.WorkPool
import Burst.Lib.PathResolution
import Burst.Lib.InFlight
import Burst.Lib.Buckets
import Burst.Lib.Preorder
import Burst.Lib.Interleaving
import Burst.Lib.PositionedWrites
import Burst.ZipStructures
import Burst.WriteBuffer
import Burst.BufferedWrites
import Burst.Alignment
import Burst.ZipRecords
import Burst.Writer
import Burst.Layout
import Burst.LayoutRefinement
import Burst.Finalize
import Burst.LayoutAlignment
import Burst.FaultyOutput
import Burst.SizeLaw
import Burst.CentralDirParser
import Burst.ExtraFields
import Burst.CentralDirRoundTrip
import Burst.DirectoryScan
import Burst.PartMap
import Burst.PartMapArrays
import Burst.ContinuingFile
import Burst.BoundaryDetection
import Burst.CentralDirParse
import Burst.EocdSoundness
import Burst.FullParse
import Burst.FrameParser
import Burst.FileOps
import Burst.FileEffects
import Burst.StreamProcessor
import Burst.StreamLoop
import Burst.StreamStability
import Burst.StreamChunking
import Burst.LoopTermination
import Burst.StickyErrors
import Burst.CheckedStream
import Burst.StreamBounds
import Burst.WrittenBytes
import Burst.StreamCompleteness
import Burst.BodySegments
import Burst.DownloadCoordinator
import Burst.DownloadExactlyOnce
import Burst.EarlyQueue
import Burst.HybridCoordinator
import Burst.HybridSafety
import Burst.CdRangeFetch
import Burst.InFlightAccounting
import Burst.FailFast
import Burst.TailParse
import Burst.PartialCentralDir
import Burst.CdFetch
import Burst.CdAssembly
import Burst.MarkerArchive
import Burst.EarlyQueueSound
import Burst.BodyGrammar
import Burst.HeaderPairing
import Burst.ItemFrames
import Burst.FrameLengths
import Burst.PaddingPlacement
import Burst.PartCompleteness
import Burst.WholeExtraction
import Burst.OutputPaths
import Burst.Containment
import Burst.FileRuns
import Burst.FileOrigins
import Burst.PlainNames
import Burst.FileDataRun
import Burst.StartOfPartOffsets
import Burst.Reader
import Burst.ObligingSystem
import Burst.ReaderRefinement
import Burst.PartExtraction
import Burst.ArchiveReading
import Burst.PartReading
import Burst.PartResults
import Burst.ExtractedTree
import Burst.FileTree
import Burst.ReaderDeeds
import Burst.RoundTrip
import Burst.RestoredStatus
import Burst.AccessRights
import Burst.EntryProcessor
import Burst.ArchiveCreation
import Burst.NoPartLost
import Burst.Lib.FormattedText
import Burst.Requests
import Burst.CdRangeBuffers
import Burst.Downloader
import Burst.DownloadedTree
import Burst.ArchivedTree
import Burst.SurvivingEntries
import Burst.FedSlices
import Burst.WriteRanges
import Burst.Misreading
import Burst.OrderIndependence
