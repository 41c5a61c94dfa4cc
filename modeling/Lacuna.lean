import Lacuna.Library.EarlyExit
import Lacuna.Library.ShadowRun
import Lacuna.Library.RunLength
import Lacuna.Library.GreedyRuns
import Lacuna.Library.LittleEndian
import Lacuna.Library.BitPacking
import Lacuna.Library.PriorityQueue
import Lacuna.Library.GreedyMerge
import Lacuna.Library.CodeTree
import Lacuna.Library.OptimalMerge
import Lacuna.Library.GreedyDepth
import Lacuna.Library.Entropy
import Lacuna.Library.EditDistance
import Lacuna.Library.Walks
import Lacuna.Library.Transitions
import Lacuna.Library.Utf8
import Lacuna.Library.JsonText
import Lacuna.Library.JsonLexer
import Lacuna.Library.JsonSpelling
import Lacuna.Library.RawJson
import Lacuna.Model.Stream
import Lacuna.Model.Compressor
import Lacuna.Model.Rle
import Lacuna.Model.HuffmanTree
import Lacuna.Model.Huffman
import Lacuna.Model.FileIo
import Lacuna.Model.Trial
import Lacuna.Model.Scan
import Lacuna.Model.Benchmark
import Lacuna.Model.Terminal
import Lacuna.Model.World
import Lacuna.Model.Command
import Lacuna.Model.Info
import Lacuna.Model.BenchmarkReport
import Lacuna.Model.Cli
import Lacuna.Model.Main
import Lacuna.Analysis.StreamLaws
import Lacuna.Analysis.OutputBuffer
import Lacuna.Analysis.RleCodec
import Lacuna.Analysis.HeaderCodec
import Lacuna.Analysis.TreeShape
import Lacuna.Analysis.BitStreams
import Lacuna.Analysis.BitCalls
import Lacuna.Analysis.HuffmanTable
import Lacuna.Analysis.HuffmanCodec
import Lacuna.Analysis.HuffmanDecode
import Lacuna.Analysis.Replay
import Lacuna.Analysis.Archive
import Lacuna.Analysis.Commands
import Lacuna.Analysis.EditTable
import Lacuna.Analysis.Suggestions
import Lacuna.Analysis.CommandLine
import Lacuna.Analysis.Program
import Lacuna.Analysis.Sessions
import Lacuna.Analysis.DirectoryScan
import Lacuna.Analysis.Totality
import Lacuna.Analysis.JsonReports
import Lacuna.Results.RoundTrip
import Lacuna.Results.HostileInput
import Lacuna.Results.Integrity
import Lacuna.Results.TableAgreement
import Lacuna.Results.FileSystem
import Lacuna.Results.StandardOutput
import Lacuna.Results.WriteFailures
import Lacuna.Results.Optimality
import Lacuna.Results.RleGrammar
import Lacuna.Results.SizeField
import Lacuna.Results.FailedWrites
import Lacuna.Results.Positions
import Lacuna.Results.TableCorruption
import Lacuna.Results.AutoSelection
import Lacuna.Results.DefaultNames
import Lacuna.Results.HeaderFormat
import Lacuna.Results.TreeInvariants
import Lacuna.Results.FillLoop
import Lacuna.Results.SpellingDistance
import Lacuna.Results.JsonOutput
import Lacuna.Results.OptionOrder
import Lacuna.Results.NamedTargets
import Lacuna.Results.DirectoryListing
import Lacuna.Results.BitRoundTrip
import Lacuna.Analysis.Shelf
import Lacuna.Results.Sessions
import Lacuna.Results.ExitStatus
import Lacuna.Results.CodeLengths
import Lacuna.Results.PayloadForms
import Lacuna.Results.Presentation
import Lacuna.Results.Portability
import Lacuna.Results.Streaming
import Lacuna.Results.Inspection
import Lacuna.Results.SizeLaws
import Lacuna.Results.ShortestArchives
import Lacuna.Results.BenchmarkRuns
