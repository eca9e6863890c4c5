import SoFCheck.Core.LegalMoves
import SoFCheck.Search.Enumeration
import SoFCheck.Search.JobRunner
import SoFCheck.BotApi.Alternation
import SoFCheck.Search.JobCommunicator
import SoFCheck.Search.Pickers
import SoFCheck.Search.TableKeys
import SoFCheck.Search.Reconfiguration
import SoFCheck.Search.TableRaces
import SoFCheck.Search.Aborts
import SoFCheck.BotApi.UciPosition
import SoFCheck.Core.Material
import SoFCheck.Gameset.RoundTrip
import SoFCheck.Eval.Incremental
import SoFCheck.Core.Counters
import SoFCheck.Search.Recursion
import SoFCheck.Search.CaptureFlag
import SoFCheck.Search.Checkmates
import SoFCheck.Search.Windows
import SoFCheck.BotApi.UciOptions
import SoFCheck.Gameset.CoreCalls
import SoFCheck.Search.RepetitionSet
import SoFCheck.Search.TableEpochs
import SoFCheck.Util.ArrayRuns
import SoFCheck.Search.UnwindPv
import SoFCheck.Util.SegmentCalls
import SoFCheck.Util.Ioutil
import SoFCheck.Util.WordWrap
import SoFCheck.Util.Lanes
import SoFCheck.Util.PortableBits
import SoFCheck.Util.Slots
import SoFCheck.Eval.Features
import SoFCheck.BotApi.UciGo
import SoFCheck.Search.Limits
import SoFCheck.Core.AttackSets
import SoFCheck.Core.CaptureCount
import SoFCheck.Search.PickerBuffer
import SoFCheck.Util.Sight
import SoFCheck.Core.QueenLines
import SoFCheck.Core.MoveLimit
import SoFCheck.Search.Deepening
import SoFCheck.Util.Queue
import SoFCheck.Eval.DatasetLines
import SoFCheck.Eval.FeatureExtractor
import SoFCheck.Eval.DatasetRuns
import SoFCheck.Util.Words
import SoFCheck.Eval.Bitboard
import SoFCheck.Util.Cache
import SoFCheck.Eval.Impl
import SoFCheck.Eval.Shipped
import SoFCheck.Eval.PawnCache
import SoFCheck.Eval.Simulation
import SoFCheck.Eval.Checked
import SoFCheck.Eval.Bounds
import SoFCheck.Eval.MirrorBoards
import SoFCheck.Eval.Mirror
import SoFCheck.Eval.Tuning
import SoFCheck.Util.Threads
import SoFCheck.Search.Evaluations
import SoFCheck.Search.Protocol
import SoFCheck.Search.RootMove
import SoFCheck.Eval.Costs
import SoFCheck.Search.JobRun
import SoFCheck.Search.Engine
import SoFCheck.Search.Iterations
import SoFCheck.Util.MultiplyShift
import SoFCheck.Core.MagicNumbers
import SoFCheck.Search.Linearization
