import DistStorage.Query.Rules
import DistStorage.Logic.Kleene
import DistStorage.Digraph.Evaluation
import DistStorage.Transition.Run
import DistStorage.Query.RuleValue
import DistStorage.Query.Coherent
import DistStorage.Parse.CompiledGraph
import DistStorage.Parse.SqlExpr
import DistStorage.Parse.CompiledExpression
import DistStorage.Parse.QueryErrors
import DistStorage.Cpp.Action
import DistStorage.Numeration.Stride
import DistStorage.Storage.IdxSortStatic
import DistStorage.Storage.StageLayout
import DistStorage.Storage.FindIdxRange
import DistStorage.Grpc.BasicHandler
import DistStorage.Proto.Message
import DistStorage.Peer.Store
import DistStorage.Message.Session
import DistStorage.Message.StreamServer
import DistStorage.Message.StreamStep
import DistStorage.Message.SessionStep
import DistStorage.Message.StreamOrder
import DistStorage.Message.StreamQueue
import DistStorage.Transition.Chronicle
import DistStorage.Transition.Defined
import DistStorage.Message.StreamTrust
import DistStorage.Message.StreamReplay
import DistStorage.Message.StreamRegistry
import DistStorage.Utils.PollEngine
import DistStorage.Grpc.SslEndpoint
import DistStorage.Grpc.SslReads
import DistStorage.Peer.Signing
import DistStorage.ObjStore.Isolation
import DistStorage.Grpc.HolePunchPath
import DistStorage.Grpc.ConnectEngine
import DistStorage.Query.DataFrames
import DistStorage.Cpp.Sort
import DistStorage.Digraph.Traversal
import DistStorage.Query.Visited
import DistStorage.Query.Renumbered
import DistStorage.Storage.Block
import DistStorage.ResourceGuard.LimitSession
import DistStorage.Grpc.Acceptors
import DistStorage.Net.RandomPort
import DistStorage.Grpc.Resolver
import DistStorage.Grpc.ResolverShutdown
import DistStorage.Grpc.SilentResolver
import DistStorage.Grpc.Signaling
import DistStorage.Query.NodeNames
import DistStorage.Parse.ShownNames
import DistStorage.Query.RuleFailure
import DistStorage.Query.NumericValue
import DistStorage.Message.SessionRun
import DistStorage.Message.SessionWrites
import DistStorage.Message.SessionFinish
import DistStorage.Cpp.Trace
import DistStorage.Parse.Events
import DistStorage.Query.AddedNodes
import DistStorage.Parse.Steps
import DistStorage.Parse.Traced
import DistStorage.Parse.SilentExpressions
import DistStorage.Parse.SelectScope
import DistStorage.Parse.SelectCount
import DistStorage.Parse.TableLookup
import DistStorage.Posix.Outcomes
import DistStorage.ObjStore.FailedWrite
import DistStorage.ObjStore.Answered
import DistStorage.ObjStore.Digest
import DistStorage.Numeration.CappedPowers
import DistStorage.Net.PunchTimeouts
import DistStorage.Net.PunchInvariant
import DistStorage.Grpc.PunchCompletion
import DistStorage.Grpc.Listeners
import DistStorage.Grpc.IncomingPunch
import DistStorage.Grpc.PunchThread
import DistStorage.Grpc.PunchLoop
import DistStorage.Grpc.MessagePaths
import DistStorage.Cpp.Text
import DistStorage.Grpc.PeerUri
import DistStorage.Peer.TrustThreads
import DistStorage.Parse.FirstNode
import DistStorage.Parse.ConstantMark
import DistStorage.Parse.KeptNames
import DistStorage.Parse.StarColumns
import DistStorage.Parse.StringLiterals
import DistStorage.Cpp.Logged
import DistStorage.Storage.IdxHashDynamic
import DistStorage.Storage.BlockCopy
import DistStorage.Numeration.HornerFold
import DistStorage.Query.NodeHashes
import DistStorage.Query.HashChanges
import DistStorage.Storage.StagePositions
import DistStorage.Storage.SearchCalls
import DistStorage.Trees.Rotation
import DistStorage.Storage.IdxSortDynamic
import DistStorage.Storage.BlockLife
import DistStorage.Utils.PollBatches
import DistStorage.Utils.Cache
import DistStorage.Utils.CacheIndexes
import DistStorage.Utils.TaskRunner
import DistStorage.Utils.TrackRef
import DistStorage.Utils.TrackRefRelease
import DistStorage.Utils.TrackRefRuns
import DistStorage.Query.PulledFrames
import DistStorage.Query.VisitCalls
import DistStorage.Query.EdgeLists
import DistStorage.Query.PrintGraph
import DistStorage.Parse.PrintedQuery
import DistStorage.Query.Pruned
import DistStorage.Query.TermRewriting
import DistStorage.Utils.TaskLimits
import DistStorage.Message.StreamCounts
import DistStorage.Parse.Arities
import DistStorage.Parse.PlannedExpression
import DistStorage.Utils.Guards
import DistStorage.Cpp.Lines
import DistStorage.Parse.ErrorDisplay
