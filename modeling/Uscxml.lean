import Uscxml.FastMicroStep.LegalConfiguration
import Uscxml.FastMicroStep.History
import Uscxml.FastMicroStep.Preemption
import Uscxml.FastMicroStep.DoneEvents
import Uscxml.FastMicroStep.Results
import Uscxml.ChartToC.Finals
import Uscxml.ChartToC.ParallelDone
import Uscxml.ChartToC.Sizes
import Uscxml.ChartToC.InitialData
import Uscxml.ChartToC.History
import Uscxml.Interpreter.QueueSerialization
import Uscxml.Interpreter.PausedQueue
import Uscxml.Interpreter.RunToCompletion
import Uscxml.Interpreter.InvokeIds
import Uscxml.Interpreter.DelayQueue
import Uscxml.Interpreter.DelayLocks
import Uscxml.Interpreter.Serialization
import Uscxml.Interpreter.ContentErrors
import Uscxml.Interpreter.Deserialization
import Uscxml.Messages.Stacks
import Uscxml.Messages.RoundTrip
import Uscxml.ChartToPromela.Queues
import Uscxml.ChartToPromela.IfBlocks
import Uscxml.ChartToPromela.Literals
import Uscxml.ChartToPromela.AdaptCode
import Uscxml.ChartToPromela.MacroNames
import Uscxml.ChartToPromela.EntrySet
import Uscxml.FastMicroStep.Completions
import Uscxml.FastMicroStep.Cache
import Uscxml.Interpreter.CacheFiles
import Uscxml.FastMicroStep.DefaultEntry
import Uscxml.FastMicroStep.Unreachable
import Uscxml.Lib.Trie
import Uscxml.Lib.Unions
import Uscxml.Configurations
import Uscxml.LegalCompletion
import Uscxml.Domains
import Uscxml.DefaultEntry
import Uscxml.EventTrie
import Uscxml.ChartToC.ElementInfo
import Uscxml.ChartToC.Runs
import Uscxml.ChartToVHDL.NextState
import Uscxml.ChartToVHDL.EventCodes
import Uscxml.ChartToVHDL.EventController
import Uscxml.ChartToPromela.Runs
import Uscxml.Debug.RedundantTransitions
import Uscxml.Debug.ValidCharts
import Uscxml.ChartToVHDL.Cycle
import Uscxml.EventDescriptors
import Uscxml.Messages.EventData
import Uscxml.Messages.DataOrder
import Uscxml.Debug.Breakpoint
import Uscxml.Promela.DataModel
import Uscxml.Promela.Faults
import Uscxml.Promela.OperandOrder
import Uscxml.Promela.Arrays
import Uscxml.IoProcessors.BasicHttp
import Uscxml.SendDelay
import Uscxml.Util.Strings
import Uscxml.Lib.Pieces
import Uscxml.Transform.Trie
import Uscxml.Util.Convenience
import Uscxml.ChartToC.BitTables
import Uscxml.Util.Dom
import Uscxml.Util.Traversal
import Uscxml.FastMicroStep.ResortStates
import Uscxml.Util.XPath
import Uscxml.ChartToC.FunctionNames
import Uscxml.Invokers.ScxmlThreads
import Uscxml.Interpreter.Resuming
