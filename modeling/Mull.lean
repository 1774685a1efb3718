import Mull.Lib.ParentForest
import Mull.Lib.QueueWalk
import Mull.Lib.MachineInt
import Mull.Lib.FairRounds
import Mull.Lib.Naming
import Mull.Lib.StutterSimulation
import Mull.Lib.DecisionChain
import Mull.CallRecorder
import Mull.CallTreeBuilder
import Mull.Reachability
import Mull.TaskBatches
import Mull.Progress
import Mull.TaskExecutor
import Mull.ProgressProtocol
import Mull.ProcessSandbox
import Mull.OriginalTestExecution
import Mull.IR
import Mull.Callbacks
import Mull.CallbackRuns
import Mull.FunctionNumbering
import Mull.Mutators
import Mull.MutatorsFactory
import Mull.MutationPoint
import Mull.MutationsFinder
import Mull.LogicalMutators
import Mull.PhiNodes
import Mull.Schemata
import Mull.Semantics
import Mull.LogicalExpressions
import Mull.Trampolines
import Mull.SchemataLayout
import Mull.MutantSymbols
import Mull.ObjectCache
import Mull.ASTSearch
import Mull.JunkDetector
import Mull.CompilationDatabase
import Mull.Driver
import Mull.MutantExecution
import Mull.MutationAddresses
import Mull.RecordedForest
import Mull.Reporters
import Mull.FunctionsUnderTest
import Mull.EnabledKinds
import Mull.ASTTraversal
import Mull.ASTMutationStorage
import Mull.ScalarValueVisitor
import Mull.Lib.NestedRanges
import Mull.Lib.LexicalPath
import Mull.DeclarationIndex
import Mull.CompilationFlags
import Mull.Lib.CString
import Mull.Lib.LineTable
import Mull.SourceManager
import Mull.MutantPrinting
import Mull.PipeCapture
import Mull.GoogleTestFinder
import Mull.MutatorSelection
import Mull.CXXRuntimeOverrides
import Mull.Lib.LastMinimum
import Mull.InstructionRangeVisitor
import Mull.Lib.Memo
import Mull.FilePathFilter
import Mull.Lib.PageMap
import Mull.InstrumentationMemory
import Mull.InstrumentedBehaviour
import Mull.WatchdogSandbox
import Mull.MutationTesting
import Mull.CacheRuns
import Mull.UnreachedMutants
import Mull.MutationScore
import Mull.Lib.Relational
import Mull.SQLiteReporter
import Mull.TestFinders
import Mull.Lib.Words
import Mull.DynamicLibraries
