import Klee.Expr.Basic
import Klee.Expr.Eval
import Klee.Expr.Constant
import Klee.Expr.Create
import Klee.Expr.Denotes
import Klee.Expr.Sound.Logic
import Klee.Expr.Sound.Linear
import Klee.Expr.Sound.Arith
import Klee.Expr.Sound.Structure
import Klee.Expr.CreateSpec
import Klee.Expr.Weight
import Klee.Expr.WeightBound
import Klee.Expr.Visitor
import Klee.Expr.Constraints
import Klee.Expr.ConstraintsSound
import Klee.Core.AddressSpace
import Klee.Core.AddressSpaceIsolation
import Klee.Core.ObjectState
import Klee.Core.ObjectStateRep
import Klee.Core.ByteMemory
import Klee.Core.ObjectStateBytes
import Klee.Core.ObjectStateSpec
import Klee.Expr.FindReads
import Klee.Solver.IndependentElementSet
import Klee.Solver.IndependentSolver
import Klee.Solver.IndependentSolverSound
import Klee.Solver.IndependentFactors
import Klee.Solver.InitialValues
import Klee.Core.Executor
import Klee.Core.Fork
import Klee.Core.ExecutorSpec
import Klee.Core.ForkSpec
import Klee.Core.ForkPartition
import Klee.Core.BranchSpec
import Klee.Core.PathHistory
import Klee.Core.PathStreams
import Klee.Core.IndirectCall
import Klee.Core.ExternalCall
import Klee.Core.ObjectStateContents
import Klee.Core.ExternalCallSpec
import Klee.Core.MergeHandler
import Klee.Core.MergeHandlerSpec
import Klee.Core.MergeRun
import Klee.Core.MergeAccounting
import Klee.Support.TreeStreamRun
import Klee.Solver.CachingSolver
import Klee.Solver.ArraySymbols
import Klee.Core.MemoryManager
import Klee.Expr.SymbolicObjects
import Klee.Solver.SolverStack
import Klee.Solver.CexCachingSolver
import Klee.Solver.CexCachingSound
import Klee.Solver.SolverChain
import Klee.Solver.SolverFailure
import Klee.Solver.SolverFailureRun
import Klee.Runtime.Fd
import Klee.Runtime.FdSpec
import Klee.Runtime.FdRun
import Klee.Expr.ExprBuilder
import Klee.Lib.Fuel
import Klee.Expr.ExprBuilderSound
import Klee.Expr.BuilderStacks
import Klee.Expr.Compare
import Klee.Expr.CompareSpec
import Klee.Expr.CompareMemo
import Klee.Solver.CanonicalQuery
import Klee.Solver.CachingReuse
import Klee.Solver.CexCachingTruth
import Klee.Solver.StagedSound
import Klee.Expr.ReadSpec
import Klee.Lib.BinarySearch
import Klee.Solver.Range
import Klee.Expr.EvaluatorRun
import Klee.Expr.EvaluatorSpec
import Klee.Lib.SmtTerm
import Klee.Solver.BuilderShifts
import Klee.Solver.BuilderShiftsSpec
import Klee.Lib.BitBounds
import Klee.Support.Bits
import Klee.Solver.ValueRange
import Klee.Solver.ValueRangeSpec
import Klee.Solver.ConstantDivision
import Klee.Solver.ConstantDivisionSpec
import Klee.Lib.Reciprocal
import Klee.Solver.BuilderArith
import Klee.Solver.BuilderArithSpec
import Klee.Lib.KeyedMap
import Klee.Support.ImmutableTreeHeap
import Klee.Support.ImmutableTreeSpec
import Klee.Support.ImmutableTreeHeapSpec
import Klee.Support.ImmutableTreeRun
import Klee.Core.Resolve
import Klee.Core.ResolveSpec
import Klee.Support.MapOfSetsSearch
import Klee.Support.MapOfSetsSpec
import Klee.Support.ImmutableTreeIterator
import Klee.Support.ImmutableTreeIteratorSpec
import Klee.Core.ImpliedValue
import Klee.Lib.Zipper
import Klee.Support.DiscretePDF
import Klee.Core.SeedPatching
import Klee.Support.DiscretePDFHeap
import Klee.Support.DiscretePDFFixup
import Klee.Support.DiscretePDFSearch
import Klee.Support.DiscretePDFInsert
import Klee.Lib.RedBlack
import Klee.Support.DiscretePDFBalance
import Klee.Basic.KTest
import Klee.Core.InterProcCFG
import Klee.Core.IterativeDeepening
import Klee.Core.PTreeHeap
import Klee.Core.PTreeHeapSpec
import Klee.Core.BranchStates
import Klee.Core.FlushToStore
import Klee.Core.Switch
import Klee.Core.SwitchSpec
import Klee.Core.IndirectBr
import Klee.Core.ForkSides
import Klee.Core.MakeSymbolic
import Klee.Core.MakeSymbolicSpec
import Klee.Expr.NumberToken
import Klee.Learch.Score
import Klee.Core.AggregateValue
import Klee.Core.Distances
import Klee.Core.ExternalArgs
import Klee.Core.ReturnDistances
import Klee.Core.SymbolicSolution
import Klee.Core.UncoveredDistances
import Klee.Core.ConstantLayout
import Klee.Core.VarArgs
import Klee.Lib.Pointwise
import Klee.Lib.Redirect
import Klee.Module.ArithmeticIntrinsics
import Klee.Module.CallTarget
import Klee.Module.CallTargetSpec
import Klee.Module.Checks
import Klee.Module.FunctionAlias
import Klee.Module.FunctionAliasSpec
import Klee.Module.LinkModules
import Klee.Module.LowerSwitch
import Klee.Module.LowerSwitchSpec
import Klee.Module.PhiCleaner
import Klee.Module.PhiCleanerSpec
import Klee.Runtime.Getdents
import Klee.Runtime.InitEnv
import Klee.Runtime.InitEnvSpec
import Klee.Core.CallPathManager
import Klee.Core.CallPathManagerSpec
import Klee.Core.ReplayPath
import Klee.Expr.SymbolicObjectFinder
import Klee.Support.TimeSpan
import Klee.Runtime.FailingCalls
import Klee.Runtime.Select
import Klee.Runtime.SelectSpec
import Klee.Core.SearcherChain
import Klee.Core.SearcherChainSpec
import Klee.Core.SearchRun
import Klee.Solver.Z3Solver
