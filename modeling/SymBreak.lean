import SymBreak.Lib.Loop
import SymBreak.Lib.Lex
import SymBreak.Lib.Cnf
import SymBreak.Lib.ModelCount
import SymBreak.Lib.Backtrack
import SymBreak.Lib.Hamilton
import SymBreak.Lib.PathSearch
import SymBreak.Lib.Resume
import SymBreak.Lib.Branch
import SymBreak.Lib.Swap
import SymBreak.Lib.Declare
import SymBreak.Lib.Implication
import SymBreak.Matrix
import SymBreak.MatrixAction
import SymBreak.Graph
import SymBreak.GraphReaderWriter
import SymBreak.ConstraintSolver
import SymBreak.Posting
import SymBreak.Connectives
import SymBreak.Isomorphism
import SymBreak.IsoModel
import SymBreak.LexPosting
import SymBreak.SolverRun
import SymBreak.CountSolutions
import SymBreak.LexOrder
import SymBreak.AddedClauses
import SymBreak.OrReif
import SymBreak.Mtl.Sort
import SymBreak.Mtl.Heap
import SymBreak.Glucose.SolverTypes
import SymBreak.Glucose.BoundedQueue
import SymBreak.Glucose.Trail
import SymBreak.Glucose.ClauseDb
import SymBreak.Glucose.Solver
import SymBreak.Glucose.Invariant
import SymBreak.Glucose.Propagate
import SymBreak.Glucose.UnitPropagation
import SymBreak.Glucose.Analyze
import SymBreak.Glucose.Minimise
import SymBreak.Glucose.LearntClause
import SymBreak.Glucose.AnalyzeFinal
import SymBreak.Glucose.Backtrack
import SymBreak.Glucose.OrderHeap
import SymBreak.Glucose.Removal
import SymBreak.Glucose.Progress
import SymBreak.Glucose.AddClause
import SymBreak.Glucose.Search
import SymBreak.Glucose.SearchTurn
import SymBreak.Glucose.Termination
import SymBreak.Glucose.Solve
import SymBreak.Glucose.Runs
import SymBreak.Glucose.SearchRuns
import SymBreak.ParseUtils
import SymBreak.Dimacs
import SymBreak.NotLexLeader
import SymBreak.CounterexampleLoop
import SymBreak.CanonizingPermutationSetAlg
import SymBreak.Reducer
import SymBreak.Reduction
import SymBreak.ReducerProcess
import SymBreak.ReducerFiles
import SymBreak.ReducerHistory
import SymBreak.CanonizingLexImplicationsAlg
import SymBreak.LengthStep
import SymBreak.Canonizing
import SymBreak.Uhg.UnknownGraph
import SymBreak.Uhg.GraphClasses
import SymBreak.Uhg.Rules
import SymBreak.Uhg.Searches
import SymBreak.Uhg.EdgeSearch
import SymBreak.Uhg.StartSearch
import SymBreak.Uhg.Propagators
import SymBreak.Uhg.UHGSearch
import SymBreak.Uhg.SymmetryBreaking
import SymBreak.Uhg.PathEnds
import SymBreak.Uhg.Paths
import SymBreak.Uhg.PathsWithEdge
import SymBreak.Uhg.PathIterator
import SymBreak.Uhg.CycleArrays
import SymBreak.Uhg.SameCycle
import SymBreak.Uhg.PropAtMostOneCycle
import SymBreak.Uhg.OneCycleSearch
import SymBreak.Uhg.PropAtLeastOneCycle
import SymBreak.Uhg.RuleCalls
import SymBreak.Uhg.Constraints
import SymBreak.Uhg.Cases
import SymBreak.Uhg.NearlyCubic
import SymBreak.Uhg.Options
import SymBreak.Uhg.PropNoCycle
import SymBreak.Uhg.Girth
import SymBreak.Invariants.Bee
import SymBreak.Invariants.PairInvariants
import SymBreak.Invariants.Values
import SymBreak.Invariants.Solutions
import SymBreak.Invariants.Triangles
import SymBreak.Invariants.VertexInvariants
import SymBreak.Invariants.LeastLabelling
import SymBreak.Invariants.Lexstar
import SymBreak.Invariants.Generation
import SymBreak.Invariants.ShortestPaths
