import MiniLang.Lib.SlotTable
import MiniLang.Lib.X86
import MiniLang.Syntax.Lexer
import MiniLang.Syntax.Parser
import MiniLang.Syntax.Grammar
import MiniLang.Syntax.ParserSound
import MiniLang.Syntax.ParserComplete
import MiniLang.Syntax.ParserExact
import MiniLang.Syntax.Lexing
import MiniLang.Bytecode.Compiler
import MiniLang.Machine.Vm
import MiniLang.Machine.VmRules
import MiniLang.Machine.Retuned
import MiniLang.Machine.Scalars
import MiniLang.Machine.StraightLine
import MiniLang.Machine.Eligibility
import MiniLang.Jit.Entry
import MiniLang.Jit.Equivalence
import MiniLang.Jit.MachineCode
import MiniLang.Jit.Operands
import MiniLang.Jit.Simulation
import MiniLang.Machine.VmFrames
import MiniLang.Machine.Unseen
import MiniLang.Machine.VmSafety
import MiniLang.Machine.Prediction
import MiniLang.Machine.Discipline
import MiniLang.Machine.VmTotality
import MiniLang.Machine.GcVm
import MiniLang.Machine.GcCollector
import MiniLang.Machine.GcHeap
import MiniLang.Machine.GcStatistics
import MiniLang.Machine.GcTotality
import MiniLang.Machine.GcRetuned
import MiniLang.Trace.Divergence
import MiniLang.Trace.Recording
import MiniLang.Trace.Runs
import MiniLang.Bytecode.Verifier
import MiniLang.Bytecode.Balance
import MiniLang.Bytecode.Effects
import MiniLang.Bytecode.Fixpoint
import MiniLang.Bytecode.FrontEnd
import MiniLang.Bytecode.FunctionLayout
import MiniLang.Bytecode.GlobalLayout
import MiniLang.Bytecode.Layout
import MiniLang.Bytecode.Linked
import MiniLang.Bytecode.DepthCheck
import MiniLang.Bytecode.CompileVerify
import MiniLang.Bytecode.Tracking
import MiniLang.Bytecode.Verified
import MiniLang.Sema.Analyzer
import MiniLang.Sema.WellFormed
import MiniLang.Sema.Expressions
import MiniLang.Sema.Statements
import MiniLang.Sema.Exactness
import MiniLang.Sema.Parsed
import MiniLang.Fuzz.Emit
import MiniLang.Fuzz.EmitTokens
import MiniLang.Fuzz.EmitProgram
import MiniLang.Fuzz.RoundTrip
import MiniLang.Bytecode.WideLoop
import MiniLang.Lib.BlockList
import MiniLang.Runtime.FreeList
import MiniLang.Runtime.FreeListLayout
import MiniLang.Runtime.FreeListRuns
import MiniLang.Runtime.Collector
import MiniLang.Runtime.CollectorRuns
import MiniLang.Runtime.Alignment
import MiniLang.Runtime.BumpAllocator
import MiniLang.Runtime.Collection
import MiniLang.Runtime.Rooting
import MiniLang.Runtime.SlabAllocator
import MiniLang.Syntax.Joined
import MiniLang.Session.Repl
import MiniLang.Session.Usable
import MiniLang.Machine.VmSteps
import MiniLang.Oracle.AstOracle
import MiniLang.Oracle.Simulation
import MiniLang.Oracle.Budget
import MiniLang.Oracle.Comparison
import MiniLang.Oracle.Variants
import MiniLang.Oracle.Correspondence
import MiniLang.Oracle.Expressions
import MiniLang.Oracle.Statements
import MiniLang.Oracle.Functions
import MiniLang.Oracle.Programs
import MiniLang.Oracle.Agreement
import MiniLang.Oracle.Disagreement
import MiniLang.Oracle.CallDepths
import MiniLang.Oracle.CycleLimits
import MiniLang.Lib.SelfDelimiting
import MiniLang.Trace.Fingerprint
import MiniLang.Lib.Json
import MiniLang.Trace.Export
import MiniLang.Fuzz.FailureFingerprint
import MiniLang.Syntax.LexerExact
import MiniLang.Lib.LongestChain
import MiniLang.Bytecode.CallGraph
import MiniLang.Machine.CallDepth
import MiniLang.Lib.FlowEquations
import MiniLang.Bytecode.FlowSolution
import MiniLang.Bytecode.Rebuilding
import MiniLang.Bytecode.Accesses
import MiniLang.Bytecode.SlotAgreement
import MiniLang.Lib.X86Frames
import MiniLang.Jit.FrameLayout
import MiniLang.Fuzz.ShrinkCandidates
import MiniLang.Fuzz.Shrinker
import MiniLang.Oracle.CallFree
import MiniLang.Lib.Worklist
import MiniLang.Optimizer.DeadCode
import MiniLang.Lib.Peephole
import MiniLang.Optimizer.Compacted
import MiniLang.Optimizer.Passes
import MiniLang.Lib.Coupling
import MiniLang.Lib.FlatMemory
import MiniLang.Lib.FlowTyping
import MiniLang.Machine.ValueVm
import MiniLang.Machine.ValueRules
import MiniLang.Machine.ValueStore
import MiniLang.Machine.Preflight
import MiniLang.Machine.FlatValues
import MiniLang.Machine.FlatRuns
import MiniLang.Machine.GcRules
import MiniLang.Machine.HeapStore
import MiniLang.Machine.HeapValues
import MiniLang.Machine.HeapRuns
import MiniLang.Machine.Shapes
import MiniLang.Machine.ShapedCode
import MiniLang.Machine.ShapedPrograms
import MiniLang.Machine.ShapeRules
import MiniLang.Machine.ShapedRuns
import MiniLang.Machine.BackendsAgree
import MiniLang.Machine.ReachedStates
import MiniLang.Optimizer.Operands
import MiniLang.Optimizer.Patterns
import MiniLang.Machine.Relocated
import MiniLang.Optimizer.Rewritten
import MiniLang.Optimizer.Optimized
import MiniLang.Audit.Compare
import MiniLang.Audit.OracleReport
