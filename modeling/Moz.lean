import Moz.Lib.LittleEndian
import Moz.Compiler.Expression
import Moz.Compiler.Ir
import Moz.Compiler.Block
import Moz.Compiler.Lowering
import Moz.Compiler.Module
import Moz.Compiler.Linking
import Moz.Lib.RefCount
import Moz.Node.Heap
import Moz.Node.Ownership
import Moz.Libnez.Ast
import Moz.Libnez.AstCommit
import Moz.Libnez.AstTransaction
import Moz.Libnez.Memo
import Moz.Libnez.Symtable
import Moz.Runtime
import Moz.Vm2.Instruction
import Moz.Vm2.Machine
import Moz.Lib.FrameStack
import Moz.Vm2.Control
import Moz.Vm1.Instruction
import Moz.Vm1.Machine
import Moz.Vm1.Choice
import Moz.Vm1.Failure
import Moz.Lib.Peg
import Moz.Compiler.Exec
import Moz.Compiler.Layout
import Moz.Compiler.Emission
import Moz.Compiler.Placement
import Moz.Compiler.Walk
import Moz.Libnez.SymbolScope
import Moz.Vm1.Bytes
import Moz.Compiler.Coverage
import Moz.Compiler.Optimize
import Moz.Libnez.AstTree
import Moz.Lib.StackUse
import Moz.Vm2.StackUse
import Moz.Vm1.StackUse
import Moz.StackBounds
import Moz.Vm2.InputBounds
import Moz.Vm2.Module
import Moz.Node.Counting
import Moz.Libnez.NodeOwners
import Moz.Bytecode.Opcode
import Moz.Bytecode.File
import Moz.Bytecode.Load
import Moz.Bytecode.Reading
import Moz.Bytecode.Emission
import Moz.Bytecode.FirstPass
import Moz.Bytecode.SecondPass
import Moz.Bytecode.Loading
import Moz.Bytecode.Listing
import Moz.Vm1.Relocation
import Moz.Bytecode.Decoding
import Moz.Bytecode.Dispatch
import Moz.Bytecode.Simulation
import Moz.Lib.Simulation
import Moz.Bytecode.Refinement
import Moz.Bytecode.Equivalence
import Moz.Bytecode.JumpTables
import Moz.Compiler.Interning
import Moz.Libnez.MemoHits
import Moz.Lib.Interning
import Moz.Compiler.Literals
import Moz.Compiler.Meaning
import Moz.Compiler.Classes
import Moz.Compiler.Merging
import Moz.Compiler.Rewriting
import Moz.Compiler.Sequences
import Moz.Compiler.Rounds
import Moz.Lib.Progress
import Moz.Compiler.AstHeap
import Moz.Compiler.AstRelease
import Moz.Compiler.Unused
import Moz.Lib.Logged
import Moz.Compiler.AstOptimize
import Moz.Compiler.AstBuild
import Moz.Compiler.AstCounts
import Moz.Compiler.AstPath
import Moz.Compiler.AstRules
import Moz.Compiler.AstRewrites
import Moz.Compiler.AstSequences
import Moz.Compiler.AstPasses
import Moz.Compiler.AstConstruction
import Moz.Compiler.AstLifetime
import Moz.Compiler.AstRuns
import Moz.Libnez.NodeLayers
import Moz.Lib.Layered
import Moz.Libnez.LogRuns
import Moz.Libnez.Unlabel
import Moz.Libnez.LastLinked
import Moz.Libnez.ParsedNode
import Moz.Bytecode.PatchWalk
import Moz.Lib.Sweep
import Moz.Vm2.Format
import Moz.Compiler.Defaults
import Moz.Compiler.Specialised
import Moz.Compiler.Wiring
import Moz.Compiler.OptimizeEnds
import Moz.Compiler.Closing
import Moz.Compiler.GraphSteps
import Moz.Compiler.GraphRuns
import Moz.Core.Capacity
import Moz.Core.Karray
import Moz.Core.ArrayLists
import Moz.Core.Buffer
import Moz.Node.Entry
import Moz.Node.Pool
import Moz.Lib.Linked
import Moz.Compiler.Dump
import Moz.Libnez.MemoSize
import Moz.Core.Pstring
import Moz.Node.Above
import Moz.Libnez.LogAbove
import Moz.Vm1.Written
import Moz.Vm1.MainLoop
import Moz.Compiler.WalkRuns
import Moz.Compiler.CleanWalks
import Moz.Compiler.Pools
import Moz.Compiler.Predictive
import Moz.Compiler.GraphExec
import Moz.Compiler.Overflow
import Moz.Vm2.Blocks
import Moz.Vm2.Parses
import Moz.Lib.Cascade
import Moz.Compiler.CallResults
import Moz.Compiler.SavedPositions
import Moz.Compiler.PositionStacks
import Moz.Compiler.PairedPositions
import Moz.Compiler.AttemptLogs
