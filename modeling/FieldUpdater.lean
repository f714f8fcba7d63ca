import FieldUpdater.Code.Opcode
import FieldUpdater.Code.Signature
import FieldUpdater.Code.SignatureBytes
import FieldUpdater.Code.ConstantPool
import FieldUpdater.Code.Instr
import FieldUpdater.Code.Flow
import FieldUpdater.Code.Arithmetic
import FieldUpdater.Code.Assembler
import FieldUpdater.Classes.Field
import FieldUpdater.Classes.Table
import FieldUpdater.Classes.Lineage
import FieldUpdater.Classes.Resolve
import FieldUpdater.Classes.Store
import FieldUpdater.Completion
import FieldUpdater.Accessor.Basic
import FieldUpdater.Accessor.Registry
import FieldUpdater.Accessor.Synthesis
import FieldUpdater.Accessor.Attempts
import FieldUpdater.Substitution.Settings
import FieldUpdater.Substitution.SettingsJson
import FieldUpdater.Substitution.Window
import FieldUpdater.Substitution.CallSite
import FieldUpdater.Substitution.Compile
import FieldUpdater.Substitution.Build
import FieldUpdater.Execution.Value
import FieldUpdater.Execution.Heap
import FieldUpdater.Execution.Machine
import FieldUpdater.Execution.Invoke
import FieldUpdater.Proofs.Assembler.Operations
import FieldUpdater.Proofs.Compile.Layout
import FieldUpdater.Proofs.Accessors.Synthesis
import FieldUpdater.Proofs.Compile.Run
import FieldUpdater.Proofs.Compile.Method
import FieldUpdater.Proofs.Execution.Fuel
import FieldUpdater.Proofs.Execution.Jumps
import FieldUpdater.Proofs.Execution.SourceMachine
import FieldUpdater.Proofs.Execution.Preservation
import FieldUpdater.Proofs.Classes.Reachable
import FieldUpdater.Proofs.Classes.Slots
import FieldUpdater.Proofs.Accessors.History
import FieldUpdater.Proofs.Execution.Operations
import FieldUpdater.Proofs.Execution.Refinement
import FieldUpdater.Proofs.Execution.Calls
import FieldUpdater.Proofs.Sessions.Basic
import FieldUpdater.Proofs.Sessions.Completion
import FieldUpdater.Proofs.Compile.Operands
import FieldUpdater.Proofs.Compile.Overflow
import FieldUpdater.Proofs.Compile.Depth
import FieldUpdater.Proofs.Classes.Types
import FieldUpdater.Proofs.Compile.Steady
import FieldUpdater.Proofs.Compile.Eligible
import FieldUpdater.Proofs.Sessions.Memoization
import FieldUpdater.Proofs.Compile.Relocation
import FieldUpdater.Proofs.Assembler.Alike
import FieldUpdater.Proofs.Compile.Recompile
import FieldUpdater.Proofs.Accessors.Additions
import FieldUpdater.Proofs.Accessors.Names
import FieldUpdater.Proofs.Compile.Lockstep
import FieldUpdater.Proofs.Compile.Order
import FieldUpdater.Proofs.Classes.Hierarchy
import FieldUpdater.Proofs.Classes.Occupancy
import FieldUpdater.Proofs.Execution.ObjectLayout
import FieldUpdater.Proofs.Execution.Effects
import FieldUpdater.Proofs.Execution.TypeSafety
import FieldUpdater.Proofs.Accessors.Finishing
import FieldUpdater.Proofs.Sessions.Finishing
import FieldUpdater.Proofs.Compile.Coverage
import FieldUpdater.Proofs.Assembler.Linking
import FieldUpdater.Proofs.Compile.Arguments
import FieldUpdater.Proofs.Compile.Switch
import FieldUpdater.Proofs.Compile.Rewriting
import FieldUpdater.Proofs.Execution.ValueHeap
import FieldUpdater.Proofs.Execution.StackEffect
import FieldUpdater.Proofs.Execution.StackDepth
import FieldUpdater.Proofs.Compile.Repetition
import FieldUpdater.Proofs.Sessions.Repetition
import FieldUpdater.Proofs.Flow.Reachability
import FieldUpdater.Proofs.Flow.Paths
import FieldUpdater.Proofs.Signatures.Grammar
import FieldUpdater.Proofs.Signatures.Viability
import FieldUpdater.Proofs.Signatures.Bytes
import FieldUpdater.Proofs.Signatures.Errors
import FieldUpdater.Proofs.Assembler.Positions
import FieldUpdater.Proofs.Assembler.DepthHistory
import FieldUpdater.Proofs.Accessors.Attempts
import FieldUpdater.Proofs.Accessors.Atomicity
import FieldUpdater.Proofs.Accessors.Identity
import FieldUpdater.Proofs.Accessors.Creators
import FieldUpdater.Proofs.Execution.StackTable
import FieldUpdater.Proofs.Compile.CallArguments
import FieldUpdater.Proofs.Classes.Store
import FieldUpdater.Proofs.Sessions.BaseTypes
import FieldUpdater.Proofs.Execution.WordImage
import FieldUpdater.Proofs.Classes.Ancestry
import FieldUpdater.Proofs.Assembler.Overflow
import FieldUpdater.Proofs.Compile.DepthRange
