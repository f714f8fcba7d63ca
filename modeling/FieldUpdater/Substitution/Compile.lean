import FieldUpdater.Code.Signature
import FieldUpdater.Substitution.CallSite

/-!
# Compiling classes

Compiling a method assembles its instructions again, in order. A call of the
factory that can be replaced becomes the construction of an accessor; every other
instruction is kept. The stack effect of a kept call comes from its callee's
descriptor. Compilation stops at the first error; accessors made by then stay.
Depths are counted in checked arithmetic unless it is to wrap.
-/

namespace FieldUpdater

/-- Why a class cannot be compiled. -/
inductive CompileError where
  /-- A call names no method of the pool. -/
  | pool (source : PoolError)
  /-- The descriptor of a callee cannot be read. -/
  | signature (source : SignatureError)
  /-- Code cannot be assembled. -/
  | assembly (source : AssemblyError)
  /-- A call was to be replaced but could not be. -/
  | synthesis (source : SynthesisError)
  /-- A call has no index into the pool. -/
  | missingOperand (opcode : Opcode) (index : Nat)
  deriving DecidableEq

/-- The wording of a compilation error. -/
def CompileError.message : CompileError → String
  | .pool source => s!"Constant pool error: {source.message}"
  | .signature source => s!"Invalid descriptor: {source.message}"
  | .assembly source => s!"Emission failed: {source.message}"
  | .synthesis source => s!"Intrinsic failed: {source.message}"
  | .missingOperand opcode index =>
    s!"{opcode.mnemonic} at {index} has no constant pool operand"

/-- A method to compile. -/
structure SourceMethod where
  /-- The name of the method. -/
  name : String
  /-- The descriptor of the method. -/
  descriptor : String
  /-- The instructions. -/
  code : Array Instr
  /-- The exception handlers. -/
  handlers : List Handler := []

/-- A class to compile. -/
structure SourceClass where
  /-- The class. -/
  thisClass : ClassId
  /-- The constants of its code. -/
  pool : ConstantPool
  /-- The methods. -/
  methods : List SourceMethod

/-- A replaced call. -/
structure Site where
  /-- The index of the call in the source code. -/
  index : Nat
  /-- The class constructed in its place. -/
  accessor : ClassId
  deriving DecidableEq

/-- A compiled method. -/
structure CompiledMethod where
  /-- The assembled method. -/
  body : AssembledMethod
  /-- The replaced calls, in order. -/
  sites : Array Site
  deriving DecidableEq

/-- The number of replaced calls. -/
def CompiledMethod.applied (m : CompiledMethod) : Nat := m.sites.size

/-- A compiled class. -/
structure CompiledClass where
  /-- The class. -/
  thisClass : ClassId
  /-- The methods in order. -/
  methods : List CompiledMethod
  deriving DecidableEq

namespace CompiledClass

/-- The number of replaced calls in all methods. -/
def applied (c : CompiledClass) : Nat := c.methods.foldl (fun n m => n + m.applied) 0

/-- The first method of a name. -/
def method? (c : CompiledClass) (name : String) : Option CompiledMethod :=
  c.methods.find? fun m => m.body.name = name

end CompiledClass

/-- A method under compilation: the code assembled and the calls replaced so far. -/
structure Draft where
  /-- The assembled code. -/
  assembler : Assembler := {}
  /-- The replaced calls, in order. -/
  sites : Array Site := #[]

namespace Compile

/-- Begin a source instruction. The entry of a handler has the exception on the stack. -/
def enter (handlers : List Handler) (index : Nat) (a : Assembler) : Assembler :=
  let a := a.beginSource index
  if handlers.any fun h => h.entry = index then a.resetDepth 1 else a

/-- The assembled code after an instruction that has to be kept. -/
def kept : Except AssemblyError Unit × Assembler → Except CompileError Assembler
  | (.error err, _) => .error (.assembly err)
  | (.ok (), a) => .ok a

/-- How many operands a call takes: its arguments, and the receiver unless it is static. They are
counted in words. -/
def countOperands (mode : Arithmetic) (opcode : Opcode) (signature : Signature) :
    Except Overflow UInt16 :=
  mode.add signature.argCount.toUInt16 (if opcode = .invokestatic then 0 else 1)

/-- Keep a call. It takes its operands and leaves its result. -/
def keepCall (i : Instr) (callee : Callee) (a : Assembler) : Except CompileError Assembler :=
  match Signature.parse callee.descriptor with
  | .error err => .error (.signature err)
  | .ok signature =>
    match countOperands a.arithmetic i.opcode signature with
    | .error err => .error (.assembly (.overflow err))
    | .ok operands => kept (a.appendWith i operands (if signature.hasResult then 1 else 0))

/-- Keep an instruction that is no call. -/
def keepPlain (i : Instr) (a : Assembler) : Except CompileError Assembler := kept (a.append i)

/-- Compile one instruction of a method. -/
def instr (settings : Settings) (c : SourceClass) (m : SourceMethod) (flags : Array FlowFlags)
    (index : Nat) (i : Instr) (d : Draft) (space : Workspace) :
    Except CompileError Draft × Workspace :=
  let sites := d.sites
  let a := enter m.handlers index d.assembler
  let draft (result : Except CompileError Assembler) : Except CompileError Draft :=
    result.map fun a => ⟨a, sites⟩
  if i.opcode.isCall then
    match i.poolIndex? with
    | none => (.error (.missingOperand i.opcode index), space)
    | some constant =>
      match c.pool.callee constant with
      | .error err => (.error (.pool err), space)
      | .ok callee =>
        if settings.isCandidate i.opcode callee then
          let window : Window := ⟨c.thisClass, c.pool, m.code, flags, index⟩
          match window.substitute settings.baseType space a with
          | (.error err, space, _) => (.error (.synthesis err), space)
          | (.ok none, space, a) => (draft (keepCall i callee a), space)
          | (.ok (some accessor), space, a) =>
            (.ok ⟨a, sites.push ⟨index, accessor.classId⟩⟩, space)
        else (draft (keepCall i callee a), space)
  else (draft (keepPlain i a), space)

/-- Compile instructions that begin at an index of the source code. -/
def instrs (settings : Settings) (c : SourceClass) (m : SourceMethod) (flags : Array FlowFlags) :
    Nat → List Instr → Draft → Workspace → Except CompileError Draft × Workspace
  | _, [], d, space => (.ok d, space)
  | index, i :: is, d, space =>
    match instr settings c m flags index i d space with
    | (.error err, space) => (.error err, space)
    | (.ok d, space) => instrs settings c m flags (index + 1) is d space

/-- Compile a method. -/
def method (settings : Settings) (c : SourceClass) (m : SourceMethod) (space : Workspace)
    (mode : Arithmetic := .checked) : Except CompileError CompiledMethod × Workspace :=
  match instrs settings c m (Flow.flags m.code m.handlers) 0 m.code.toList
    { assembler := { arithmetic := mode } } space with
  | (.error err, space) => (.error err, space)
  | (.ok d, space) =>
    match d.assembler.link m.name m.descriptor m.handlers with
    | .error err => (.error (.assembly err), space)
    | .ok body => (.ok ⟨body, d.sites⟩, space)

/-- Compile methods after those already compiled. -/
def methods (settings : Settings) (c : SourceClass) (ms : List SourceMethod)
    (done : Array CompiledMethod) (space : Workspace) (mode : Arithmetic := .checked) :
    Except CompileError (List CompiledMethod) × Workspace :=
  match ms with
  | [] => (.ok done.toList, space)
  | m :: ms =>
    match method settings c m space mode with
    | (.error err, space) => (.error err, space)
    | (.ok compiled, space) => methods settings c ms (done.push compiled) space mode

end Compile

/-- Compile a class. -/
def SourceClass.compile (c : SourceClass) (settings : Settings) (space : Workspace)
    (mode : Arithmetic := .checked) : Except CompileError CompiledClass × Workspace :=
  match Compile.methods settings c c.methods #[] space mode with
  | (.error err, space) => (.error err, space)
  | (.ok methods, space) => (.ok ⟨c.thisClass, methods⟩, space)

/-- A compiled class as one to compile again, with the constants of its code. -/
def CompiledClass.toSource (c : CompiledClass) (pool : ConstantPool) : SourceClass :=
  { thisClass := c.thisClass
    pool
    methods := c.methods.map fun m =>
      { name := m.body.name, descriptor := m.body.descriptor, code := m.body.code,
        handlers := m.body.handlers } }

end FieldUpdater
