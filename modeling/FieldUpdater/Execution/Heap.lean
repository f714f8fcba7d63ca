import FieldUpdater.Accessor.Basic
import FieldUpdater.Execution.Value

/-!
# The heap

Objects are never freed and keep their class and their number of slots. Every slot
is a word. A slot operation changes no word but the one addressed, and a failing
operation changes none.
-/

namespace FieldUpdater

/-- Why execution fails. -/
inductive ExecError where
  /-- The value is no instance of the class. -/
  | classCast (expected found : String)
  /-- The class is still being defined. -/
  | typeNotFinalized (name : String)
  /-- The table has no such class. -/
  | unknownClass (text : String)
  /-- The heap has no such object. -/
  | invalidReference (obj : ObjRef)
  /-- The registry is of another class table than the heap. -/
  | foreignRegistry
  /-- The object is no instance of an accessor. -/
  | notAnAccessor (obj : ObjRef)
  /-- The reference is null. -/
  | nullReference (opcode : Opcode)
  /-- The operand stack holds too few entries. -/
  | stackUnderflow (opcode : Opcode)
  /-- The entry is of another kind. -/
  | typeMismatch (opcode : Opcode) (expected : String)
  /-- The operand is of another sort. -/
  | malformedOperand (opcode : Opcode)
  /-- There is no such local variable. -/
  | localOutOfRange (index : Nat)
  /-- The object has no such slot. -/
  | slotOutOfRange (obj : ObjRef) (slot : Nat)
  /-- The opcode is not executed. -/
  | unsupported (opcode : Opcode)
  /-- The operation takes another number of arguments. -/
  | argCount (op : FieldOp) (expected found : Nat)
  /-- The method has no further instruction. -/
  | fellOffEnd (method : String)
  deriving DecidableEq

/-- The wording of an execution error. -/
def ExecError.message : ExecError → String
  | .classCast expected found => s!"Cannot cast {found} to {expected}"
  | .typeNotFinalized name => s!"Type {name} is not finalized"
  | .unknownClass text => s!"Unknown class: {text}"
  | .invalidReference obj => s!"Invalid object reference {obj.text}"
  | .foreignRegistry => "Accessor registry is bound to a different class table than the heap"
  | .notAnAccessor obj => s!"Object {obj.text} is not a field accessor"
  | .nullReference opcode => s!"Null reference at {opcode.mnemonic}"
  | .stackUnderflow opcode => s!"Stack underflow at {opcode.mnemonic}"
  | .typeMismatch opcode expected => s!"{opcode.mnemonic} expects {expected}"
  | .malformedOperand opcode => s!"Malformed operand for {opcode.mnemonic}"
  | .localOutOfRange index => s!"Local {index} out of range"
  | .slotOutOfRange obj slot => s!"Slot {slot} out of range for {obj.text}"
  | .unsupported opcode => s!"Unsupported opcode: {opcode.mnemonic}"
  | .argCount op expected found => s!"{op.name} expects {expected} argument(s), got {found}"
  | .fellOffEnd method => s!"Fell off the end of {method}"

/-- An object of a heap. -/
structure HeapObject where
  /-- The class of the object. -/
  classId : ClassId
  /-- The words of its slots. -/
  words : Array UInt64
  deriving DecidableEq

/-- Objects whose classes are of one table. -/
structure Heap where
  /-- The tag of the class table. -/
  tag : Nat
  /-- The objects by reference. -/
  objects : Array HeapObject := #[]

namespace Heap

/-- The number of objects. -/
def size (h : Heap) : Nat := h.objects.size

/-- The object of a reference. -/
def find? (h : Heap) (o : ObjRef) : Option HeapObject := h.objects[o.index.toNat]?

/-- The object of a reference, or the error that there is none. -/
def get (h : Heap) (o : ObjRef) : Except ExecError HeapObject :=
  match h.find? o with
  | some obj => .ok obj
  | none => .error (.invalidReference o)

/-- The class of an object. -/
def classOf (h : Heap) (o : ObjRef) : Except ExecError ClassId := (h.get o).map (·.classId)

/-- Make an instance whose slots are all null. A class that is still being defined has
no instances. -/
def alloc (h : Heap) (t : ClassTable) (c : ClassId) : Except ExecError (ObjRef × Heap) :=
  match t.find? c with
  | none => .error (.unknownClass c.text)
  | some info =>
    if info.stage = .defining then .error (.typeNotFinalized info.name)
    else
      .ok (⟨h.size.toUInt32⟩,
        { h with
          objects := h.objects.push ⟨c, Array.replicate info.instanceSlots Value.null.toWord⟩ })

/-- The word of a slot. -/
def word (h : Heap) (o : ObjRef) (slot : Nat) : Except ExecError UInt64 :=
  match h.get o with
  | .error err => .error err
  | .ok obj =>
    match obj.words[slot]? with
    | some word => .ok word
    | none => .error (.slotOutOfRange o slot)

/-- Set the word of a slot. -/
def setWord (h : Heap) (o : ObjRef) (slot : Nat) (word : UInt64) : Heap :=
  { h with
    objects := h.objects.modify o.index.toNat fun obj =>
      { obj with words := obj.words.setIfInBounds slot word } }

/-- Load a slot. -/
def load (h : Heap) (o : ObjRef) (slot : Nat) : Except ExecError Value :=
  (h.word o slot).map Value.ofWord

/-- Store into a slot. -/
def store (h : Heap) (o : ObjRef) (slot : Nat) (v : Value) : Except ExecError Heap :=
  (h.word o slot).map fun _ => h.setWord o slot v.toWord

/-- Store into a slot if it holds the expected value. The result begins with the value
that the slot held. -/
def compareExchange (h : Heap) (o : ObjRef) (slot : Nat) (expected update : Value) :
    Except ExecError (Value × Heap) :=
  (h.word o slot).map fun word =>
    (Value.ofWord word,
      if word = expected.toWord then h.setWord o slot update.toWord else h)

end Heap

end FieldUpdater
