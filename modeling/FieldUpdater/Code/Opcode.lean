/-!
# Opcodes

The normalized instruction set shared by decoded methods and assembled code.
An opcode has one byte, one mnemonic and, unless it is a call, one fixed effect
on the operand stack. The byte and the mnemonic both identify the opcode.
-/

namespace FieldUpdater

/-- The operations of the normalized instruction set. -/
inductive Opcode where
  /-- Do nothing. -/
  | nop
  /-- Discard the top of the stack. -/
  | pop
  /-- Push a copy of the top of the stack. -/
  | dup
  /-- Push the null reference. -/
  | aconstNull
  /-- Push a constant of the pool. -/
  | ldc
  /-- Push an immediate integer. -/
  | iconst
  /-- Push a local variable. -/
  | aload
  /-- Pop into a local variable. -/
  | astore
  /-- Push an argument; argument zero is the receiver. -/
  | ldarg
  /-- Pop an object, push one of its fields. -/
  | getfield
  /-- Pop a value and an object, store the value into a field of the object. -/
  | putfield
  /-- Pop an object, push the address of one of its fields. -/
  | ldflda
  /-- Load a field with acquire ordering. -/
  | volatileLdfld
  /-- Store a field with release ordering. -/
  | volatileStfld
  /-- Allocate an instance without constructing it. -/
  | new
  /-- Allocate an instance and run its argumentless constructor. -/
  | newobj
  /-- Check that the reference on top of the stack is of a class. -/
  | castclass
  /-- Call a static method. -/
  | invokestatic
  /-- Call a method chosen by the receiver. -/
  | invokevirtual
  /-- Call a constructor, a private method or a method of the base class. -/
  | invokespecial
  /-- Pop an object and run the argumentless constructor of its base class. -/
  | callBaseCtor
  /-- Pop a comparand, a value and an address; exchange atomically; push the previous value. -/
  | cmpxchg
  /-- Order all earlier accesses before all later ones. -/
  | membar
  /-- Pop two values, push whether they are equal. -/
  | ceq
  /-- Jump. -/
  | goto
  /-- Pop a value and jump if it is null. -/
  | ifnull
  /-- Pop a value and jump unless it is null. -/
  | ifnonnull
  /-- Leave the method without a value. -/
  | ret
  /-- Leave the method with the top of the stack. -/
  | areturn
  /-- Throw the top of the stack. -/
  | athrow
  deriving DecidableEq

namespace Opcode

/-- Every opcode, in the order of their bytes. -/
def all : List Opcode :=
  [nop, pop, dup, aconstNull, ldc, iconst, aload, astore, ldarg, getfield, putfield, ldflda,
    volatileLdfld, volatileStfld, new, newobj, castclass, invokestatic, invokevirtual,
    invokespecial, callBaseCtor, cmpxchg, membar, ceq, goto, ifnull, ifnonnull, ret, areturn,
    athrow]

/-- The byte of an opcode. The high digit groups the opcodes by what they work on. -/
def byte : Opcode → UInt8
  | nop => 0x00
  | pop => 0x01
  | dup => 0x02
  | aconstNull => 0x03
  | ldc => 0x04
  | iconst => 0x05
  | aload => 0x10
  | astore => 0x11
  | ldarg => 0x12
  | getfield => 0x20
  | putfield => 0x21
  | ldflda => 0x22
  | volatileLdfld => 0x23
  | volatileStfld => 0x24
  | new => 0x30
  | newobj => 0x31
  | castclass => 0x32
  | invokestatic => 0x40
  | invokevirtual => 0x41
  | invokespecial => 0x42
  | callBaseCtor => 0x43
  | cmpxchg => 0x50
  | membar => 0x51
  | ceq => 0x52
  | goto => 0x60
  | ifnull => 0x61
  | ifnonnull => 0x62
  | ret => 0x63
  | areturn => 0x64
  | athrow => 0x65

/-- The mnemonic of an opcode. -/
def mnemonic : Opcode → String
  | nop => "nop"
  | pop => "pop"
  | dup => "dup"
  | aconstNull => "aconst_null"
  | ldc => "ldc"
  | iconst => "iconst"
  | aload => "aload"
  | astore => "astore"
  | ldarg => "ldarg"
  | getfield => "getfield"
  | putfield => "putfield"
  | ldflda => "ldflda"
  | volatileLdfld => "volatile.ldfld"
  | volatileStfld => "volatile.stfld"
  | new => "new"
  | newobj => "newobj"
  | castclass => "castclass"
  | invokestatic => "invokestatic"
  | invokevirtual => "invokevirtual"
  | invokespecial => "invokespecial"
  | callBaseCtor => "call.basector"
  | cmpxchg => "cmpxchg"
  | membar => "membar"
  | ceq => "ceq"
  | goto => "goto"
  | ifnull => "ifnull"
  | ifnonnull => "ifnonnull"
  | ret => "return"
  | areturn => "areturn"
  | athrow => "throw"

/-- The opcode of a byte, if the byte is one. -/
def ofByte? (b : UInt8) : Option Opcode := all.find? fun op => op.byte = b

/-- The opcode of a mnemonic, if the text is one. -/
def ofMnemonic? (text : String) : Option Opcode := all.find? fun op => op.mnemonic = text

/-- How many entries an opcode takes off the operand stack and how many it then
puts on. A call has no fixed effect: its callee's descriptor decides. -/
def stackEffect : Opcode → Option (Nat × Nat)
  | nop | membar | goto | ret => some (0, 0)
  | pop | astore | ifnull | ifnonnull | areturn | athrow | callBaseCtor => some (1, 0)
  | dup => some (1, 2)
  | aconstNull | ldc | iconst | aload | ldarg | new | newobj => some (0, 1)
  | getfield | ldflda | volatileLdfld | castclass => some (1, 1)
  | putfield | volatileStfld => some (2, 0)
  | ceq => some (2, 1)
  | cmpxchg => some (3, 1)
  | invokestatic | invokevirtual | invokespecial => none

/-- Whether the opcode is a jump, whose operand names an instruction. -/
def isBranch : Opcode → Bool
  | goto | ifnull | ifnonnull => true
  | _ => false

/-- Whether control never falls through to the next instruction. -/
def isTerminator : Opcode → Bool
  | goto | ret | areturn | athrow => true
  | _ => false

/-- Whether the opcode is a call through a method reference of the pool. -/
def isCall : Opcode → Bool
  | invokestatic | invokevirtual | invokespecial => true
  | _ => false

/-- Calls are exactly the opcodes without a fixed stack effect. -/
theorem stackEffect_eq_none_iff (op : Opcode) : op.stackEffect = none ↔ op.isCall = true := by
  cases op <;> decide

/-- A jump is no call. -/
theorem isCall_of_isBranch {op : Opcode} (h : op.isBranch = true) : op.isCall = false := by
  cases op with
  | goto | ifnull | ifnonnull => rfl
  | _ => cases h

/-- A terminator is no call either. -/
theorem isCall_of_isTerminator {op : Opcode} (h : op.isTerminator = true) : op.isCall = false := by
  cases op with
  | goto | ret | areturn | athrow => rfl
  | _ => cases h

/-- The effects of opcodes are small, and none leaves two more entries than it takes. -/
theorem stackEffect_small {op : Opcode} {pops pushes : Nat}
    (h : op.stackEffect = some (pops, pushes)) : pops ≤ 3 ∧ pushes ≤ 2 ∧ pushes ≤ pops + 1 := by
  cases op <;> cases h <;> decide

/-- As words they are the same. -/
theorem toNat_stackEffect {op : Opcode} {pops pushes : Nat}
    (h : op.stackEffect = some (pops, pushes)) :
    pops.toUInt16.toNat = pops ∧ pushes.toUInt16.toNat = pushes := by
  obtain ⟨hpops, hpushes, -⟩ := stackEffect_small h
  exact ⟨UInt16.toNat_ofNat_of_lt' (Nat.lt_of_le_of_lt hpops (by decide)),
    UInt16.toNat_ofNat_of_lt' (Nat.lt_of_le_of_lt hpushes (by decide))⟩

/-- A terminator pushes nothing. -/
theorem pushes_of_isTerminator {op : Opcode} {pops pushes : Nat} (h : op.isTerminator = true)
    (heffect : op.stackEffect = some (pops, pushes)) : pushes = 0 := by
  cases op with
  | goto | ret | areturn | athrow =>
    cases heffect
    rfl
  | _ => cases h

/-- A jump leaves nothing on the stack. -/
theorem pushes_of_isBranch {op : Opcode} {pops pushes : Nat} (h : op.isBranch = true)
    (heffect : op.stackEffect = some (pops, pushes)) : pushes = 0 := by
  cases op with
  | goto | ifnull | ifnonnull =>
    cases heffect
    rfl
  | _ => cases h

end Opcode

end FieldUpdater
