import FieldUpdater.Code.ConstantPool
import FieldUpdater.Code.Opcode

/-!
# Settings of the substitution

The settings name the reflective factory whose calls are replaced and the class
that every synthesized accessor extends.
-/

namespace FieldUpdater

/-- What is replaced, and by what. -/
structure Settings where
  /-- Whether calls are replaced at all. -/
  enabled : Bool := true
  /-- The class that declares the factory. -/
  factoryClass : String := "java/util/concurrent/atomic/AtomicReferenceFieldUpdater"
  /-- The name of the factory method. -/
  factoryMethod : String := "newUpdater"
  /-- The descriptor of the factory method. -/
  factoryDescriptor : String :=
    "(Ljava/lang/Class;Ljava/lang/Class;Ljava/lang/String;)" ++
      "Ljava/util/concurrent/atomic/AtomicReferenceFieldUpdater;"
  /-- The class that accessors extend. -/
  baseType : String := "fieldcas/runtime/IntrinsicAtomicReferenceFieldUpdater"
  deriving DecidableEq

namespace Settings

/-- Whether a method is the factory. -/
def namesFactory (s : Settings) (c : Callee) : Bool :=
  c.owner = s.factoryClass ∧ c.name = s.factoryMethod ∧ c.descriptor = s.factoryDescriptor

/-- Whether a call is a candidate: a static call of the factory while substitution is
enabled. Its arguments are judged elsewhere. -/
def isCandidate (s : Settings) (opcode : Opcode) (c : Callee) : Bool :=
  s.enabled ∧ opcode = .invokestatic ∧ s.namesFactory c

end Settings

end FieldUpdater
