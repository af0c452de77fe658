import Napitia.Types

/-!
# The Napitia IR

Verified NIR is what the interpreter runs and what the native backend compiles:
a typed control-flow graph whose places name a root value and the fields
projected out of it. The printer's own data is not modelled.
-/
namespace Napitia

structure FieldId where
  index : ℕ
  deriving DecidableEq, Repr

structure CaseId where
  index : ℕ
  deriving DecidableEq, Repr

inductive Projection where
  | field (owner : ItemId) (field : FieldId)
  | variantField (variant : ItemId) (case : CaseId) (field : FieldId)
  deriving DecidableEq, Repr

/-- A root value and the projections that reach into it. -/
structure Place (Root : Type) where
  root : Root
  projections : List Projection
  deriving DecidableEq, Repr

namespace Nir

structure ValueId where
  index : ℕ
  deriving DecidableEq, Repr

structure BlockId where
  index : ℕ
  deriving DecidableEq, Repr

structure ObservationId where
  index : ℕ
  deriving DecidableEq, Repr

inductive Const where
  | int (value : ℤ)
  | float (value : F64)
  | bool (value : Bool)
  | char (value : Char)
  | str (value : String)
  | unit
  deriving DecidableEq, Repr

inductive OwnershipMode where
  | observe | transfer
  deriving DecidableEq, Repr

inductive ValueKind where
  | alloc
  | const (c : Const)
  | load (slot : ValueId)
  | add (a b : ValueId)
  | sub (a b : ValueId)
  | mul (a b : ValueId)
  | div (a b : ValueId)
  | rem (a b : ValueId)
  | neg (a : ValueId)
  | not (a : ValueId)
  | and (a b : ValueId)
  | or (a b : ValueId)
  | xor (a b : ValueId)
  | shl (a b : ValueId)
  | shr (a b : ValueId)
  | eq (a b : ValueId)
  | ne (a b : ValueId)
  | lt (a b : ValueId)
  | le (a b : ValueId)
  | gt (a b : ValueId)
  | ge (a b : ValueId)
  | call (callee : ItemId) (typeArgs : List Ty) (args : List ValueId) (evidence : List Evidence)
  | recordCreate (item : ItemId) (typeArgs : List Ty) (fields : List ValueId)
  | recordField (base : ValueId) (record : ItemId) (field : ℕ)
  | variantCreate (variant : ItemId) (case : ℕ) (typeArgs : List Ty) (payload : List ValueId)
  | variantPayload (base : ValueId) (variant : ItemId) (case index : ℕ)
  | protocolCall (protocol : ItemId) (arguments : List Ty) (method : ℕ) (evidence : Evidence)
      (args : List ValueId)
  | move (source : ValueId)
  | deferCapture (source : ValueId)
  | placeRead (place : Place ValueId) (mode : OwnershipMode)
  | observePlace (observation : ObservationId) (place : Place ValueId)
  deriving Repr

inductive Instruction where
  | value (result : ValueId) (ty : Ty) (kind : ValueKind)
  | store (slot value : ValueId) (mode : OwnershipMode)
  | drop (value : ValueId)
  | decomposeVariant (value : ValueId) (variant : ItemId) (case : ℕ) (taken : List (ℕ × ValueId))
  | storePlace (place : Place ValueId) (value : ValueId)
  | endObserve (observation : ObservationId)
  deriving Repr

structure InvokeErrTarget where
  variant : ItemId
  slot : ValueId
  target : BlockId
  deriving Repr

inductive Terminator where
  | ret (value : Option ValueId)
  | branch (target : BlockId)
  | condBranch (condition : ValueId) (thenBlock elseBlock : BlockId)
  | switch (scrutinee : ValueId) (variant : ItemId) (cases : List BlockId)
  | invoke (callee : ItemId) (typeArgs : List Ty) (args : List ValueId)
      (evidence : List Evidence) (okSlot : ValueId) (okTarget : BlockId)
      (errTargets : List InvokeErrTarget)
  | raise (value : ValueId)
  deriving Repr

structure BasicBlock where
  id : BlockId
  instructions : List Instruction
  terminator : Terminator
  deriving Repr

structure RecordLayout where
  name : Symbol
  typeParams : List (TypeParamId × Symbol)
  fields : List (Symbol × Ty)
  affine : Bool
  deriving Repr

structure CaseLayout where
  name : Symbol
  payload : List Ty
  deriving Repr

structure VariantLayout where
  name : Symbol
  typeParams : List (TypeParamId × Symbol)
  cases : List CaseLayout
  deriving Repr

structure ProtocolMethodLayout where
  name : Symbol
  params : List Ty
  returnType : Ty
  deriving Repr

structure ProtocolLayout where
  name : Symbol
  typeParams : List (TypeParamId × Symbol)
  methods : List ProtocolMethodLayout
  deriving Repr

structure ExtendLayout where
  protocol : ItemId
  typeParams : List (TypeParamId × Symbol)
  protocolArguments : List Ty
  requirements : List CapabilityRequirement
  methods : List ItemId
  deriving Repr

structure Param where
  value : ValueId
  ty : Ty
  take : Bool
  deriving Repr

structure Function where
  id : ItemId
  name : Symbol
  typeParams : List (TypeParamId × Symbol)
  requirements : List CapabilityRequirement
  params : List Param
  returnType : Ty
  raises : List ItemId
  blocks : List BasicBlock
  deriving Repr

structure Module where
  functions : List Function := []
  records : List (ItemId × RecordLayout) := []
  variants : List (ItemId × VariantLayout) := []
  protocols : List (ItemId × ProtocolLayout) := []
  extensions : List (ItemId × ExtendLayout) := []
  deriving Repr

def Module.findRecord (m : Module) (item : ItemId) : Option RecordLayout :=
  (m.records.find? (·.1 = item)).map (·.2)

def Module.findVariant (m : Module) (item : ItemId) : Option VariantLayout :=
  (m.variants.find? (·.1 = item)).map (·.2)

def Module.findExtend (m : Module) (item : ItemId) : Option ExtendLayout :=
  (m.extensions.find? (·.1 = item)).map (·.2)

def Module.findFunction (m : Module) (item : ItemId) : Option Function :=
  m.functions.find? (·.id = item)

def Function.findBlock (f : Function) (id : BlockId) : Option BasicBlock :=
  f.blocks.find? (·.id = id)

end Nir
end Napitia
