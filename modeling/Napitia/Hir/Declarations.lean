import Napitia.Hir.Body

/-!
# The declarations of a module

What name resolution leaves of a module, as far as the lowering to NIR reads it. A type
is still the reference that was written, resolved to the item it names. Spans and the
visibility of a declaration are not modelled.
-/
namespace Napitia.Hir.Declarations

/-- The file a declaration is from. -/
structure SourceId where
  index : ℕ
  deriving DecidableEq, Repr

inductive HirType where
  | aggregate (item : ItemId) (args : List HirType)
  | param (id : TypeParamId)
  | unresolved (name : Symbol)
  deriving Repr

structure HirField where
  name : Symbol
  ty : HirType

structure HirRecord where
  id : ItemId
  name : Symbol
  typeParams : List (TypeParamId × Symbol)
  fields : List HirField
  affine : Bool

structure HirCase where
  name : Symbol
  payload : List HirType

structure HirVariant where
  id : ItemId
  name : Symbol
  typeParams : List (TypeParamId × Symbol)
  source : SourceId
  cases : List HirCase

structure HirCapabilityRequirement where
  protocol : ItemId
  arguments : List HirType

/-- A function with the types it declares, those of its parameters in their order. A
method of an extend has no type parameters of its own. -/
structure HirFunction extends Body.HirFunction where
  name : Symbol
  typeParams : List (TypeParamId × Symbol)
  paramTypes : List HirType
  returnType : Option HirType
  requirements : List HirCapabilityRequirement
  raises : List ItemId

structure HirProtocolMethod where
  name : Symbol
  params : List HirType
  returnType : Option HirType

structure HirProtocol where
  id : ItemId
  name : Symbol
  typeParams : List (TypeParamId × Symbol)
  methods : List HirProtocolMethod

structure HirExtend where
  id : ItemId
  typeParams : List (TypeParamId × Symbol)
  protocol : ItemId
  protocolArguments : List HirType
  requirements : List HirCapabilityRequirement
  methods : List HirFunction

structure HirModule where
  functions : List HirFunction := []
  records : List HirRecord := []
  variants : List HirVariant := []
  protocols : List HirProtocol := []
  extensions : List HirExtend := []

/-- The functions of a module in the order they are lowered: those of the extends last. -/
def HirModule.bodies (hir : HirModule) : List HirFunction :=
  hir.functions ++ hir.extensions.flatMap (·.methods)

end Napitia.Hir.Declarations
