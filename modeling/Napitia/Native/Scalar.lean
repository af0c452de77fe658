import Napitia.Hir.Declarations
import Napitia.Lexer.Token

/-!
# The native subset and its diagnostics

What the native backend can represent, the codes it refuses the rest with, and the item
registry that its messages name functions by. The driver around the backend (the linker, the
scratch directory) is not modelled, and neither are its own codes.
-/
namespace Napitia.Native
open Lexer Hir.Declarations

def targetTriple : String := "x86_64-unknown-linux-gnu"

/-- The symbol the C runtime calls. -/
def entrySymbol : String := "main"

namespace codes

def unsupportedTarget : String := "A0001"
def missingEntry : String := "A0002"
def duplicateEntry : String := "A0003"
def entryParameters : String := "A0004"
def entryReturnType : String := "A0005"
def unsupportedType : String := "A0006"
def unsupportedInstruction : String := "A0007"
def unsupportedTerminator : String := "A0008"
def unsupportedOperator : String := "A0009"
def genericCode : String := "A0010"
def capabilityDispatch : String := "A0011"
def fallibleFunction : String := "A0012"
def unknownCallee : String := "A0013"
def callSignatureMismatch : String := "A0014"
def recursiveCallGraph : String := "A0015"
def multiModuleBuild : String := "A0016"
def uninitializedSlotLoad : String := "A0017"
def slotUsedAsValue : String := "A0018"
def unverifiedNir : String := "A0019"

end codes

inductive Scalar where
  | int | bool | unit
  deriving DecidableEq, Repr

def Scalar.asStr : Scalar → String
  | .int => "i64"
  | .bool => "bool"
  | .unit => "unit"

/-- The scalar a type is held as. No other type has a native representation. -/
def scalarOf : Ty → Option Scalar
  | .i64 => some .int
  | .bool => some .bool
  | .unit => some .unit
  | .i8 | .i16 | .i32 | .isize | .u8 | .u16 | .u32 | .u64 | .usize | .f32 | .f64 | .char | .str
  | .never | .named _ | .param _ | .applied _ _ | .error | .var _ => none

theorem scalarOf_eq_some {ty : Ty} {scalar : Scalar} (h : scalarOf ty = some scalar) :
    ty = match scalar with
      | .int => .i64
      | .bool => .bool
      | .unit => .unit := by
  cases ty <;> simp [scalarOf] at h <;> subst h <;> rfl

structure Label where
  source : SourceId
  span : Span
  message : String
  deriving DecidableEq, Repr

/-- A refusal. Everything the backend reports is an error. -/
structure Diagnostic where
  code : String
  source : SourceId
  primarySpan : Span
  message : String
  primaryLabel : Option String := none
  labels : List Label := []
  help : Option String := none
  note : Option String := none
  deriving DecidableEq, Repr

def Diagnostic.withPrimaryLabel (d : Diagnostic) (label : String) : Diagnostic :=
  { d with primaryLabel := some label }

def Diagnostic.withLabelIn (d : Diagnostic) (source : SourceId) (span : Span) (message : String) :
    Diagnostic :=
  { d with labels := d.labels ++ [⟨source, span, message⟩] }

def Diagnostic.withHelp (d : Diagnostic) (help : String) : Diagnostic := { d with help := some help }

def Diagnostic.withNote (d : Diagnostic) (note : String) : Diagnostic := { d with note := some note }

inductive ItemKind where
  | function | record | variant | protocol | extend
  deriving DecidableEq, Repr

def ItemKind.describe : ItemKind → String
  | .function => "function"
  | .record => "record"
  | .variant => "variant"
  | .protocol => "protocol"
  | .extend => "extend"

structure ItemIdentity where
  modulePath : String
  name : Option Symbol
  kind : ItemKind
  source : SourceId
  span : Span
  deriving DecidableEq, Repr

/-- The registered identity of each item. -/
abbrev ItemRegistry := ItemId → Option ItemIdentity

/-- An item's own name behind the path of its module, under the interner's reading of symbols. -/
def ItemRegistry.qualifiedName (registry : ItemRegistry) (resolve : Symbol → String)
    (id : ItemId) : String :=
  match registry id with
  | some identity =>
    let name := match identity.name with
      | some name => resolve name
      | none => identity.kind.describe
    if identity.modulePath = "" then name else identity.modulePath ++ "." ++ name
  | none => "<item #" ++ toString id.index ++ ">"

end Napitia.Native
