import Mathlib.Data.BitVec
import Mathlib.Data.List.AList

/-!
# Types, evidence and the checked integer domain

Types and capability evidence as every later stage of the compiler shares
them, with the substitution of generic arguments, and the numeric rules the
checker, the interpreter and the native backend read from one place. The
display symbol a `Named` or `Param` type carries takes no part in type
equality and is left out, so that type equality here is structural.
-/
namespace Napitia

structure ItemId where
  index : ℕ
  deriving DecidableEq, Repr

structure TypeParamId where
  index : ℕ
  deriving DecidableEq, Repr

/-- An inference variable, which no type that reaches execution mentions. -/
structure TyVar where
  index : ℕ
  deriving DecidableEq, Repr

structure Symbol where
  index : ℕ
  deriving DecidableEq, Repr

namespace Limits

def maxPatternDepth : ℕ := 200
def maxGenericDepth : ℕ := 64
def maxCallDepth : ℕ := 512
def maxCapabilityDepth : ℕ := 64
def maxCapabilityResolutionSteps : ℕ := 4096

end Limits

inductive Ty where
  | i8 | i16 | i32 | i64 | isize
  | u8 | u16 | u32 | u64 | usize
  | f32 | f64
  | bool | char | str | unit | never
  | var (v : TyVar)
  | named (item : ItemId)
  | param (id : TypeParamId)
  | applied (item : ItemId) (args : List Ty)
  | error
  deriving Repr

mutual

/-- Two types are equal when their constructors are and, below an identity or
an application, everything they carry is. -/
def Ty.beq : Ty → Ty → Bool
  | .var a, .var b => a = b
  | .named a, .named b => a = b
  | .param a, .param b => a = b
  | .applied i as, .applied j bs => i = j && Ty.beqList as bs
  | a, b => a.ctorIdx == b.ctorIdx

def Ty.beqList : List Ty → List Ty → Bool
  | [], [] => true
  | a :: as, b :: bs => Ty.beq a b && Ty.beqList as bs
  | _, _ => false

end

mutual

theorem Ty.beq_refl : ∀ a : Ty, Ty.beq a a = true
  | .applied i as => by simp [Ty.beq, Ty.beqList_refl as]
  | .var _ | .named _ | .param _ => by simp [Ty.beq]
  | .i8 | .i16 | .i32 | .i64 | .isize | .u8 | .u16 | .u32 | .u64 | .usize | .f32 | .f64
  | .bool | .char | .str | .unit | .never | .error => rfl

theorem Ty.beqList_refl : ∀ as : List Ty, Ty.beqList as as = true
  | [] => rfl
  | a :: as => by simp [Ty.beqList, Ty.beq_refl a, Ty.beqList_refl as]

end

mutual

theorem Ty.eq_of_beq : ∀ a b : Ty, Ty.beq a b = true → a = b
  | .applied i as, b, h => by
    cases b with
    | applied j bs =>
      simp only [Ty.beq, Bool.and_eq_true, decide_eq_true_eq] at h
      rw [h.1, Ty.eqList_of_beq as bs h.2]
    | _ => exact absurd h (by simp [Ty.beq, Ty.ctorIdx])
  | .var a, b, h | .named a, b, h | .param a, b, h => by
    cases b <;> simp_all [Ty.beq, Ty.ctorIdx]
  | .i8, b, h | .i16, b, h | .i32, b, h | .i64, b, h | .isize, b, h | .u8, b, h | .u16, b, h
  | .u32, b, h | .u64, b, h | .usize, b, h | .f32, b, h | .f64, b, h | .bool, b, h
  | .char, b, h | .str, b, h | .unit, b, h | .never, b, h | .error, b, h => by
    cases b <;> first | rfl | exact absurd h (by simp [Ty.beq, Ty.ctorIdx])

theorem Ty.eqList_of_beq : ∀ as bs : List Ty, Ty.beqList as bs = true → as = bs
  | [], bs, h => by cases bs <;> simp_all [Ty.beqList]
  | a :: as, bs, h => by
    cases bs with
    | nil => exact absurd h (by simp [Ty.beqList])
    | cons b bs =>
      simp only [Ty.beqList, Bool.and_eq_true] at h
      rw [Ty.eq_of_beq a b h.1, Ty.eqList_of_beq as bs h.2]

end

instance : DecidableEq Ty := fun a b =>
  decidable_of_iff (Ty.beq a b = true) ⟨Ty.eq_of_beq a b, fun h => h ▸ Ty.beq_refl a⟩

/-- One substitution of type arguments for declared parameters. -/
abbrev Subst := AList (fun _ : TypeParamId => Ty)

/-- Arguments paired with parameters, or nothing when the arities differ. A
later pair for one parameter replaces an earlier one, as collecting the pairs
into a map does. -/
def checkedSubstitution (params : List TypeParamId) (arguments : List Ty) : Option Subst :=
  if params.length = arguments.length then
    some ((params.zip arguments).foldl (fun s p => s.insert p.1 p.2) ∅)
  else none

/-- The budget is what remains of the generic depth limit: once it is spent a
type is handed back as it stands. -/
def substituteAtDepth (subst : Subst) : ℕ → Ty → Ty
  | 0, ty => ty
  | _ + 1, .param id => (subst.lookup id).getD (.param id)
  | n + 1, .applied item args => .applied item (args.map (substituteAtDepth subst n))
  | _ + 1, ty => ty

def substitute (ty : Ty) (subst : Subst) : Ty :=
  substituteAtDepth subst (Limits.maxGenericDepth + 1) ty

/-- Capability evidence: a concrete extension with the evidence its own
requirements were met by, or an entry of the calling frame. -/
inductive Evidence where
  | extension (extend : ItemId) (nested : List Evidence)
  | forwarded (index : ℕ)
  deriving Repr

structure CapabilityRequirement where
  protocol : ItemId
  arguments : List Ty
  deriving DecidableEq, Repr

namespace Numeric

/-- The two's-complement carrier of a Napitia `i64`. -/
abbrev I64 := BitVec 64

structure IntDomain where
  name : String
  signed : Bool
  bits : ℕ
  deriving DecidableEq, Repr

def IntDomain.min (d : IntDomain) : ℤ :=
  if d.signed then -(2 ^ (d.bits - 1)) else 0

def IntDomain.max (d : IntDomain) : ℤ :=
  if d.signed then 2 ^ (d.bits - 1) - 1 else 2 ^ d.bits - 1

def IntDomain.contains (d : IntDomain) (value : ℤ) : Bool :=
  d.min ≤ value && value ≤ d.max

/-- The constant a source literal denotes, or nothing when it does not fit. The
magnitude is what the lexer read, and the sign is kept apart from it. -/
def IntDomain.literal (d : IntDomain) (magnitude : ℕ) (negated : Bool) : Option ℤ :=
  let limit := if negated then d.min.natAbs else d.max.toNat
  if magnitude > limit then none else some (if negated then -magnitude else magnitude)

def i64 : IntDomain := ⟨"i64", true, 64⟩

def domainOf : Ty → Option IntDomain
  | .i8 => some ⟨"i8", true, 8⟩
  | .i16 => some ⟨"i16", true, 16⟩
  | .i32 => some ⟨"i32", true, 32⟩
  | .i64 => some ⟨"i64", true, 64⟩
  | .isize => some ⟨"isize", true, 64⟩
  | .u8 => some ⟨"u8", false, 8⟩
  | .u16 => some ⟨"u16", false, 16⟩
  | .u32 => some ⟨"u32", false, 32⟩
  | .u64 => some ⟨"u64", false, 64⟩
  | .usize => some ⟨"usize", false, 64⟩
  | _ => none

/-- Every type but the numeric names nothing in the system can execute. -/
def isExecutableNumeric : Ty → Bool
  | .i8 | .i16 | .i32 | .isize | .u8 | .u16 | .u32 | .u64 | .usize | .f32 => false
  | _ => true

inductive IntOp where
  | add | sub | mul | neg | div | rem | shl | shr
  deriving DecidableEq, Repr

def IntOp.asStr : IntOp → String
  | .add => "add"
  | .sub => "sub"
  | .mul => "mul"
  | .neg => "neg"
  | .div => "div"
  | .rem => "rem"
  | .shl => "shl"
  | .shr => "shr"

/-- A checked integer operation with no result in the domain. -/
inductive ArithFailure where
  | overflow (op : IntOp)
  | divisionByZero (op : IntOp)
  | shiftAmount (count : I64)
  deriving DecidableEq, Repr

def ArithFailure.code : ArithFailure → String
  | .overflow _ => "X0002"
  | .divisionByZero _ => "X0001"
  | .shiftAmount _ => "X0003"

def ArithFailure.display : ArithFailure → String
  | .overflow op => "integer overflow in `" ++ op.asStr ++ "`"
  | .divisionByZero op => "`" ++ op.asStr ++ "` by zero"
  | .shiftAmount count => "shift amount " ++ toString count.toInt ++ " is outside 0..64"

def add (a b : I64) : Except ArithFailure I64 :=
  if BitVec.saddOverflow a b then .error (.overflow .add) else .ok (a + b)

def sub (a b : I64) : Except ArithFailure I64 :=
  if BitVec.ssubOverflow a b then .error (.overflow .sub) else .ok (a - b)

def mul (a b : I64) : Except ArithFailure I64 :=
  if BitVec.smulOverflow a b then .error (.overflow .mul) else .ok (a * b)

def neg (a : I64) : Except ArithFailure I64 :=
  if BitVec.negOverflow a then .error (.overflow .neg) else .ok (-a)

def div (a b : I64) : Except ArithFailure I64 :=
  if b = 0 then .error (.divisionByZero .div)
  else if BitVec.sdivOverflow a b then .error (.overflow .div)
  else .ok (a.sdiv b)

def rem (a b : I64) : Except ArithFailure I64 :=
  if b = 0 then .error (.divisionByZero .rem) else .ok (a.srem b)

def checkShift (count : I64) : Except ArithFailure Unit :=
  if 0 ≤ count.toInt ∧ count.toInt < 64 then .ok () else .error (.shiftAmount count)

def shl (a count : I64) : Except ArithFailure I64 := do
  checkShift count
  pure (a <<< count.toNat)

def shr (a count : I64) : Except ArithFailure I64 := do
  checkShift count
  pure (a.sshiftRight count.toNat)

end Numeric

/-- An IEEE-754 binary64 value, by its bit pattern. -/
structure F64 where
  bits : BitVec 64
  deriving DecidableEq, Repr

namespace F64

def isNan (x : F64) : Bool :=
  x.bits.extractLsb' 52 11 == BitVec.allOnes 11 && x.bits.extractLsb' 0 52 != 0

def isZero (x : F64) : Bool := x.bits.extractLsb' 0 63 == 0

/-- IEEE equality: a NaN differs from everything, and the two zeros agree. -/
def eq (x y : F64) : Bool :=
  !x.isNan && !y.isNan && (x.bits == y.bits || (x.isZero && y.isZero))

/-- The position of a value that is not a NaN on the real line. -/
def key (x : F64) : ℤ :=
  if x.bits.msb then -((x.bits.extractLsb' 0 63).toNat : ℤ)
  else ((x.bits.extractLsb' 0 63).toNat : ℤ)

def lt (x y : F64) : Bool := !x.isNan && !y.isNan && decide (x.key < y.key)

def le (x y : F64) : Bool := !x.isNan && !y.isNan && decide (x.key ≤ y.key)

def neg (x : F64) : F64 := ⟨x.bits ^^^ BitVec.twoPow 64 63⟩

end F64

/-- The five rounding operations of the machine's `f64` unit. -/
structure FloatUnit where
  add : F64 → F64 → F64
  sub : F64 → F64 → F64
  mul : F64 → F64 → F64
  div : F64 → F64 → F64
  rem : F64 → F64 → F64

/-- A float unit for programs that compute no float. -/
def idleUnit : FloatUnit :=
  ⟨fun x _ => x, fun x _ => x, fun x _ => x, fun x _ => x, fun x _ => x⟩

end Napitia
