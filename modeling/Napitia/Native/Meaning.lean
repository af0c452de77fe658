import Napitia.Interpreter.Run
import Napitia.Native.Admission

/-!
# What an accepted instruction means

The values of the native subset, and the one each accepted operation gives, stated apart from
the interpreter and from the code that is emitted. An operation of a checked body has a meaning
wherever its operands are there, and the interpreter computes that meaning.
-/
namespace Napitia.Native
open Nir

inductive Datum where
  | int (x : Numeric.I64)
  | bool (b : Bool)
  | unit
  deriving DecidableEq, Repr

def Datum.scalar : Datum → Scalar
  | .int _ => .int
  | .bool _ => .bool
  | .unit => .unit

def Datum.value : Datum → Interpreter.Value
  | .int x => .int x
  | .bool b => .bool b
  | .unit => .unit

/-- An operation's datum, or how it fails. -/
abbrev Meant := Except Numeric.ArithFailure Datum

def meantInts (op : Numeric.I64 → Numeric.I64 → Except Numeric.ArithFailure Numeric.I64) :
    Datum → Datum → Option Meant
  | .int x, .int y => some ((op x y).map .int)
  | _, _ => none

def meantEqual : Datum → Datum → Option Bool
  | .int x, .int y => some (x == y)
  | .bool x, .bool y => some (x == y)
  | .unit, .unit => some true
  | _, _ => none

def meantOrder (holds : Ordering → Bool) : Datum → Datum → Option Meant
  | .int x, .int y => some (.ok (.bool (holds (Ord.compare x.toInt y.toInt))))
  | .bool x, .bool y => some (.ok (.bool (holds (Ord.compare x y))))
  | _, _ => none

def meantConst : Const → Option Meant
  | .int v => if Numeric.i64.contains v then some (.ok (.int (BitVec.ofInt 64 v))) else none
  | .bool b => some (.ok (.bool b))
  | .unit => some (.ok .unit)
  | _ => none

def meantNeg : Datum → Option Meant
  | .int x => some ((Numeric.neg x).map .int)
  | _ => none

def meantNot : Datum → Option Meant
  | .int x => some (.ok (.int (~~~x)))
  | .bool b => some (.ok (.bool !b))
  | .unit => none

/-- The meaning of an operation that calls nothing and allocates nothing. -/
def meaning (read : ValueId → Option Datum) : ValueKind → Option Meant
  | .const c => meantConst c
  | .load slot => (read slot).map .ok
  | .add a b => do meantInts Numeric.add (← read a) (← read b)
  | .sub a b => do meantInts Numeric.sub (← read a) (← read b)
  | .mul a b => do meantInts Numeric.mul (← read a) (← read b)
  | .and a b => do meantInts (fun x y => .ok (x &&& y)) (← read a) (← read b)
  | .or a b => do meantInts (fun x y => .ok (x ||| y)) (← read a) (← read b)
  | .xor a b => do meantInts (fun x y => .ok (x ^^^ y)) (← read a) (← read b)
  | .neg a => do meantNeg (← read a)
  | .not a => do meantNot (← read a)
  | .eq a b => do some (.ok (.bool (← meantEqual (← read a) (← read b))))
  | .ne a b => do some (.ok (.bool !(← meantEqual (← read a) (← read b))))
  | .lt a b => do meantOrder (· = .lt) (← read a) (← read b)
  | .le a b => do meantOrder (· ≠ .gt) (← read a) (← read b)
  | .gt a b => do meantOrder (· = .gt) (← read a) (← read b)
  | .ge a b => do meantOrder (· ≠ .lt) (← read a) (← read b)
  | _ => none

/-! ### The interpreter computes it -/

section
variable {m : Module} {fpu : FloatUnit} {call : Interpreter.Call}
  {ctx : Interpreter.FrameContext} {values : Interpreter.Values} {read : ValueId → Option Datum}
  {s : Interpreter.InterpreterState}

/-- A meaning as the interpreter tells it. -/
def Meant.told : Meant → Except Interpreter.InterpreterError Interpreter.Value
  | .ok d => .ok d.value
  | .error f => .error (.arithmetic f)

section
variable {a b : Datum} {meant : Meant}

theorem numericOp_of_meant {what : String}
    {op : Numeric.I64 → Numeric.I64 → Except Numeric.ArithFailure Numeric.I64}
    {floatOp : F64 → F64 → F64} (h : meantInts op a b = some meant) :
    Interpreter.numericOp what op floatOp a.value b.value = meant.told := by
  cases a <;> cases b <;> cases h
  rename_i x y
  show Interpreter.ofArith (op x y) = _
  cases op x y <;> rfl

theorem bitop_of_meant {op : Numeric.I64 → Numeric.I64 → Numeric.I64}
    (h : meantInts (fun x y => .ok (op x y)) a b = some meant) :
    Interpreter.bitop op a.value b.value = meant.told := by
  cases a <;> cases b <;> cases h
  rfl

theorem eq_of_meant {same : Bool} (h : meantEqual a b = some same) :
    Interpreter.eq a.value b.value = .ok same := by
  cases a <;> cases b <;> cases h <;> rfl

theorem ordered_of_meant {holds : Ordering → Bool} {predicate : Interpreter.OrderPredicate}
    (hholds : ∀ ordering : Ordering, holds ordering = match predicate with
      | .lt => decide (ordering = .lt)
      | .le => decide (ordering ≠ .gt)
      | .gt => decide (ordering = .gt)
      | .ge => decide (ordering ≠ .lt))
    (h : meantOrder holds a b = some meant) :
    (do pure (.bool (← Interpreter.ordered a.value b.value predicate))) = meant.told := by
  cases a <;> cases b <;> cases h
  all_goals
    rw [hholds]
    cases predicate <;> rfl

end

theorem eval_of_meaning (hread : ∀ id d, read id = some d → values.lookup id = some d.value)
    {kind : ValueKind} {meant : Meant} (h : meaning read kind = some meant) :
    Interpreter.eval m fpu call ctx values kind = Interpreter.ask meant.told := by
  have hreads : ∀ id d, read id = some d → values.read id = .ok d.value := by
    intro id d hd
    rw [Interpreter.Values.read, hread id d hd]
    rfl
  -- An operator answers for itself, and the other kinds behind all operators.
  have hscalar : ∀ result, Interpreter.evalScalar fpu values kind = some result →
      result = meant.told →
      Interpreter.eval m fpu call ctx values kind = Interpreter.ask meant.told := by
    intro result hresult htold
    unfold Interpreter.eval
    simp only [hresult, htold]
  cases kind <;> simp only [meaning, Option.bind_eq_bind, Option.bind_eq_some_iff, reduceCtorEq] at h
  case const c =>
    cases c with
    | int v =>
      simp only [meantConst] at h
      split at h
      · rename_i hcontains
        cases h
        simp only [Interpreter.eval, Interpreter.evalScalar, Interpreter.constValue, if_pos hcontains]
        rfl
      · cases h
    | bool | unit =>
      cases h
      rfl
    | float | char | str => cases h
  case load slot =>
    obtain ⟨d, hd, rfl⟩ := Option.map_eq_some_iff.mp h
    simp only [Interpreter.eval, Interpreter.evalScalar, hreads _ _ hd]
    rfl
  case neg =>
    obtain ⟨d, hd, hmeant⟩ := h
    refine hscalar _ rfl ?_
    rw [hreads _ _ hd]
    cases d <;> cases hmeant
    rename_i x
    show Interpreter.ofArith (Numeric.neg x) = _
    cases Numeric.neg x <;> rfl
  case not =>
    obtain ⟨d, hd, hmeant⟩ := h
    refine hscalar _ rfl ?_
    rw [hreads _ _ hd]
    cases d <;> cases hmeant <;> rfl
  all_goals
    obtain ⟨d, hd, e, he, hmeant⟩ := h
    refine hscalar _ rfl ?_
    rw [hreads _ _ hd, hreads _ _ he]
  case add | sub | mul => exact numericOp_of_meant hmeant
  case and | or | xor => exact bitop_of_meant hmeant
  case eq | ne =>
    obtain ⟨same, hsame, heq⟩ := hmeant
    cases heq
    simp only [Bind.bind, Except.bind, eq_of_meant hsame]
    rfl
  case lt | le | gt | ge => exact ordered_of_meant (fun ordering => by cases ordering <;> rfl) hmeant

end
end Napitia.Native
