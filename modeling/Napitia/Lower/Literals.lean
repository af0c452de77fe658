import Napitia.Lexer.Numbers
import Napitia.Lower.RecordLiterals

/-!
# Integer literals

A literal is read as a magnitude, checked against the type it ends up with, and lowered to
one constant of that type. A minus directly before it is part of it throughout: the least
value of a signed type has a magnitude that the type does not hold.
-/
namespace Napitia.Lower
open Nir StateT
open Hir (ExprId)
open Hir.Body
open Lexer (NumberToken IntBase scanNumber magnitudeOf IsLiteral)
open Numeric (IntDomain domainOf)

/-! ### From the parser to the range check -/

/-- Integer literals under operators and parentheses, as they are parsed. -/
inductive WrittenExpr where
  | int (magnitude : ℕ)
  | paren (inner : WrittenExpr)
  | unary (op : UnaryOp) (operand : WrittenExpr)
  deriving Repr

/-- Name resolution, with the next id it gives out. Parentheses leave no trace. -/
def WrittenExpr.lower : WrittenExpr → ℕ → HirExpr × ℕ
  | .int magnitude, next => (.int ⟨next⟩ magnitude, next + 1)
  | .paren inner, next => inner.lower next
  | .unary op operand, next =>
    let lowered := operand.lower (next + 1)
    (.unary ⟨next⟩ op lowered.1, lowered.2)

structure IntLiteral where
  magnitude : ℕ
  negated : Bool
  /-- The type that its variable was resolved to. -/
  ty : Option Ty
  deriving DecidableEq, Repr

/-- The literals met so far, and the ids of those that a minus stands before. -/
structure Literals where
  negated : List ExprId := []
  ints : List IntLiteral := []

/-- The literals that checking an expression records. -/
def checkLiterals (types : ExprId → Option Ty) : HirExpr → Literals → Literals
  | .int id value, seen =>
    { seen with ints := seen.ints ++ [⟨value, id ∈ seen.negated, types id⟩] }
  | .unary _ .neg (.int id value), seen =>
    checkLiterals types (.int id value) { seen with negated := id :: seen.negated }
  | .unary _ _ operand, seen => checkLiterals types operand seen
  | _, seen => seen

structure RangeReport where
  code : String := "T0073"
  message : String
  label : String
  deriving DecidableEq, Repr

def outOfRange (magnitude : ℕ) (negated : Bool) (domain : IntDomain) : RangeReport where
  message := "`" ++ (if negated then "-" else "") ++ toString magnitude ++
    "` is outside the range of `" ++ domain.name ++ "`"
  label := "`" ++ domain.name ++ "` holds " ++ toString domain.min ++ " through " ++
    toString domain.max

/-- What is reported of a literal; one that has no integer type is a mismatch elsewhere. -/
def rangeReport (literal : IntLiteral) : Option RangeReport :=
  match literal.ty.bind domainOf with
  | none => none
  | some domain =>
    if (domain.literal literal.magnitude literal.negated).isSome then none
    else some (outOfRange literal.magnitude literal.negated domain)

def checkIntegerLiteralRanges (literals : List IntLiteral) : List RangeReport :=
  literals.filterMap rangeReport

/-! ### What a literal denotes -/

/-- The magnitude of a literal, and whether a minus stands directly before it. -/
def WrittenExpr.literal : WrittenExpr → Option (ℕ × Bool)
  | .int magnitude => some (magnitude, false)
  | .paren inner => inner.literal
  | .unary .neg operand =>
    match operand.literal with
    | some (magnitude, false) => some (magnitude, true)
    | _ => none
  | .unary _ _ => none

/-- The id of the literal, where it is one. -/
def literalId (negated : Bool) (next : ℕ) : ExprId := ⟨if negated then next + 1 else next⟩

def signed (negated : Bool) (magnitude : ℕ) : ℤ := if negated then -magnitude else magnitude

/-- The number that a word as wide as the type denotes in it. -/
def readAs (domain : IntDomain) (word : BitVec domain.bits) : ℤ :=
  if domain.signed then word.toInt else word.toNat

/-- The one constant of a type that a computation adds to the current block. -/
def EmitsConst (x : Build LoweredExpr) (ty : Ty) (value : ℤ) : Prop :=
  ∀ a : FnBuilder, x.run a = .ok (.value ⟨a.nextValue⟩, a.define ty (.const (.int value)))

section
variable {domain : IntDomain} {magnitude : ℕ} {negated : Bool}

theorem literal_eq (domain : IntDomain) (magnitude : ℕ) (negated : Bool) :
    domain.literal magnitude negated =
      if domain.contains (signed negated magnitude) then some (signed negated magnitude)
      else none := by
  have hmin : domain.min ≤ 0 := by
    unfold IntDomain.min
    split
    · have : (0 : ℤ) ≤ 2 ^ (domain.bits - 1) := by positivity
      omega
    · exact le_rfl
  have hmax : 0 ≤ domain.max := by
    unfold IntDomain.max
    have hpow (n : ℕ) : (0 : ℤ) < 2 ^ n := by positivity
    split
    · have := hpow (domain.bits - 1)
      omega
    · have := hpow domain.bits
      omega
  unfold IntDomain.literal IntDomain.contains signed
  cases negated with
  | false =>
    by_cases h : magnitude ≤ domain.max.toNat
    · have hle : (magnitude : ℤ) ≤ domain.max := by omega
      have hge : domain.min ≤ (magnitude : ℤ) := by omega
      simp [Nat.not_lt.mpr h, hle, hge]
    · have hlt : ¬ (magnitude : ℤ) ≤ domain.max := by omega
      simp [Nat.not_le.mp h, hlt]
  | true =>
    by_cases h : magnitude ≤ domain.min.natAbs
    · have hge : domain.min ≤ -(magnitude : ℤ) := by omega
      have hle : -(magnitude : ℤ) ≤ domain.max := by omega
      simp [Nat.not_lt.mpr h, hle, hge]
    · have hlt : ¬ domain.min ≤ -(magnitude : ℤ) := by omega
      simp [Nat.not_le.mp h, hlt]

theorem readAs_ofInt {value : ℤ} (hbits : 0 < domain.bits) (h : domain.contains value = true) :
    readAs domain (BitVec.ofInt domain.bits value) = value := by
  rw [IntDomain.contains, Bool.and_eq_true, decide_eq_true_eq, decide_eq_true_eq] at h
  obtain ⟨hmin, hmax⟩ := h
  unfold IntDomain.min at hmin
  unfold IntDomain.max at hmax
  unfold readAs
  split
  · rename_i hsigned
    rw [if_pos hsigned] at hmin hmax
    obtain ⟨n, hn⟩ : ∃ n, domain.bits = n + 1 := ⟨domain.bits - 1, by omega⟩
    have hpow : (2 : ℤ) ^ domain.bits = 2 * 2 ^ (domain.bits - 1) := by
      rw [hn, Nat.add_sub_cancel, pow_succ]
      ring
    rw [BitVec.toInt_ofInt]
    refine Int.bmod_eq_of_le ?_ ?_ <;> push_cast <;> omega
  · rename_i hsigned
    rw [if_neg hsigned] at hmin hmax
    rw [BitVec.toNat_ofInt]
    have hmod : value % ((2 ^ domain.bits : ℕ) : ℤ) = value := by
      refine Int.emod_eq_of_lt hmin ?_
      push_cast
      omega
    rw [hmod]
    omega

theorem bits_pos {ty : Ty} (h : domainOf ty = some domain) : 0 < domain.bits := by
  cases ty <;> simp only [domainOf, reduceCtorEq, Option.some.injEq] at h <;> subst h <;>
    norm_num

theorem lower_of_literal {written : WrittenExpr} (next : ℕ)
    (h : written.literal = some (magnitude, negated)) :
    written.lower next =
      if negated then (.unary ⟨next⟩ .neg (.int ⟨next + 1⟩ magnitude), next + 2)
      else (.int ⟨next⟩ magnitude, next + 1) := by
  induction written generalizing next magnitude negated with
  | int => cases h; rfl
  | paren inner ih => exact ih next h
  | unary op operand ih =>
    cases op with
    | neg =>
      simp only [WrittenExpr.literal] at h
      split at h
      · rename_i hliteral
        cases h
        rw [WrittenExpr.lower, ih (next + 1) hliteral]
        rfl
      · cases h
    | not | bitNot => cases h

theorem checkLiterals_of_literal {written : WrittenExpr} {next : ℕ}
    (types : ExprId → Option Ty) (seen : Literals)
    (h : written.literal = some (magnitude, negated))
    (hfresh : ∀ id ∈ seen.negated, id.index ∉ Set.Ico next (written.lower next).2) :
    (checkLiterals types (written.lower next).1 seen).ints =
      seen.ints ++ [⟨magnitude, negated, types (literalId negated next)⟩] := by
  rw [lower_of_literal next h] at hfresh ⊢
  cases negated with
  | true => simp [checkLiterals, literalId]
  | false =>
    have hseen : (⟨next⟩ : ExprId) ∉ seen.negated := fun hmem =>
      hfresh ⟨next⟩ hmem ⟨le_rfl, Nat.lt_succ_self next⟩
    simp [checkLiterals, literalId, hseen]

theorem rangeReport_eq {ty : Ty} (hdomain : domainOf ty = some domain) :
    rangeReport ⟨magnitude, negated, some ty⟩ =
      if domain.contains (signed negated magnitude) then none
      else some (outOfRange magnitude negated domain) := by
  simp only [rangeReport, Option.bind_some, hdomain, literal_eq]
  split <;> rfl

variable {B : BodyLowering} {ty : Ty} {written : WrittenExpr}

theorem run_signedLiteral (hdomain : domainOf ty = some domain)
    (h : domain.contains (signed negated magnitude) = true) :
    EmitsConst (valueOf (signedLiteral B ty magnitude negated)) ty
      (signed negated magnitude) := by
  intro a
  have hvalue : (domainOf ty).bind (·.literal magnitude negated) =
      some (signed negated magnitude) := by
    rw [hdomain, Option.bind_some, literal_eq, if_pos h]
  unfold valueOf signedLiteral
  rw [hvalue]
  rfl

theorem run_intLiteral {L : Lowering} (hdomain : domainOf ty = some domain)
    (h : domain.contains (signed false magnitude) = true) :
    EmitsConst (valueOf (intLiteral L ty magnitude)) ty (signed false magnitude) := by
  intro a
  have hvalue : (domainOf ty).bind (·.literal magnitude false) =
      some (signed false magnitude) := by
    rw [hdomain, Option.bind_some, literal_eq, if_pos h]
  unfold valueOf intLiteral
  rw [hvalue]
  rfl

theorem isInteger_of_domainOf (hdomain : domainOf ty = some domain) : isInteger ty = true := by
  cases ty <;> first | rfl | cases hdomain

theorem emitsConst_of_literal {next : ℕ} (h : written.literal = some (magnitude, negated))
    (hty : B.exprTypes (literalId negated next) = some ty)
    (hdomain : domainOf ty = some domain)
    (hcontains : domain.contains (signed negated magnitude) = true) :
    EmitsConst (lowerExpr B (written.lower next).1) ty (signed negated magnitude) ∧
      EmitsConst (lowerExprHinted B ty (written.lower next).1
        (lowerExpr B (written.lower next).1)) ty (signed negated magnitude) := by
  have hconst := run_signedLiteral (B := B) hdomain hcontains
  rw [lower_of_literal next h]
  cases negated with
  | false =>
    have hrun : EmitsConst (lowerExpr B (.int ⟨next⟩ magnitude)) ty
        (signed false magnitude) := by
      intro a
      rw [lowerExpr, exprTy]
      have hty' : B.exprTypes (HirExpr.int ⟨next⟩ magnitude).id = some ty := hty
      rw [hty']
      exact hconst a
    refine ⟨hrun, ?_⟩
    simp only [Bool.false_eq_true, if_false, lowerExprHinted, isInteger_of_domainOf hdomain,
      if_true]
    exact hconst
  | true =>
    have hrun : EmitsConst (lowerExpr B (.unary ⟨next⟩ .neg (.int ⟨next + 1⟩ magnitude))) ty
        (signed true magnitude) := by
      intro a
      rw [lowerExpr, lowerUnary, exprTy]
      have hty' : B.exprTypes (HirExpr.int ⟨next + 1⟩ magnitude).id = some ty := hty
      rw [hty']
      have hfold : (domainOf ty).isSome = true := by rw [hdomain, Option.isSome_some]
      simp only [orFail, pure_bind, if_pos hfold]
      exact hconst a
    exact ⟨hrun, hrun⟩

/-- An integer literal that the scanner reads keeps its value: the range check reports it
where its type does not hold what its digits denote under its minus, and nothing where the
type holds it; and what is accepted is lowered to the one constant of the type that
denotes it, as an operand, under a hint, and as a pattern. -/
theorem integer_literal_keeps_value {text rest : List Char} {base : IntBase}
    (hscan : scanNumber text = (.int magnitude base, rest))
    (hwritten : written.literal = some (magnitude, negated))
    {next : ℕ} {seen : Literals}
    (hfresh : ∀ id ∈ seen.negated, id.index ∉ Set.Ico next (written.lower next).2)
    (hty : B.exprTypes (literalId negated next) = some ty)
    (hdomain : domainOf ty = some domain) (L : Lowering) :
    ∃ group, IsLiteral base text group rest ∧
      let value := signed negated (magnitudeOf base.radix group)
      let e := (written.lower next).1
      let reports := checkIntegerLiteralRanges (checkLiterals B.exprTypes e seen).ints
      (domain.contains value = false → outOfRange magnitude negated domain ∈ reports) ∧
      (domain.contains value = true → reports = checkIntegerLiteralRanges seen.ints) ∧
      (reports = [] → domain.min ≤ value ∧ value ≤ domain.max ∧
        readAs domain (BitVec.ofInt domain.bits value) = value ∧
        EmitsConst (lowerExpr B e) ty value ∧
        EmitsConst (lowerExprHinted B ty e (lowerExpr B e)) ty value ∧
        (negated = false → EmitsConst (valueOf (literalConst L (.int magnitude) ty)) ty value)) := by
  obtain ⟨group, hgroup, hmagnitude⟩ := Lexer.scanNumber_eq_int hscan
  refine ⟨group, hgroup, ?_⟩
  rw [← hmagnitude]
  have hints := checkLiterals_of_literal B.exprTypes seen hwritten hfresh
  have hreports : checkIntegerLiteralRanges
      (checkLiterals B.exprTypes (written.lower next).1 seen).ints =
        checkIntegerLiteralRanges seen.ints ++
          (rangeReport ⟨magnitude, negated, some ty⟩).toList := by
    rw [hints, hty, checkIntegerLiteralRanges, checkIntegerLiteralRanges, List.filterMap_append]
    cases hreport : rangeReport ⟨magnitude, negated, some ty⟩ <;> simp [hreport]
  rw [rangeReport_eq hdomain] at hreports
  intro value e reports
  refine ⟨fun hout => ?_, fun hin => ?_, fun haccepted => ?_⟩
  · rw [if_neg (by simpa using hout)] at hreports
    simp [reports, e, hreports]
  · rw [if_pos hin] at hreports
    simpa [reports, e] using hreports
  · have hin : domain.contains value = true := by
      by_contra hout
      rw [if_neg hout, show checkIntegerLiteralRanges _ = [] from haccepted] at hreports
      simp at hreports
    have hbounds := hin
    rw [IntDomain.contains, Bool.and_eq_true, decide_eq_true_eq, decide_eq_true_eq] at hbounds
    obtain ⟨hplain, hhinted⟩ := emitsConst_of_literal hwritten hty hdomain hin
    refine ⟨hbounds.1, hbounds.2, readAs_ofInt (bits_pos hdomain) hin, hplain, hhinted, ?_⟩
    rintro rfl
    exact run_intLiteral hdomain hin

end

/-- A body whose every expression is an `i8`. -/
def byteLowering : BodyLowering := { pointLowering with exprTypes := fun _ => some .i8 }

/-- `-(0x8_0)` -/
def leastByte : WrittenExpr := .unary .neg (.paren (.int 128))

theorem integer_literal_keeps_value_least :
    ∃ group, IsLiteral .hex ['0', 'x', '8', '_', '0', ';'] group [';'] ∧
      let value := signed true (magnitudeOf 16 group)
      let e := (leastByte.lower 0).1
      let reports := checkIntegerLiteralRanges (checkLiterals byteLowering.exprTypes e {}).ints
      ((⟨"i8", true, 8⟩ : IntDomain).contains value = false →
        outOfRange 128 true ⟨"i8", true, 8⟩ ∈ reports) ∧
      ((⟨"i8", true, 8⟩ : IntDomain).contains value = true →
        reports = checkIntegerLiteralRanges []) ∧
      (reports = [] → IntDomain.min ⟨"i8", true, 8⟩ ≤ value ∧
        value ≤ IntDomain.max ⟨"i8", true, 8⟩ ∧
        readAs ⟨"i8", true, 8⟩ (BitVec.ofInt 8 value) = value ∧
        EmitsConst (lowerExpr byteLowering e) .i8 value ∧
        EmitsConst (lowerExprHinted byteLowering .i8 e (lowerExpr byteLowering e)) .i8 value ∧
        (true = false → EmitsConst
          (valueOf (literalConst byteLowering.toLowering (.int 128) .i8)) .i8 value)) := by
  have hscan : scanNumber ['0', 'x', '8', '_', '0', ';'] = (.int 128 .hex, [';']) := by decide
  have hwritten : leastByte.literal = some (128, true) := rfl
  have hfresh : ∀ id ∈ ({} : Literals).negated, id.index ∉ Set.Ico 0 (leastByte.lower 0).2 :=
    by simp
  exact integer_literal_keeps_value hscan hwritten hfresh rfl rfl byteLowering.toLowering

end Napitia.Lower
