import Mathlib.Data.Nat.Digits.Lemmas
import Mathlib.Data.List.Infix

/-!
# Numbers in the source

The scanner reads the magnitude of an integer literal in the base its prefix names. An
underscore stands between two digits. What `f64` a decimal literal with a point or an
exponent denotes is not modelled: its text is kept.
-/
namespace Napitia.Lexer

inductive IntBase where
  | decimal | binary | octal | hex
  deriving DecidableEq, Repr

def IntBase.radix : IntBase → ℕ
  | .decimal => 10
  | .binary => 2
  | .octal => 8
  | .hex => 16

/-- What a literal of the base starts with. -/
def IntBase.marker : IntBase → List Char
  | .decimal => []
  | .binary => ['0', 'b']
  | .octal => ['0', 'o']
  | .hex => ['0', 'x']

inductive NumberToken where
  | int (value : ℕ) (base : IntBase)
  | float (clean : List Char)
  /-- A diagnostic of the code `N0002`, with its message and its label. -/
  | error (message label : String)
  deriving DecidableEq, Repr

/-- The digit a character denotes, letters in either case behind the ten. -/
def digitValue (c : Char) : Option ℕ :=
  if '0' ≤ c ∧ c ≤ '9' then some (c.toNat - '0'.toNat)
  else if 'a' ≤ c ∧ c ≤ 'z' then some (c.toNat - 'a'.toNat + 10)
  else if 'A' ≤ c ∧ c ≤ 'Z' then some (c.toNat - 'A'.toNat + 10)
  else none

def toDigit (radix : ℕ) (c : Char) : Option ℕ := (digitValue c).filter (· < radix)

def isDigit (radix : ℕ) (c : Char) : Bool := (toDigit radix c).isSome

def inGroup (radix : ℕ) (c : Char) : Bool := isDigit radix c || c = '_'

/-- No underscore at either end, and no two of them side by side. -/
def wellGrouped (group : List Char) : Bool :=
  group ≠ [] ∧ group.head? ≠ some '_' ∧ group.getLast? ≠ some '_' ∧ ¬ ['_', '_'] <:+: group

/-- A run of digits and underscores, whether it is well grouped, and the text behind it. -/
def scanDigitGroup (radix : ℕ) (text : List Char) : List Char × Bool × List Char :=
  let group := text.takeWhile (inGroup radix)
  (group, wellGrouped group, text.dropWhile (inGroup radix))

/-- The digits read as a `u128`, or nothing where they overflow it. -/
def fromStrRadix (radix : ℕ) (digits : List Char) : Option ℕ :=
  if digits = [] then none
  else digits.foldlM (fun acc c => do
    let digit ← toDigit radix c
    let value := acc * radix + digit
    if value < 2 ^ 128 then some value else none) 0

def withoutUnderscores (text : List Char) : List Char := text.filter (· ≠ '_')

def tooLarge : NumberToken :=
  .error "integer literal out of range"
    "too large for any Napitia integer type, and too large for the compiler to read"

/-- The digits of a literal, with the text behind the marker of its base. -/
def scanRadixInt (base : IntBase) (text : List Char) : NumberToken × List Char :=
  let (group, ok, rest) := scanDigitGroup base.radix text
  if !ok then
    (.error "malformed integer literal"
      "expected digits after the base prefix, with underscores only between digits", rest)
  else
    match fromStrRadix base.radix (withoutUnderscores group) with
    | some value => (.int value base, rest)
    | none => (tooLarge, rest)

/-- A point with a digit behind it: the digits of a fraction. -/
def scanFraction : List Char → Option (List Char × Bool × List Char)
  | '.' :: c :: text =>
    if isDigit 10 c then
      let (group, ok, rest) := scanDigitGroup 10 (c :: text)
      some ('.' :: group, ok, rest)
    else none
  | _ => none

/-- The sign of an exponent, and the text behind it. -/
def scanSign : List Char → List Char × List Char
  | '+' :: text => (['+'], text)
  | '-' :: text => (['-'], text)
  | text => ([], text)

/-- An `e` with a digit behind it or behind a sign: the digits of an exponent. -/
def scanExponent : List Char → Option (List Char × Bool × List Char)
  | e :: text =>
    if e = 'e' ∨ e = 'E' then
      let (sign, digits) := scanSign text
      match digits with
      | c :: behind =>
        if isDigit 10 c then
          let (group, ok, rest) := scanDigitGroup 10 (c :: behind)
          some (e :: sign ++ group, ok, rest)
        else none
      | [] => none
    else none
  | [] => none

/-- A decimal literal, an integer where neither a point nor an exponent follows. -/
def scanDecimal (text : List Char) : NumberToken × List Char :=
  let (group, ok, rest) := scanDigitGroup 10 text
  let (fraction, fractionOk, rest') := (scanFraction rest).getD ([], true, rest)
  let (exponent, exponentOk, rest'') := (scanExponent rest').getD ([], true, rest')
  if !(ok && fractionOk && exponentOk) then
    (.error "malformed numeric literal" "underscore separators must sit directly between digits",
      rest'')
  else if fraction ≠ [] ∨ exponent ≠ [] then
    (.float (withoutUnderscores (group ++ fraction ++ exponent)), rest'')
  else
    match fromStrRadix 10 (withoutUnderscores group) with
    | some value => (.int value .decimal, rest'')
    | none => (tooLarge, rest'')

/-- A number at the start of a text, which is a digit. -/
def scanNumber : List Char → NumberToken × List Char
  | '0' :: 'b' :: text => scanRadixInt .binary text
  | '0' :: 'o' :: text => scanRadixInt .octal text
  | '0' :: 'x' :: text => scanRadixInt .hex text
  | text => scanDecimal text

/-! ### What the digits denote -/

/-- The number that digits denote in a base, underscores left out. -/
def magnitudeOf (radix : ℕ) (group : List Char) : ℕ :=
  Nat.ofDigits radix ((withoutUnderscores group).filterMap (toDigit radix)).reverse

/-- The text is an integer literal of the base, and another text behind it. -/
structure IsLiteral (base : IntBase) (text group rest : List Char) : Prop where
  split : text = base.marker ++ group ++ rest
  grouped : wellGrouped group = true
  digits : ∀ c ∈ group, inGroup base.radix c = true
  ends : ∀ c, rest.head? = some c → inGroup base.radix c = false

section
variable {radix : ℕ} {digits group : List Char}

theorem foldlM_eq_some {value acc : ℕ} (h : digits.foldlM (fun acc c => do
      let digit ← toDigit radix c
      let value := acc * radix + digit
      if value < 2 ^ 128 then some value else none) acc = some value) :
    value = acc * radix ^ (digits.filterMap (toDigit radix)).length +
      Nat.ofDigits radix (digits.filterMap (toDigit radix)).reverse := by
  induction digits generalizing acc with
  | nil =>
    cases h
    simp
  | cons c digits ih =>
    rw [List.foldlM_cons] at h
    obtain ⟨next, hnext, h⟩ := Option.bind_eq_some_iff.mp h
    obtain ⟨digit, hdigit, hnext⟩ := Option.bind_eq_some_iff.mp hnext
    dsimp only at hnext
    split at hnext
    · cases hnext
      rw [ih h, List.filterMap_cons_some hdigit, List.reverse_cons, Nat.ofDigits_append,
        Nat.ofDigits_singleton, List.length_cons, List.length_reverse, pow_succ]
      ring
    · cases hnext

theorem fromStrRadix_eq_some {value : ℕ} (h : fromStrRadix radix digits = some value) :
    value = Nat.ofDigits radix (digits.filterMap (toDigit radix)).reverse := by
  unfold fromStrRadix at h
  split at h
  · cases h
  · simpa using foldlM_eq_some h

theorem isLiteral_of_scanDigitGroup {base : IntBase} {text : List Char}
    (hok : wellGrouped (text.takeWhile (inGroup base.radix)) = true) :
    IsLiteral base (base.marker ++ text) (text.takeWhile (inGroup base.radix))
      (text.dropWhile (inGroup base.radix)) where
  split := by rw [List.append_assoc, List.takeWhile_append_dropWhile]
  grouped := hok
  digits := fun c hc => List.all_eq_true.mp List.all_takeWhile c hc
  ends := fun c hc => by
    have hhead := List.head?_dropWhile_not (inGroup base.radix) text
    rw [hc] at hhead
    simpa using hhead

theorem scanRadixInt_eq_int {base base' : IntBase} {text rest : List Char} {value : ℕ}
    (h : scanRadixInt base text = (.int value base', rest)) :
    base' = base ∧ ∃ group, IsLiteral base (base.marker ++ text) group rest ∧
      value = magnitudeOf base.radix group := by
  by_cases hok : wellGrouped (text.takeWhile (inGroup base.radix)) = true
  · cases hvalue : fromStrRadix base.radix
        (withoutUnderscores (text.takeWhile (inGroup base.radix))) with
    | none => simp [scanRadixInt, scanDigitGroup, tooLarge, hok, hvalue] at h
    | some found =>
      simp only [scanRadixInt, scanDigitGroup, hok, hvalue, Bool.not_true, Bool.false_eq_true,
        if_false] at h
      cases h
      exact ⟨rfl, _, isLiteral_of_scanDigitGroup hok, fromStrRadix_eq_some hvalue⟩
  · simp [scanRadixInt, scanDigitGroup, hok] at h

theorem scanFraction_ne_nil {text : List Char} {found : List Char × Bool × List Char}
    (h : scanFraction text = some found) : found.1 ≠ [] := by
  unfold scanFraction at h
  split at h
  · split at h
    · cases h
      exact List.cons_ne_nil _ _
    · cases h
  · cases h

theorem scanExponent_ne_nil {text : List Char} {found : List Char × Bool × List Char}
    (h : scanExponent text = some found) : found.1 ≠ [] := by
  cases text with
  | nil => cases h
  | cons e text =>
    rw [scanExponent] at h
    split at h
    · cases hdigits : (scanSign text).2 with
      | nil =>
        simp only [hdigits] at h
        cases h
      | cons c behind =>
        simp only [hdigits] at h
        split at h
        · cases h
          exact List.cons_ne_nil _ _
        · cases h
    · cases h

/-- An integer read in decimal is the magnitude of its digits. -/
theorem scanDecimal_eq_int {base : IntBase} {text rest : List Char} {value : ℕ}
    (h : scanDecimal text = (.int value base, rest)) :
    base = .decimal ∧ ∃ group, IsLiteral .decimal text group rest ∧
      value = magnitudeOf 10 group := by
  by_cases hok : wellGrouped (text.takeWhile (inGroup 10)) = true
  · cases hfraction : scanFraction (text.dropWhile (inGroup 10)) with
    | some found =>
      have hne := scanFraction_ne_nil hfraction
      simp only [scanDecimal, scanDigitGroup, hfraction, Option.getD_some, hne, ne_eq,
        not_false_eq_true, true_or, if_true] at h
      split at h <;> cases h
    | none =>
      cases hexponent : scanExponent (text.dropWhile (inGroup 10)) with
      | some found =>
        have hne := scanExponent_ne_nil hexponent
        simp only [scanDecimal, scanDigitGroup, hfraction, Option.getD_none, hexponent,
          Option.getD_some, hne, ne_eq, not_false_eq_true, or_true, if_true] at h
        split at h <;> cases h
      | none =>
        cases hvalue : fromStrRadix 10 (withoutUnderscores (text.takeWhile (inGroup 10))) with
        | none =>
          simp [scanDecimal, scanDigitGroup, tooLarge, hfraction, hexponent, hok, hvalue] at h
        | some found =>
          simp only [scanDecimal, scanDigitGroup, hfraction, Option.getD_none, hexponent, hok,
            hvalue, Bool.and_self, Bool.not_true, Bool.false_eq_true, if_false, ne_eq,
            not_true_eq_false, or_self] at h
          cases h
          have hliteral : IsLiteral .decimal text _ _ := isLiteral_of_scanDigitGroup hok
          exact ⟨rfl, _, hliteral, fromStrRadix_eq_some hvalue⟩
  · simp only [scanDecimal, scanDigitGroup, hok, Bool.false_and, Bool.not_false, if_true] at h
    cases h

theorem scanNumber_eq_int {base : IntBase} {text rest : List Char} {value : ℕ}
    (h : scanNumber text = (.int value base, rest)) :
    ∃ group, IsLiteral base text group rest ∧ value = magnitudeOf base.radix group := by
  unfold scanNumber at h
  split at h
  · obtain ⟨rfl, hliteral⟩ := scanRadixInt_eq_int h
    exact hliteral
  · obtain ⟨rfl, hliteral⟩ := scanRadixInt_eq_int h
    exact hliteral
  · obtain ⟨rfl, hliteral⟩ := scanRadixInt_eq_int h
    exact hliteral
  · obtain ⟨rfl, hliteral⟩ := scanDecimal_eq_int h
    exact hliteral

end

end Napitia.Lexer
