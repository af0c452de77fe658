import Napitia.Types

/-!
# Pattern usefulness

The pattern-matrix analysis behind a `match`: whether every value is matched by
some arm, and which arms can never be reached. A boolean and a variant have a
closed set of constructors, which the analysis enumerates; every other type is
open, so that only a catch-all covers it.

The walk is given what remains of the pattern depth limit in place of the depth
it has reached, and threads the step budget of the whole `match`. An integer
literal is a natural number, without the bound of the source's `u128`.
-/
namespace Napitia.Typeck

inductive LiteralKey where
  | int (value : ℕ)
  | str (value : String)
  | char (value : Char)
  deriving DecidableEq, Repr

/-- A pattern with every name resolved. -/
inductive ResolvedPattern where
  | wildcard
  | bool (value : Bool)
  | literal (key : LiteralKey)
  | variant (variant : ItemId) (case : ℕ) (args : List ResolvedPattern)
  deriving Repr

abbrev Row := List ResolvedPattern

/-- The payload types of every declared variant, by case, and its type
parameters. The payload types are the declaration's own. -/
structure VariantSpace where
  payloads : AList (fun _ : ItemId => List (List Ty))
  typeParams : AList (fun _ : ItemId => List TypeParamId)

def maxUsefulnessSteps : ℕ := 100000

inductive Usefulness where
  | useful (witness : Row)
  | notUseful
  | budgetExceeded
  deriving Repr

/-- The witness of a useful row, extended by what the step in front of it chose. -/
def Usefulness.map (f : Row → Row) : Usefulness → Usefulness
  | .useful witness => .useful (f witness)
  | other => other

/-- The constructors of a type. -/
inductive Space where
  | bool
  | variant (item : ItemId) (cases : List (List Ty))
  | openEnded
  deriving Repr

/-- The arguments a variant is applied to, by parameter. -/
def payloadSubst (variants : VariantSpace) (item : ItemId) (args : List Ty) : Subst :=
  (((variants.typeParams.lookup item).getD []).zip args).foldl (fun s p => s.insert p.1 p.2) ∅

/-- Payload types at one instantiation. -/
def instantiate (subst : Subst) (payload : List Ty) : List Ty :=
  if subst.entries.isEmpty then payload else payload.map fun ty => substitute ty subst

/-- The space of a declared variant at the given arguments. -/
def variantSpace (variants : VariantSpace) (item : ItemId) (args : List Ty) : Space :=
  match variants.payloads.lookup item with
  | some cases => .variant item (cases.map (instantiate (payloadSubst variants item args)))
  | none => .openEnded

def space (variants : VariantSpace) : Ty → Space
  | .bool => .bool
  | .named item => variantSpace variants item []
  | .applied item args => variantSpace variants item args
  | _ => .openEnded

/-- The rows that can still match once the first position is the given case. -/
def specializeVariant (matrix : List Row) (item : ItemId) (case arity : ℕ) : List Row :=
  matrix.filterMap fun
    | .wildcard :: rest => some (List.replicate arity .wildcard ++ rest)
    | .variant v c args :: rest => if v = item ∧ c = case then some (args ++ rest) else none
    | _ => none

def specializeBool (matrix : List Row) (value : Bool) : List Row :=
  matrix.filterMap fun
    | .wildcard :: rest => some rest
    | .bool b :: rest => if b = value then some rest else none
    | _ => none

def specializeLiteral (matrix : List Row) (key : LiteralKey) : List Row :=
  matrix.filterMap fun
    | .wildcard :: rest => some rest
    | .literal k :: rest => if k = key then some rest else none
    | _ => none

def defaultMatrix (matrix : List Row) : List Row :=
  matrix.filterMap fun
    | .wildcard :: rest => some rest
    | _ => none

/-- The payload types a variant pattern's arguments stand at: those of its own
declaration, instantiated when the occurrence is of the same variant applied. -/
def patternPayload (variants : VariantSpace) (item : ItemId) (case : ℕ) (ty : Ty) : List Ty :=
  let payload := ((variants.payloads.lookup item).bind (·[case]?)).getD []
  match ty with
  | .applied i args =>
    instantiate (payloadSubst variants item (if i = item then args else [])) payload
  | _ => instantiate (payloadSubst variants item []) payload

/-- A witness with its leading `arity` positions gathered under a case. -/
def gatherCase (item : ItemId) (case arity : ℕ) (witness : Row) : Row :=
  .variant item case (witness.take arity) :: witness.drop arity

/-- The first of several alternatives that is not useless. -/
def tryEach : List (StateM ℕ Usefulness) → StateM ℕ Usefulness
  | [] => pure .notUseful
  | first :: rest => do
    match ← first with
    | .notUseful => tryEach rest
    | other => pure other

/-- Whether the row matches some value that no row of the matrix matches. -/
def isUsefulAtDepth (variants : VariantSpace) :
    ℕ → List Row → Row → List Ty → StateM ℕ Usefulness
  | 0, _, _, _ => pure .budgetExceeded
  | n + 1, matrix, row, tys => do
    if (← get) = 0 then return .budgetExceeded
    modify (· - 1)
    match row, tys with
    | [], _ => pure (if matrix.isEmpty then .useful [] else .notUseful)
    | _ :: _, [] => pure .notUseful
    | .variant item case args :: rest, ty :: tys => do
      let found ← isUsefulAtDepth variants n (specializeVariant matrix item case args.length)
        (args ++ rest) (patternPayload variants item case ty ++ tys)
      pure (found.map (gatherCase item case args.length))
    | .bool b :: rest, _ :: tys => do
      let found ← isUsefulAtDepth variants n (specializeBool matrix b) rest tys
      pure (found.map (.bool b :: ·))
    | .literal key :: rest, _ :: tys => do
      let found ← isUsefulAtDepth variants n (specializeLiteral matrix key) rest tys
      pure (found.map (.literal key :: ·))
    | .wildcard :: rest, ty :: tys =>
      match space variants ty with
      | .bool => tryEach ([false, true].map fun b => do
          let found ← isUsefulAtDepth variants n (specializeBool matrix b) rest tys
          pure (found.map (.bool b :: ·)))
      | .variant item cases => tryEach (cases.zipIdx.map fun p => do
          let found ← isUsefulAtDepth variants n
            (specializeVariant matrix item p.2 p.1.length)
            (List.replicate p.1.length .wildcard ++ rest) (p.1 ++ tys)
          pure (found.map (gatherCase item p.2 p.1.length)))
      | .openEnded => do
        let found ← isUsefulAtDepth variants n (defaultMatrix matrix) rest tys
        pure (found.map (.wildcard :: ·))

def isUseful (variants : VariantSpace) (matrix : List Row) (row : Row) (tys : List Ty) :
    StateM ℕ Usefulness :=
  isUsefulAtDepth variants (Limits.maxPatternDepth + 1) matrix row tys

/-- The verdict on a `match`: a pattern nothing covers, the arms that cannot be
reached, and whether the analysis gave up. -/
structure MatchAnalysis where
  missing : Option ResolvedPattern
  unreachable : List ℕ
  budgetExceeded : Bool
  deriving Repr

/-- What is known after some of the arms. -/
structure ArmsChecked where
  matrix : List Row := []
  unreachable : List ℕ := []
  budgetExceeded : Bool := false

def ArmsChecked.push (checked : ArmsChecked) (pattern : ResolvedPattern) : ArmsChecked :=
  { checked with matrix := checked.matrix ++ [[pattern]] }

def ArmsChecked.mark (checked : ArmsChecked) (i : ℕ) : ArmsChecked :=
  { checked with unreachable := checked.unreachable ++ [i] }

/-- The arms in source order, each against those before it. -/
def checkArms (variants : VariantSpace) (ty : Ty) :
    List (ResolvedPattern × ℕ) → ArmsChecked → StateM ℕ ArmsChecked
  | [], checked => pure checked
  | (pattern, i) :: rest, checked => do
    match ← isUseful variants checked.matrix [pattern] [ty] with
    | .useful _ => checkArms variants ty rest (checked.push pattern)
    | .notUseful => checkArms variants ty rest ((checked.mark i).push pattern)
    | .budgetExceeded => pure { checked with budgetExceeded := true }

def analyzeMatchWithBudget (ty : Ty) (patterns : List ResolvedPattern) (variants : VariantSpace)
    (budget : ℕ) : MatchAnalysis :=
  let (checked, budget) := (checkArms variants ty patterns.zipIdx {}).run budget
  if checked.budgetExceeded then ⟨none, checked.unreachable, true⟩
  else match ((isUseful variants checked.matrix [.wildcard] [ty]).run budget).1 with
    | .useful witness => ⟨some (witness.head?.getD .wildcard), checked.unreachable, false⟩
    | .notUseful => ⟨none, checked.unreachable, false⟩
    | .budgetExceeded => ⟨none, checked.unreachable, true⟩

def analyzeMatch (ty : Ty) (patterns : List ResolvedPattern) (variants : VariantSpace) :
    MatchAnalysis :=
  analyzeMatchWithBudget ty patterns variants maxUsefulnessSteps

end Napitia.Typeck
