import Napitia.Interpreter.Table

/-!
# The shape of runtime values

What a declaration says about a runtime value: which types are affine, which
field and payload types an instantiation has, and whether a value really
inhabits the type its position declares. Nothing here writes anything.

Every walk that follows the source's depth guard is given the budget that
remains of `maxGenericDepth` in place of the depth it has reached.
-/
namespace Napitia.Interpreter
open Nir

def kindName : Value → String
  | .int _ => "an integer"
  | .float _ => "a float"
  | .bool _ => "a bool"
  | .char _ => "a char"
  | .str _ => "a string"
  | .unit => "unit"
  | .record .. => "a record"
  | .variant .. => "a variant"
  | .resource _ => "a resource"
  | .moved => "a moved field"
  | .dropped => "a dropped field"

def unexecutableNumericName (ty : Ty) : Option String :=
  if Numeric.isExecutableNumeric ty then none
  else some (match Numeric.domainOf ty with
    | some domain => domain.name
    | none => "f32")

def unexecutableNumeric (ty : Ty) : InterpreterError :=
  match unexecutableNumericName ty with
  | some name => invalid
      ("a runtime position declares `" ++ name ++ "`, which this interpreter does not execute")
  | none => invalid "a runtime position declares a type this interpreter does not execute"

mutual

/-- Whether a type argument is concrete all the way down. -/
def fullyResolved : Ty → Bool
  | .param _ | .var _ | .never | .error => false
  | .applied _ args => fullyResolvedAll args
  | _ => true

def fullyResolvedAll : List Ty → Bool
  | [] => true
  | ty :: tys => fullyResolved ty && fullyResolvedAll tys

end

mutual

/-- Matches a declared type pattern against a concrete type, extending the
bindings of the pattern's parameters. -/
def typePatternMatches : Ty → Ty → Subst → Bool × Subst
  | .param id, actual, bindings =>
    match bindings.lookup id with
    | some bound => (bound = actual, bindings)
    | none => (true, bindings.insert id actual)
  | .applied expectedItem expectedArgs, .applied actualItem actualArgs, bindings =>
    if expectedItem = actualItem ∧ expectedArgs.length = actualArgs.length then
      typePatternMatchesAll expectedArgs actualArgs bindings
    else (false, bindings)
  | .applied _ _, _, bindings => (false, bindings)
  | .var _, _, bindings | .never, _, bindings | .error, _, bindings => (false, bindings)
  | expected, actual, bindings => (expected = actual, bindings)

/-- Zips the two lists and stops at the first pair that does not match. -/
def typePatternMatchesAll : List Ty → List Ty → Subst → Bool × Subst
  | expected :: es, actual :: as, bindings =>
    match typePatternMatches expected actual bindings with
    | (true, bindings) => typePatternMatchesAll es as bindings
    | (false, bindings) => (false, bindings)
  | _, _, bindings => (true, bindings)

end

/-- The declaration a position requires of the aggregate standing in it. -/
def requiredDeclaration : Option Ty → Except InterpreterError (Option (ItemId × List Ty))
  | none => pure none
  | some (.named item) => pure (some (item, []))
  | some (.applied item args) => pure (some (item, args))
  | some (.param _) | some (.var _) | some .never =>
    throw (invalid "a runtime value fills a position whose declared type was never resolved")
  | some _ => throw (invalid
      "a runtime aggregate or resource stands in a position whose declared type owns nothing")

section
variable (m : Module)

/-- Whether the item names a declared `resource`. -/
def isResource (item : ItemId) : Bool :=
  m.records.any fun entry => entry.1 = item && entry.2.affine

/-- The field types of a record, or the payload types of a variant flattened
across its cases; empty for an unknown item. -/
def itemFieldTypes (item : ItemId) : List Ty :=
  match m.findRecord item with
  | some record => record.fields.map (·.2)
  | none =>
    match m.findVariant item with
    | some variant => variant.cases.flatMap (·.payload)
    | none => []

def typeSubstitution (item : ItemId) (args : List Ty) : Option Subst := do
  let params ← ((m.findRecord item).map fun r => r.typeParams.map (·.1)) <|>
    ((m.findVariant item).map fun v => v.typeParams.map (·.1))
  checkedSubstitution params args

/-- Whether a type is transitively affine. Only a `Named` declaration is cut off
by the visiting list; an instantiation is bounded by the budget alone. -/
def isAffineVisiting : ℕ → Ty → List ItemId → Bool
  | 0, _, _ => false
  | n + 1, .named item, visiting =>
    if isResource m item then true
    else if item ∈ visiting then false
    else (itemFieldTypes m item).any fun fty => isAffineVisiting n fty (item :: visiting)
  | n + 1, .applied item args, visiting =>
    if isResource m item then true
    else match typeSubstitution m item args with
      | none => true
      | some subst => (itemFieldTypes m item).any fun fty =>
          isAffineVisiting n (substitute fty subst) visiting
  | _ + 1, _, _ => false

def isAffine (ty : Ty) : Bool := isAffineVisiting m Limits.maxGenericDepth ty []

def checkedSubstitutionOf (item : ItemId) (typeArgs : List Ty) :
    Except InterpreterError Subst :=
  match typeSubstitution m item typeArgs with
  | some subst => pure subst
  | none => throw (invalid ("a runtime aggregate carries type arguments that disagree with " ++
      "its own declaration's parameter list"))

/-- Whether a runtime value is transitively affine at its own instantiation. -/
def isAffineValue (value : Value) : Except InterpreterError Bool := do
  let decide (item : ItemId) (typeArgs : List Ty) : Except InterpreterError Bool := do
    if isResource m item then pure true
    else
      let subst ← checkedSubstitutionOf m item typeArgs
      pure ((itemFieldTypes m item).any fun fty =>
        isAffineVisiting m Limits.maxGenericDepth (substitute fty subst) [])
  match value with
  | .resource _ => pure true
  | .record item typeArgs _ => decide item typeArgs
  | .variant item typeArgs _ _ => decide item typeArgs
  | _ => pure false

def recordFieldTypes (item : ItemId) (typeArgs : List Ty) :
    Except InterpreterError (List Ty) := do
  match m.findRecord item with
  | none => throw (invalid "a runtime aggregate names a record this module never declared")
  | some record =>
    let subst ← checkedSubstitutionOf m item typeArgs
    pure (record.fields.map fun field => substitute field.2 subst)

def casePayloadTypes (item : ItemId) (typeArgs : List Ty) (case : ℕ) :
    Except InterpreterError (List Ty) := do
  match m.findVariant item with
  | none => throw (invalid "a runtime aggregate names a variant this module never declared")
  | some variant =>
    match variant.cases[case]? with
    | none => throw (invalid
        "a runtime variant value names a case out of range for its own declaration")
    | some layout =>
      let subst ← checkedSubstitutionOf m item typeArgs
      pure (layout.payload.map fun ty => substitute ty subst)

variable (t : ResourceTable)

/-- A walk that collects the identities it has reached and may be refused. -/
abbrev Walk (α : Type) := StateT (List ResourceId) (Except InterpreterError) α

private def primitiveOk (matched : Bool) : Except InterpreterError Unit :=
  if matched then pure ()
  else throw (invalid "a runtime value is of a different kind than its position declares")

/-- No position may declare a numeric type nothing executes. -/
def checkExecutable : Option Ty → Except InterpreterError Unit
  | some ty => if (unexecutableNumericName ty).isSome then throw (unexecutableNumeric ty) else pure ()
  | none => pure ()

/-- A tombstone stands only where something could have been owned. -/
def checkTombstone : Option Ty → Except InterpreterError Unit
  | some ty =>
    if isAffine m ty then pure ()
    else throw (invalid
      "a runtime tombstone stands in a position whose declared type owns nothing")
  | none => pure ()

/-- An aggregate is of the declaration and instantiation its position declares;
`mismatch` is how the refusal words it. -/
def checkDeclaration (mismatch : String) (expected : Option Ty) (item : ItemId)
    (typeArgs : List Ty) : Except InterpreterError Unit := do
  match ← requiredDeclaration expected with
  | some (declaredItem, declaredArgs) =>
    if declaredItem ≠ item ∨ declaredArgs ≠ typeArgs then throw (invalid mismatch) else pure ()
  | none => pure ()

/-- Whether the value inhabits the type its position declares, all the way down,
with no resource identity reached twice. `none` is the root of a graph, which
declares its own identity. -/
def validateValueAgainstTy : ℕ → Value → Option Ty → Walk Unit
  | 0, _, _ =>
    throw (invalid "a runtime value is nested more deeply than this milestone supports")
  | n + 1, value, expected => do
    liftM (checkExecutable expected)
    match value with
    | .moved | .dropped => liftM (checkTombstone m expected)
    | .int _ => liftM (primitiveOk (expected = none ∨ expected = some .i64))
    | .float _ => liftM (primitiveOk (expected = none ∨ expected = some .f64))
    | .bool _ => liftM (primitiveOk (expected = none ∨ expected = some .bool))
    | .char _ => liftM (primitiveOk (expected = none ∨ expected = some .char))
    | .str _ => liftM (primitiveOk (expected = none ∨ expected = some .str))
    | .unit => liftM (primitiveOk (expected = none ∨ expected = some .unit))
    | .record item typeArgs fields => do
      liftM (checkDeclaration ("a runtime record names a different declaration or instantiation " ++
        "than its position declares") expected item typeArgs)
      if isResource m item then
        throw (invalid ("a runtime record value claims a declaration that is a `resource`, " ++
          "which is only ever represented by a handle"))
      let declared ← liftM (recordFieldTypes m item typeArgs)
      if declared.length ≠ fields.length then
        throw (invalid
          "a runtime record value's own field count disagrees with its declaration")
      (fields.zip declared).forM fun p => validateValueAgainstTy n p.1 (some p.2)
    | .variant item typeArgs case payload => do
      liftM (checkDeclaration ("a runtime variant names a different declaration or instantiation " ++
        "than its position declares") expected item typeArgs)
      let declared ← liftM (casePayloadTypes m item typeArgs case)
      if declared.length ≠ payload.length then
        throw (invalid ("a runtime variant value's own payload count disagrees with its active " ++
          "case's declaration"))
      (payload.zip declared).forM fun p => validateValueAgainstTy n p.1 (some p.2)
    | .resource handle => do
      let record ← liftM (t.record handle)
      liftM (checkDeclaration ("a runtime resource handle names a different declaration than its " ++
        "position declares") expected record.item [])
      let seen ← get
      if handle.id ∈ seen then
        throw (invalid ("a runtime value graph reaches the same resource identity twice, either " ++
          "duplicated or through a cycle"))
      set (seen ++ [handle.id])
      let declared ← liftM (recordFieldTypes m record.item [])
      if declared.length ≠ record.fields.length then
        throw (invalid "a runtime resource's own field count disagrees with its declaration")
      (record.fields.zip declared).forM fun p => validateValueAgainstTy n p.1 (some p.2)

def validateOwnedGraph (value : Value) : Except InterpreterError Unit :=
  (validateValueAgainstTy m t Limits.maxGenericDepth value none).run' []

/-- Matches an argument against a possibly partial generic type: a parameter is
a wildcard only at its own position. -/
def argumentMatchesDeclared (value : Value) (declared : Ty) : Except InterpreterError Bool :=
  match declared with
  | .param _ => pure true
  | .var _ | .never | .error => throw (invalid
      "a runtime argument fills a parameter whose declared type was never resolved")
  | .applied expectedItem expectedArgs => do
    let decide (actualItem : ItemId) (actualArgs : List Ty) : Bool :=
      if actualItem ≠ expectedItem ∨ actualArgs.length ≠ expectedArgs.length ∨
          ¬ fullyResolvedAll actualArgs then false
      else (typePatternMatchesAll expectedArgs actualArgs ∅).1
    match value with
    | .record item typeArgs _ => pure (decide item typeArgs)
    | .variant item typeArgs _ _ => pure (decide item typeArgs)
    | .resource handle => pure (decide (← t.record handle).item [])
    | _ => pure false
  | .named expectedItem => do
    match value with
    | .record item _ _ => pure (item = expectedItem)
    | .variant item _ _ _ => pure (item = expectedItem)
    | .resource handle => pure ((← t.record handle).item = expectedItem)
    | _ => pure false
  | .i64 => pure (match value with | .int _ => true | _ => false)
  | .f64 => pure (match value with | .float _ => true | _ => false)
  | .i8 | .i16 | .i32 | .isize | .u8 | .u16 | .u32 | .u64 | .usize | .f32 =>
    throw (unexecutableNumeric declared)
  | .bool => pure (match value with | .bool _ => true | _ => false)
  | .char => pure (match value with | .char _ => true | _ => false)
  | .str => pure (match value with | .str _ => true | _ => false)
  | .unit => pure (match value with | .unit => true | _ => false)

def validateArgument (value : Value) (declared : Ty) : Except InterpreterError Unit := do
  (validateValueAgainstTy m t Limits.maxGenericDepth value none).run' []
  if ← argumentMatchesDeclared t value declared then pure ()
  else throw (invalid ("a runtime argument disagrees with the concrete part of its parameter's " ++
    "declared type"))

end

end Napitia.Interpreter
