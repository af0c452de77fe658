import Napitia.Hir
import Napitia.Lower.Context

/-!
# How each construct is lowered

What the lowering of an expression or a statement adds around the lowering of its parts.
The parts come as computations of their own: each runs where the construct reaches it,
and a part that leaves the block for good ends the construct there. What a debug build
asserts about the block it appends to is left out.
-/
namespace Napitia.Lower
open Nir
open Hir (ExprId HirHandleArmKind)
open Hir.Body

/-! ### Joining parts -/

/-- What follows an expression that has a value. -/
def onValue (x : Build LoweredExpr) (next : ValueId → Build LoweredExpr) : Build LoweredExpr := do
  match ← x with
  | .value value => next value
  | .diverged => pure .diverged

def valueOf (x : Build ValueId) : Build LoweredExpr := do
  let value ← x
  pure (.value value)

def unitValue : Build ValueId := pushValue .unit (.const .unit)

def currentTerminated : Build Bool := do
  let fb ← get
  pure ((fb.blocks[fb.current.index]?.bind (·.terminator)).isSome)

/-- The values of parts evaluated in order, or nothing where one of them leaves. -/
def collectValues : List (Build LoweredExpr) → Build (Option (List ValueId))
  | [] => pure (some [])
  | x :: rest => do
    match ← x with
    | .diverged => pure none
    | .value value => do
      let values ← collectValues rest
      pure (values.map (value :: ·))

def onValues (xs : List (Build LoweredExpr)) (next : List ValueId → Build LoweredExpr) :
    Build LoweredExpr := do
  match ← collectValues xs with
  | some values => next values
  | none => pure .diverged

def storeInto (slot value : ValueId) (after : BlockId) : Build Unit := do
  pushInstruction (.store slot value .observe)
  terminate (.branch after)

/-- A branch whose value, if it has one, goes into the slot of the construct. -/
def joinInto (slot : ValueId) (after : BlockId) (x : Build LoweredExpr) : Build Unit := do
  match ← x with
  | .value value => storeInto slot value after
  | .diverged => pure ()

section
variable (B : BodyLowering)

/-! ### Operands -/

def isInteger : Ty → Bool
  | .i8 | .i16 | .i32 | .i64 | .isize | .u8 | .u16 | .u32 | .u64 | .usize => true
  | _ => false

def isNumeric (ty : Ty) : Bool := isInteger ty || ty = .f32 || ty = .f64

/-- A bare literal takes the type it is expected to have. -/
def lowerExprHinted (hint : Ty) (e : HirExpr) (lowered : Build LoweredExpr) : Build LoweredExpr :=
  match e with
  | .int _ value => if isInteger hint then valueOf (signedLiteral B hint value false) else lowered
  | .float _ value => if isNumeric hint then valueOf (pushValue hint (.const (.float value))) else lowered
  | _ => lowered

def unaryKind : UnaryOp → ValueId → ValueKind
  | .neg, a => .neg a
  | .not, a | .bitNot, a => .not a

def lowerUnary (op : UnaryOp) (operand : HirExpr) (lowered : Build LoweredExpr) :
    Build LoweredExpr := do
  let ty ← exprTy B operand
  let general := onValue (lowerExprHinted B ty operand lowered) fun value =>
    valueOf (pushValue ty (unaryKind op value))
  match op, operand with
  | .neg, .int _ value =>
    if (Numeric.domainOf ty).isSome then valueOf (signedLiteral B ty value true) else general
  | _, _ => general

/-- The instruction of an operator that evaluates both operands. -/
def binaryKind : BinaryOp → ValueId → ValueId → Option ValueKind
  | .add, a, b => some (.add a b)
  | .sub, a, b => some (.sub a b)
  | .mul, a, b => some (.mul a b)
  | .div, a, b => some (.div a b)
  | .rem, a, b => some (.rem a b)
  | .bitAnd, a, b => some (.and a b)
  | .bitOr, a, b => some (.or a b)
  | .bitXor, a, b => some (.xor a b)
  | .shl, a, b => some (.shl a b)
  | .shr, a, b => some (.shr a b)
  | .eq, a, b => some (.eq a b)
  | .ne, a, b => some (.ne a b)
  | .lt, a, b => some (.lt a b)
  | .le, a, b => some (.le a b)
  | .gt, a, b => some (.gt a b)
  | .ge, a, b => some (.ge a b)
  | .and, _, _ | .or, _, _ | .range, _, _ | .rangeInclusive, _, _ => none

def isComparison : BinaryOp → Bool
  | .eq | .ne | .lt | .le | .gt | .ge => true
  | _ => false

/-- `&&` stops at a left operand that is false, `||` at one that is true. -/
def lowerShortCircuit (left right : Build LoweredExpr) (shortOnTrue : Bool) : Build LoweredExpr :=
  onValue left fun leftValue => do
    let rightBlock ← newBlock
    let afterBlock ← newBlock
    let resultSlot ← allocSlot .bool
    pushInstruction (.store resultSlot leftValue .observe)
    terminate (if shortOnTrue then .condBranch leftValue afterBlock rightBlock
      else .condBranch leftValue rightBlock afterBlock)
    switchTo rightBlock
    joinInto resultSlot afterBlock right
    switchTo afterBlock
    valueOf (pushValue .bool (.load resultSlot))

/-- The result of an operator on two values of the operand type. -/
def emitOperator (op : BinaryOp) (operandTy : Ty) (a b : ValueId) : Build LoweredExpr :=
  match binaryKind op a b with
  | some kind => valueOf (pushValue (if isComparison op then .bool else operandTy) kind)
  | none => throw (unsupported "range expressions (`..`/`..=`)")

def lowerOperator (op : BinaryOp) (left right : HirExpr) (lowerLeft lowerRight : Build LoweredExpr) :
    Build LoweredExpr := do
  let operandTy ← exprTy B left
  onValue (lowerExprHinted B operandTy left lowerLeft) fun leftValue =>
    onValue (lowerExprHinted B operandTy right lowerRight) fun rightValue =>
      emitOperator op operandTy leftValue rightValue

def lowerBinary (op : BinaryOp) (left right : HirExpr) (lowerLeft lowerRight : Build LoweredExpr) :
    Build LoweredExpr :=
  match op with
  | .and => lowerShortCircuit lowerLeft lowerRight false
  | .or => lowerShortCircuit lowerLeft lowerRight true
  | .range | .rangeInclusive => throw (unsupported "range expressions (`..`/`..=`)")
  | _ => lowerOperator B op left right lowerLeft lowerRight

/-! ### Locals, fields and assignments -/

def lowerLocal (binding : LocalId) : Build LoweredExpr := do
  match (← get).localBindings.lookup binding with
  | none => throw (internalError
      ("local " ++ debugId "LocalId" binding.index ++ " is read before it was ever bound"))
  | some current => valueOf (loadCurrent B binding current)

def lowerField (e base : HirExpr) (lowerBase : Build LoweredExpr) : Build LoweredExpr := do
  let fieldTy ← exprTy B e
  if B.isAffine fieldTy then
    match ← resolvePlaceExpr B e with
    | none => throw (internalError ("an affine field access has no resolvable structural place, " ++
        "but resourceck already accepted this program"))
    | some place => do
      let (nirPlace, ty) ← resolveNirPlace B place
      valueOf (pushValue ty (.placeRead nirPlace (fieldReadMode B e.id)))
  else
    onValue lowerBase fun baseValue => do
      let baseTy ← exprTy B base
      let (record, index) ← resolveField B baseTy (B.nameOf e.id)
      valueOf (pushValue fieldTy (.recordField baseValue record index))

/-- The instruction of a compound assignment. -/
def assignKind : AssignOp → ValueId → ValueId → Option ValueKind
  | .add, a, b => some (.add a b)
  | .sub, a, b => some (.sub a b)
  | .mul, a, b => some (.mul a b)
  | .div, a, b => some (.div a b)
  | .rem, a, b => some (.rem a b)
  | .bitAnd, a, b => some (.and a b)
  | .bitOr, a, b => some (.or a b)
  | .bitXor, a, b => some (.xor a b)
  | .shl, a, b => some (.shl a b)
  | .shr, a, b => some (.shr a b)
  | .assign, _, _ => none

/-- An assignment to a field that is a resource of its own. -/
def lowerAssignField (target value : HirExpr) (lowerValue : Build LoweredExpr) :
    Build LoweredExpr := do
  match ← resolvePlaceExpr B target with
  | none => throw (internalError
      "an affine field assignment target has no resolvable structural place")
  | some place => do
    let (nirPlace, ty) ← resolveNirPlace B place
    onValue (lowerExprHinted B ty value lowerValue) fun assigned => do
      pushInstruction (.storePlace nirPlace assigned)
      valueOf unitValue

def debugBinding : Option LocalBinding → String
  | none => "None"
  | some (.direct value) => "Some(Direct(" ++ debugId "ValueId" value.index ++ "))"
  | some (.slot value) => "Some(Slot(" ++ debugId "ValueId" value.index ++ "))"

/-- The value an assignment leaves in a slot: the new one, or a combination with the old. -/
def assignSlot (slot : ValueId) (ty : Ty) (op : AssignOp) (value : ExprId) (assigned : ValueId) :
    Build Unit := do
  if op = .assign then
    let transfers ← lookupConsumeMode B value ty "an assignment value"
    pushInstruction (.store slot assigned (if transfers then .transfer else .observe))
  else
    let loaded ← pushValue ty (.load slot)
    match assignKind op loaded assigned with
    | none => pure ()
    | some kind => do
      let final ← pushValue ty kind
      pushInstruction (.store slot final .observe)

def lowerAssignLocal (binding : LocalId) (op : AssignOp) (value : HirExpr)
    (lowerValue : Build LoweredExpr) : Build LoweredExpr := do
  let current := (← get).localBindings.lookup binding
  match current with
  | some (.slot slot) => do
    let targetTy ← orFail (B.localTypes binding) ("assignment target " ++
      debugId "LocalId" binding.index ++ " has no type recorded by typeck")
    onValue (lowerExprHinted B targetTy value lowerValue) fun assigned => do
      assignSlot B slot targetTy op value.id assigned
      valueOf unitValue
  | _ => throw (internalError ("assignment target " ++ debugId "LocalId" binding.index ++
      " must be a mutable local's slot, found " ++ debugBinding current))

def lowerAssign (target : HirExpr) (op : AssignOp) (value : HirExpr)
    (lowerTarget lowerValue : Build LoweredExpr) : Build LoweredExpr :=
  match target with
  | .localVar _ binding => lowerAssignLocal B binding op value lowerValue
  | .field .. => do
    let targetTy ← exprTy B target
    if B.isAffine targetTy then lowerAssignField B target value lowerValue
    else onValue lowerTarget fun _ => onValue lowerValue fun _ => valueOf unitValue
  | _ => onValue lowerTarget fun _ => onValue lowerValue fun _ => valueOf unitValue

/-! ### Calls and constructions -/

/-- An argument with the type its parameter has at this call, given up if the parameter
takes it. -/
def lowerArgument (context : String) (hint : Ty) (arg : HirExpr) (lowered : Build LoweredExpr) :
    Build LoweredExpr :=
  onValue (lowerExprHinted B hint arg lowered) fun value => do
    let transfers ← lookupConsumeMode B arg.id hint context
    valueOf (moveIfTransferred B value hint transfers)

/-- The substitution of a generic declaration's parameters at one use. -/
def useSubst (params : List TypeParamId) (args : List Ty) : Subst :=
  (params.zip args).foldl (fun subst p => subst.insert p.1 p.2) ∅

/-- The arguments of a call with their parameter types substituted. -/
def lowerArguments (context : String) (params : List Ty) (subst : Subst) (args : List HirExpr)
    (lowered : List (Build LoweredExpr)) : List (Build LoweredExpr) :=
  ((params.zip args).zip lowered).map fun p =>
    lowerArgument B context (substitute p.1.1 subst) p.1.2 p.2

/-- A construction whose parts are given up where they are written. -/
def lowerParts (params : List Ty) (subst : Subst) (args : List HirExpr)
    (lowered : List (Build LoweredExpr)) : List (Build LoweredExpr) :=
  ((params.zip args).zip lowered).map fun p =>
    lowerExprHinted B (substitute p.1.1 subst) p.1.2 p.2

def lowerVariantConstruct (variant : ItemId) (case : ℕ) (id : ExprId) (args : List HirExpr)
    (lowered : List (Build LoweredExpr)) (callTy : Build Ty) : Build LoweredExpr := do
  let layout ← orFail ((B.module.findVariant variant).bind fun layout =>
      layout.cases[case]?.map fun c => (layout.typeParams.map (·.1), c.payload))
    ("variant construction references unknown variant/case (" ++ debugId "ItemId" variant.index ++
      ", " ++ toString case ++ ")")
  let typeArgs ← resolveCallTypeArgs B id layout.1 "a variant construction"
  if args.length ≠ layout.2.length then
    throw (internalError ("variant construction for case " ++ toString case ++ " of " ++
      debugId "ItemId" variant.index ++ " has " ++ toString args.length ++ " argument(s), expected " ++
      toString layout.2.length))
  onValues (lowerParts B layout.2 (useSubst layout.1 typeArgs) args lowered) fun payload => do
    let ty ← callTy
    valueOf (pushValue ty (.variantCreate variant case typeArgs payload))

def lowerProtocolCall (calleeId : ExprId) (protocol : ItemId) (method : ℕ) (e : HirExpr)
    (lowered : List (Build LoweredExpr)) : Build LoweredExpr :=
  onValues lowered fun args => do
    let evidence ← orFail (B.protocolCallEvidence e.id)
      "protocol call has no recorded call-site evidence from typeck's capability solver"
    let ty ← exprTy B e
    valueOf (pushValue ty
      (.protocolCall protocol (B.writtenArguments calleeId) method evidence args))

def lowerFunctionCall (item : ItemId) (e : HirExpr) (args : List HirExpr)
    (lowered : List (Build LoweredExpr)) : Build LoweredExpr := do
  let sig ← lookupFunctionSig B item "a call"
  let typeArgs ← resolveCallTypeArgs B e.id sig.typeParams "a call"
  if sig.params.length ≠ args.length then
    throw (internalError ("a call to " ++ debugId "ItemId" item.index ++ " has " ++
      toString args.length ++ " argument(s) but its own resolved signature declares " ++
      toString sig.params.length))
  let subst := useSubst sig.typeParams typeArgs
  onValues (lowerArguments B "a call argument" sig.params subst args lowered) fun values => do
    let requirements ← lookupFunctionRequirements B item "a call"
    let evidence ← resolveCallEvidence B e.id requirements "a call"
    let ty ← exprTy B e
    valueOf (pushValue ty (.call item typeArgs values evidence))

def lowerCall (e callee : HirExpr) (args : List HirExpr) (lowerCallee : Build LoweredExpr)
    (lowered : List (Build LoweredExpr)) : Build LoweredExpr :=
  match callee with
  | .caseRef _ variant case => lowerVariantConstruct B variant case e.id args lowered (exprTy B e)
  | .protocolMethodRef id protocol method => lowerProtocolCall B id protocol method e lowered
  | .function _ item => lowerFunctionCall B item e args lowered
  | _ => onValue lowerCallee fun _ => onValues lowered fun _ =>
    throw (internalError "call target does not resolve to a function")

/-- The first field index that is out of range, or used before. -/
def checkFieldIndices (record : ItemId) (count : ℕ) : List ℕ → List ℕ → Build Unit
  | _, [] => pure ()
  | seen, index :: rest =>
    if count ≤ index then
      throw (internalError ("record construction's field index " ++ toString index ++
        " is out of range for " ++ debugId "ItemId" record.index ++ "'s " ++ toString count ++
        " declared field(s)"))
    else if index ∈ seen then
      throw (internalError ("record construction reuses field index " ++ toString index ++
        " more than once"))
    else checkFieldIndices record count (index :: seen) rest

def lowerRecordLiteral (record : ItemId) (e : HirExpr) (fields : List (ℕ × HirExpr))
    (lowered : List (Build LoweredExpr)) : Build LoweredExpr := do
  let layout ← orFail (B.module.findRecord record)
    ("record construction references unknown record " ++ debugId "ItemId" record.index)
  checkFieldIndices record layout.fields.length [] (fields.map (·.1))
  match (List.range layout.fields.length).find? fun index => index ∉ fields.map (·.1) with
  | some missing => throw (internalError
      ("record construction is missing field " ++ toString missing))
  | none => do
    let params := layout.typeParams.map (·.1)
    let typeArgs ← resolveCallTypeArgs B e.id params "a record construction"
    let declared := fields.map fun field => ((layout.fields[field.1]?).map (·.2)).getD .unit
    onValues (lowerParts B declared (useSubst params typeArgs) (fields.map (·.2)) lowered)
      fun values => do
        -- Evaluated as written, stored as declared.
        let written := (fields.map (·.1)).zip values
        let ordered := (List.range layout.fields.length).filterMap fun index => written.lookup index
        let ty ← exprTy B e
        valueOf (pushValue ty (.recordCreate record typeArgs ordered))

end

end Napitia.Lower
