import Mathlib.Data.List.Dedup
import Mathlib.Data.List.Sort
import Napitia.Nir

/-!
# Lowering a `match` to a decision tree

The pattern matrix of a `match` compiled column by column into NIR blocks. A row
carries one slot for each pending occurrence: the scrutinee, and one occurrence
for each payload position reached by testing a case. A boolean or variant column
is switched on once; every other column is tested one literal at a time.

The recursion is given what remains of the pattern depth limit in place of the
depth it has reached. How the body of an arm is lowered is a parameter: this
stage only hands it the builder at the point where the body starts. The source
spans are left out.
-/
namespace Napitia.Hir

structure ExprId where
  index : ℕ
  deriving DecidableEq, Repr

end Napitia.Hir

namespace Napitia.Lower
open Nir
open Hir (ExprId)

structure PatternId where
  index : ℕ
  deriving DecidableEq, Repr

structure LocalId where
  index : ℕ
  deriving DecidableEq, Repr

/-- A pattern as name resolution leaves it. Which case a name stands for is
recorded apart from it, by pattern. -/
inductive HirPattern where
  | wildcard (id : PatternId)
  | bind (id : PatternId) (binding : LocalId)
  | variant (id : PatternId) (args : List HirPattern)
  | int (value : ℕ)
  | str (value : String)
  | char (value : Char)
  | bool (value : Bool)
  deriving Repr

/-- A pattern of the source, or a filler for an occurrence the row does not
constrain: one that nothing in the row claims, or one an ancestor bound whole. -/
inductive PatternSlot where
  | real (pattern : HirPattern)
  | wildcard
  | owned
  deriving Repr

structure Occurrence where
  value : ValueId
  ty : Ty
  deriving Repr

/-- The payload position an extracted occurrence was read out of. -/
structure PayloadSource where
  base : ValueId
  variant : ItemId
  case : ℕ
  index : ℕ
  deriving DecidableEq, Repr

structure MatrixRow where
  armIndex : ℕ
  patterns : List PatternSlot
  bindings : List (LocalId × ValueId) := []
  discarded : List Occurrence := []
  decomposed : List (ValueId × ItemId × ℕ) := []
  deriving Repr

inductive LiteralTest where
  | int (value : ℕ)
  | str (value : String)
  | char (value : Char)
  | bool (value : Bool)
  deriving DecidableEq, Repr

inductive Classified where
  | wildcard
  | bind (binding : LocalId)
  | case (variant : ItemId) (case : ℕ) (args : List HirPattern)
  | literal (test : LiteralTest)
  deriving Repr

namespace Classified

def isBool : Classified → Bool
  | .literal (.bool _) => true
  | _ => false

def isCase : Classified → Bool
  | .case .. => true
  | _ => false

def isLiteral (lit : LiteralTest) : Classified → Bool
  | .literal l => l = lit
  | _ => false

end Classified

structure Diagnostic where
  code : String
  message : String
  deriving DecidableEq, Repr

def internalError (message : String) : Diagnostic := ⟨"I0002", message⟩

/-! ### The function builder -/

structure PendingBlock where
  id : BlockId
  instructions : List Instruction := []
  terminator : Option Terminator := none
  deriving Repr

inductive LocalBinding where
  | direct (value : ValueId)
  | slot (value : ValueId)
  deriving DecidableEq, Repr

structure LoopCtx where
  breakTarget : BlockId
  continueTarget : BlockId
  deriving DecidableEq, Repr

/-- A deferred call with its arguments already lowered. -/
structure PendingDefer where
  callee : ItemId
  typeArgs : List Ty
  args : List ValueId
  evidence : List Evidence
  retTy : Ty

/-- A function under construction. The loops it is inside of and the calls it has
deferred stand latest first; `asserted` holds as long as no debug assertion has failed. -/
structure FnBuilder where
  nextValue : ℕ := 0
  localBindings : AList (fun _ : LocalId => LocalBinding) := ∅
  blocks : List PendingBlock := [⟨⟨0⟩, [], none⟩]
  current : BlockId := ⟨0⟩
  loopStack : List LoopCtx := []
  returnTy : Ty := .unit
  deferCalls : List (ExprId × PendingDefer) := []
  payloadSources : AList (fun _ : ValueId => PayloadSource) := ∅
  asserted : Bool := true

abbrev Build (α : Type) := StateT FnBuilder (Except Diagnostic) α

def freshValue : Build ValueId := do
  let fb ← get
  set ({ fb with nextValue := fb.nextValue + 1 } : FnBuilder)
  pure ⟨fb.nextValue⟩

def newBlock : Build BlockId := do
  let fb ← get
  set ({ fb with blocks := fb.blocks ++ [⟨⟨fb.blocks.length⟩, [], none⟩] } : FnBuilder)
  pure ⟨fb.blocks.length⟩

def switchTo (id : BlockId) : Build Unit := modify fun fb => { fb with current := id }

/-- The current block has a terminator. -/
def FnBuilder.ended (fb : FnBuilder) : Bool :=
  (fb.blocks[fb.current.index]?.bind (·.terminator)).isSome

/-- A change to the current block, which is asserted to have no terminator. -/
def FnBuilder.onCurrent (fb : FnBuilder) (f : PendingBlock → PendingBlock) : FnBuilder :=
  { fb with blocks := fb.blocks.modify fb.current.index f
            asserted := fb.asserted && !fb.ended }

def pushInstruction (i : Instruction) : Build Unit :=
  modify fun fb => fb.onCurrent fun b => { b with instructions := b.instructions ++ [i] }

def pushValue (ty : Ty) (kind : ValueKind) : Build ValueId := do
  let result ← freshValue
  pushInstruction (.value result ty kind)
  pure result

def allocSlot (ty : Ty) : Build ValueId := pushValue ty .alloc

def terminate (terminator : Terminator) : Build Unit :=
  modify fun fb => fb.onCurrent fun b => { b with terminator := some terminator }

/-! ### Rows -/

/-- What this stage reads of the rest of the compiler: the layouts of the module,
the case typeck resolved each pattern to, and how a type is shown. -/
structure Lowering where
  module : Module
  patternCase : AList (fun _ : PatternId => ItemId × ℕ)
  displayTy : Ty → String

/-- A filler is a wildcard for every decision; a binding that names a case is
that case; a constructor nobody resolved is a case that matches nothing. -/
def Lowering.classify (L : Lowering) : PatternSlot → Classified
  | .wildcard | .owned => .wildcard
  | .real (.wildcard _) => .wildcard
  | .real (.bind id binding) =>
    match L.patternCase.lookup id with
    | some (variant, case) => .case variant case []
    | none => .bind binding
  | .real (.variant id args) =>
    match L.patternCase.lookup id with
    | some (variant, case) => .case variant case args
    | none => .case ⟨2 ^ 32 - 1⟩ (2 ^ 64 - 1) args
  | .real (.int value) => .literal (.int value)
  | .real (.str value) => .literal (.str value)
  | .real (.char value) => .literal (.char value)
  | .real (.bool value) => .literal (.bool value)

namespace MatrixRow

/-- The slot of the column being decided. Every row is as long as there are
pending occurrences. -/
def head (r : MatrixRow) : PatternSlot := r.patterns.headD .wildcard

/-- The row past a literal that was tested. -/
def tested (r : MatrixRow) : MatrixRow := { r with patterns := r.patterns.tail }

/-- The row past an occurrence it binds. -/
def bound (r : MatrixRow) (binding : LocalId) (occ : Occurrence) : MatrixRow :=
  { r with patterns := r.patterns.tail, bindings := r.bindings ++ [(binding, occ.value)] }

/-- The row past an occurrence it does not claim, which is its own to destroy
unless an ancestor bound it whole. -/
def passed (r : MatrixRow) (occ : Occurrence) : MatrixRow :=
  { r with
    patterns := r.patterns.tail
    discarded := match r.head with
      | .owned => r.discarded
      | _ => r.discarded ++ [occ] }

end MatrixRow

section
variable (L : Lowering)

/-- The row past a column that no row tests. -/
def Lowering.untested (occ : Occurrence) (r : MatrixRow) : MatrixRow :=
  match L.classify r.head with
  | .bind binding => r.bound binding occ
  | _ => r.passed occ

/-- The row on the path on which the occurrence is the given literal. -/
def Lowering.keepLiteral (lit : LiteralTest) (occ : Occurrence) (r : MatrixRow) :
    Option MatrixRow :=
  match L.classify r.head with
  | .literal l => if l = lit then some r.tested else none
  | .wildcard => some (r.passed occ)
  | .bind binding => some (r.bound binding occ)
  | .case .. => none

/-- The row on the path on which the occurrence is of the given case. -/
def Lowering.keepCase (item : ItemId) (case arity : ℕ) (occ : Occurrence) (r : MatrixRow) :
    Except Diagnostic (Option MatrixRow) :=
  let rest := r.patterns.tail
  match L.classify r.head with
  | .case variant c args =>
    if variant = item ∧ c = case then
      if args.length ≠ arity then
        throw (internalError ("variant pattern for case " ++ toString case ++ " of ItemId(" ++
          toString item.index ++ ") has " ++ toString args.length ++
          " sub-pattern(s), expected " ++ toString arity))
      else pure (some { r with
        patterns := args.map .real ++ rest
        decomposed := r.decomposed ++ [(occ.value, item, case)] })
    else pure none
  | .bind binding => pure (some { r with
      patterns := List.replicate arity .owned ++ rest
      bindings := r.bindings ++ [(binding, occ.value)] })
  | .wildcard =>
    let slot : PatternSlot := match r.head with
      | .owned => .owned
      | _ => .wildcard
    pure (some { r with patterns := List.replicate arity slot ++ rest })
  | .literal _ => pure none

/-- The payload positions a winning row claims out of one of its shells: bound,
discarded, or taken apart further. -/
def MatrixRow.claims (r : MatrixRow) (sources : AList (fun _ : ValueId => PayloadSource))
    (shell : ValueId) (variant : ItemId) (case : ℕ) : List (ℕ × ValueId) :=
  let claimed := r.bindings.map (·.2) ++ r.discarded.map (·.value) ++ r.decomposed.map (·.1)
  let taken := claimed.filterMap fun value => do
    let source ← sources.lookup value
    if source.base = shell ∧ source.variant = variant ∧ source.case = case then
      some (source.index, value)
    else none
  (taken.insertionSort fun a b =>
    a.1 < b.1 ∨ (a.1 = b.1 ∧ a.2.index ≤ b.2.index)).dedup

/-- One decomposition for each shell the winning row took apart, outermost first. -/
def emitVariantDecomposition (winner : MatrixRow) : Build Unit :=
  winner.decomposed.forM fun (shell, variant, case) => do
    let sources := (← get).payloadSources
    pushInstruction (.decomposeVariant shell variant case
      (winner.claims sources shell variant case))

/-- Whether a type is transitively affine, from this stage's own layouts. -/
def Lowering.isAffineVisiting : ℕ → Ty → List ItemId → Bool
  | 0, _, _ => false
  | n + 1, .named item, visiting =>
    if ((L.module.findRecord item).map (·.affine)).getD false then true
    else if item ∈ visiting then false
    else (fieldTypes item).any fun fty => isAffineVisiting n fty (item :: visiting)
  | n + 1, .applied item args, visiting =>
    if ((L.module.findRecord item).map (·.affine)).getD false then true
    else
      let params := ((L.module.findRecord item).map fun r => r.typeParams.map (·.1)) <|>
        ((L.module.findVariant item).map fun v => v.typeParams.map (·.1))
      match params.bind (checkedSubstitution · args) with
      | none => true
      | some subst => (fieldTypes item).any fun fty =>
          isAffineVisiting n (substitute fty subst) visiting
  | _ + 1, _, _ => false
where
  fieldTypes (item : ItemId) : List Ty :=
    match L.module.findRecord item with
    | some record => record.fields.map (·.2)
    | none =>
      match L.module.findVariant item with
      | some variant => variant.cases.flatMap (·.payload)
      | none => []

def Lowering.isAffine (ty : Ty) : Bool := L.isAffineVisiting Limits.maxGenericDepth ty []

/-- Everything an arm does before its body: its locals are bound, the shells it
took apart are decomposed, and what it left unclaimed is destroyed in reverse. -/
def enterArm (winner : MatrixRow) : Build Unit := do
  modify fun fb => { fb with
    localBindings := winner.bindings.foldl
      (fun bindings b => bindings.insert b.1 (.direct b.2)) fb.localBindings }
  emitVariantDecomposition winner
  winner.discarded.reverse.forM fun occ =>
    if L.isAffine occ.ty then pushInstruction (.drop occ.value) else pure ()

/-- The one validated constant an unsigned literal denotes in a type. -/
def intLiteral (ty : Ty) (magnitude : ℕ) : Build ValueId := do
  match (Numeric.domainOf ty).bind (·.literal magnitude false) with
  | some value => pushValue ty (.const (.int value))
  | none => throw (internalError ("the integer literal `" ++ toString magnitude ++
      "` reached lowering with type `" ++ L.displayTy ty ++
      "`, which cannot hold it; typeck should have already rejected this"))

def literalConst (lit : LiteralTest) (ty : Ty) : Build ValueId :=
  match lit with
  | .int value => intLiteral L ty value
  | .str value => pushValue ty (.const (.str value))
  | .char value => pushValue ty (.const (.char value))
  | .bool value => pushValue ty (.const (.bool value))

/-! ### Columns

Each kind of column takes the rest of the decision as a parameter. -/

variable (next : List MatrixRow → List Occurrence → Build Unit)

def lowerBoolSwitch (occ : Occurrence) (rest : List Occurrence) (rows : List MatrixRow) :
    Build Unit := do
  let anyRealTest := rows.any fun r => (L.classify r.head).isBool
  if !anyRealTest then next (rows.map (L.untested occ)) rest
  else
    let thenBlock ← newBlock
    let elseBlock ← newBlock
    terminate (.condBranch occ.value thenBlock elseBlock)
    [(true, thenBlock), (false, elseBlock)].forM fun (value, block) => do
      switchTo block
      let newRows := rows.filterMap (L.keepLiteral (.bool value) occ)
      if newRows.isEmpty then
        throw (internalError "a match's bool switch left a branch with no covering arm")
      next newRows rest

/-- The payload occurrences of a case, each read out of the shell. -/
def extractPayload (occ : Occurrence) (item : ItemId) (case : ℕ) (payload : List Ty) :
    Build (List Occurrence) :=
  payload.zipIdx.mapM fun (ty, index) => do
    let value ← pushValue ty (.variantPayload occ.value item case index)
    modify fun fb => { fb with
      payloadSources := fb.payloadSources.insert value ⟨occ.value, item, case, index⟩ }
    pure ⟨value, ty⟩

def lowerCase (occ : Occurrence) (rest : List Occurrence) (rows : List MatrixRow) (item : ItemId)
    (subst : Subst) (case : ℕ) (layout : CaseLayout) : Build Unit := do
  let payload := layout.payload.map fun ty => substitute ty subst
  let kept ← liftM (rows.mapM (L.keepCase item case payload.length occ))
  let newRows := kept.reduceOption
  if newRows.isEmpty then
    throw (internalError "a match's decision tree left a variant case with no covering arm")
  let occurrences ← extractPayload occ item case payload
  next newRows (occurrences ++ rest)

/-- The declaration an aggregate type names, and its arguments. -/
def declarationOf : Ty → Option (ItemId × List Ty)
  | .named item => some (item, [])
  | .applied item args => some (item, args)
  | _ => none

def lowerVariantSwitch (occ : Occurrence) (rest : List Occurrence) (rows : List MatrixRow) :
    Build Unit :=
  match declarationOf occ.ty with
  | none => throw (internalError "expected a variant-typed occurrence")
  | some (item, args) => do
    let layout := L.module.findVariant item
    let params := (layout.map fun v => v.typeParams.map (·.1)).getD []
    let subst : Subst := (params.zip args).foldl (fun s p => s.insert p.1 p.2) ∅
    let anyRealTest := rows.any fun r => (L.classify r.head).isCase
    if !anyRealTest then next (rows.map (L.untested occ)) rest
    else
      let cases := (layout.map (·.cases)).getD []
      let blocks ← cases.mapM fun _ => newBlock
      terminate (.switch occ.value item blocks)
      (cases.zipIdx.zip blocks).forM fun p => do
        switchTo p.2
        lowerCase L next occ rest rows item subst p.1.2 p.1.1

def lowerLiteralChain (occ : Occurrence) (rest : List Occurrence) (rows : List MatrixRow) :
    Build Unit :=
  match rows.head? with
  | none => throw (internalError "a match's literal chain ran out of candidate arms")
  | some first =>
    match L.classify first.head with
    | .wildcard => next [first.passed occ] rest
    | .bind binding => next [first.bound binding occ] rest
    | .literal lit => do
      let const ← literalConst L lit occ.ty
      let eq ← pushValue .bool (.eq occ.value const)
      let thenBlock ← newBlock
      let elseBlock ← newBlock
      terminate (.condBranch eq thenBlock elseBlock)
      switchTo thenBlock
      next (rows.filterMap (L.keepLiteral lit occ)) rest
      let elseRows := rows.filter fun r => !(L.classify r.head).isLiteral lit
      switchTo elseBlock
      if elseRows.isEmpty then
        throw (internalError "a match's literal chain ran out of rows without a catch-all")
      next elseRows (occ :: rest)
    | .case .. => throw (internalError
        "a variant pattern was tested against a non-variant occurrence")

/-! ### The decision tree -/

/-- Where the value of an arm goes: into the merge slot of the `match`, to the
enclosing return, or nowhere because every arm diverges. -/
inductive ArmSink where
  | merge (slot : ValueId) (after : BlockId)
  | finish
  | diverge
  deriving Repr

variable (lowerArm : ArmSink → ℕ → Build Unit)

def lowerDecision (sink : ArmSink) : ℕ → List MatrixRow → List Occurrence → Build Unit
  | 0, _, _ => throw (internalError "match decision tree is nested too deeply to lower")
  | _ + 1, rows, [] =>
    match rows.head? with
    | none => throw (internalError
        "a match's decision tree ran out of candidate arms with no winner")
    | some winner => do
      enterArm L winner
      lowerArm sink winner.armIndex
  | n + 1, rows, occ :: rest =>
    let scrutineeVariant := (declarationOf occ.ty).bind fun p => L.module.findVariant p.1
    if scrutineeVariant.isSome then
      lowerVariantSwitch L (lowerDecision sink n) occ rest rows
    else match occ.ty with
      | .bool => lowerBoolSwitch L (lowerDecision sink n) occ rest rows
      | _ => lowerLiteralChain L (lowerDecision sink n) occ rest rows

/-- The decision over the arms of a `match`, from its scrutinee. -/
def decideArms (sink : ArmSink) (scrutinee : Occurrence) (arms : List HirPattern) :
    Build Unit :=
  lowerDecision L lowerArm sink (Limits.maxPatternDepth + 1)
    (arms.zipIdx.map fun (pattern, i) => { armIndex := i, patterns := [.real pattern] }) [scrutinee]

inductive LoweredExpr where
  | value (id : ValueId)
  | diverged
  deriving Repr

/-- A `match` whose scrutinee has been lowered: every reachable arm stores its
value in one slot and joins after the decision, unless every arm diverges. -/
def lowerMatch (scrutinee : Occurrence) (arms : List HirPattern) (resultTy : Ty) :
    Build LoweredExpr := do
  if resultTy = .never then
    decideArms L lowerArm .diverge scrutinee arms
    pure .diverged
  else
    let slot ← allocSlot resultTy
    let after ← newBlock
    decideArms L lowerArm (.merge slot after) scrutinee arms
    switchTo after
    let value ← pushValue resultTy (.load slot)
    pure (.value value)

/-- A `match` in a position whose value is handed to the enclosing return on each
arm on its own. -/
def lowerMatchIntoReturnSink (scrutinee : Occurrence) (arms : List HirPattern) :
    Build LoweredExpr := do
  decideArms L lowerArm .finish scrutinee arms
  pure .diverged

end

end Napitia.Lower
