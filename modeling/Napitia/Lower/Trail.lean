import Napitia.Lower.Body
import Napitia.Lower.Leaves

/-!
# What the lowering of a body comes to

Read off the body and the tables, without a builder: the observations that lowering
begins and the exits whose cleanup it asks for, as often as it comes to them, and whether
it goes on behind an expression. The arms of a `match` count once for each leaf of the
decision, the arms of a `handle` once.
-/
namespace Napitia.Lower
open Nir
open Hir (ExprId HirHandleArmKind)
open Hir.Body

/-- What a piece of lowering begins, and the exits it asks the cleanup of. -/
structure Record where
  begun : List ObservationId := []
  exits : List ExprId := []

instance : Append Record := ⟨fun r s => ⟨r.begun ++ s.begun, r.exits ++ s.exits⟩⟩

/-- An expression ends with a value, or it has left: as a rule its block is ended then,
but not where a type says of an expression that it never has a value, and it has one. -/
inductive Ending where
  | value | closed | dangling
  deriving DecidableEq, Repr

namespace Ending

/-- Behind a statement there is only the question whether the block is ended. -/
def asStmt : Ending → Ending
  | .closed => .closed
  | .value | .dangling => .value

/-- A value that nothing takes. -/
def lost : Ending → Ending
  | .closed => .closed
  | .value | .dangling => .dangling

end Ending

/-- What a part comes to, and whether it comes to an observation once more for every leaf
of a decision that reaches it. -/
structure Trail extends Record where
  ending : Ending := .value
  doubled : Bool := false

namespace Trail

/-- A part, and what follows where it has a value. -/
def andThen (t u : Trail) : Trail :=
  match t.ending with
  | .value => ⟨t.toRecord ++ u.toRecord, u.ending, t.doubled || u.doubled⟩
  | .closed | .dangling => t

/-- A part whose block is left for another. -/
def joined (t : Trail) : Trail := { t with ending := .value }

def asStmt (t : Trail) : Trail := { t with ending := t.ending.asStmt }

def lost (t : Trail) : Trail := { t with ending := t.ending.lost }

/-- An exit that is asked for on the way. -/
def passes (id : ExprId) : Trail := { exits := [id] }

/-- An exit that is taken. -/
def leaves (id : ExprId) : Trail := { exits := [id], ending := .closed }

/-- Several parts in blocks of their own, one lowered after the other. -/
def all (ts : List Trail) : Trail where
  begun := ts.flatMap (·.begun)
  exits := ts.flatMap (·.exits)
  ending := (ts.getLast?.map (·.ending)).getD .value
  doubled := ts.any (·.doubled)

/-- A block, with the exit at its end where that is open. -/
def inScope (id : ExprId) (t : Trail) : Trail :=
  match t.ending with
  | .closed => t
  | .value | .dangling => { t with exits := t.exits ++ [id] }

end Trail

section
variable (B : BodyLowering)

def isAffineExpr (id : ExprId) : Bool := ((B.exprTypes id).map B.isAffine).getD false

def isNeverExpr (id : ExprId) : Bool := B.exprTypes id = some .never

def typeOf (id : ExprId) : Ty := (B.exprTypes id).getD .error

/-- The variants a fallible call may raise. -/
def raisedBy : HirExpr → List ItemId
  | .call _ (.function _ item) _ => (B.functionRaises item).getD []
  | _ => []

/-- Every case of these variants. -/
def raisedCases (raised : List ItemId) : List (ItemId × ℕ) :=
  raised.flatMap fun variant =>
    (List.range (((B.module.findVariant variant).map (·.cases.length)).getD 0)).map (variant, ·)

/-- The failure arms in the order the cases first reach them. -/
def enteredArms (kinds : List HirHandleArmKind) : List ℕ → List (ItemId × ℕ) → List ℕ
  | _, [] => []
  | seen, key :: rest =>
    match handlerOf kinds key with
    | none => enteredArms kinds seen rest
    | some index =>
      if index ∈ seen then enteredArms kinds seen rest
      else index :: enteredArms kinds (index :: seen) rest

/-- The failure arms that are reached, then the success arm. -/
def dispatchTrail (operand : HirExpr) (kinds : List HirHandleArmKind) (arms : List Trail) : Trail :=
  .all ((enteredArms kinds [] (raisedCases B (raisedBy B operand))).map (arms.getD · {}) ++
    (((kinds.zip arms).find? (·.1.isSuccess)).map (·.2)).toList)

/-- One leaf of a decision. -/
def leafTrail (arms : List Trail) : Option ℕ → Trail
  | none => { ending := .closed }
  | some index => arms.getD index {}

/-- The leaves of a decision, one after the other. -/
def leavesTrail (arms : List Trail) (ls : List (Option ℕ)) : Trail := .all (ls.map (leafTrail arms))

/-- Two leaves reach an arm that begins an observation. -/
def reachedTwice (arms : List Trail) (ls : List (Option ℕ)) : Bool :=
  ls.any fun l => decide (1 < ls.count l) && !(leafTrail arms l).begun.isEmpty

def decisionTrail (scrutinee : HirExpr) (patterns : List HirPattern) (arms : List Trail) : Trail :=
  let ls := B.matchLeaves (typeOf B scrutinee.id) patterns
  { leavesTrail arms ls with
    doubled := (leavesTrail arms ls).doubled || reachedTwice arms ls }

/-- An arm whose value joins after the construct, or is lost if nothing joins there. -/
def armTrail (never : Bool) (id : ExprId) (body : Trail) : Trail :=
  if never then body.lost else body.andThen (.leaves id)

/-- Behind a construct whose type is never, its last part decides. -/
def afterParts (never : Bool) (t : Trail) : Trail := if never then t.lost else t.joined

def ifTrail (never : Bool) (thenBranch elseBranch : Trail) : Trail :=
  afterParts never (.all [thenBranch, elseBranch])

variable (retTy : Ty)

mutual

def exprTrail : HirExpr → Trail
  | .int .. | .float .. | .str .. | .char .. | .bool .. | .localVar .. | .function ..
  | .caseRef .. | .protocolMethodRef .. | .cast .. | .error .. => {}
  | .unary _ _ operand => exprTrail operand
  | .binary _ op left right =>
    (exprTrail left).andThen (match op with
      | .and | .or => (exprTrail right).joined
      | _ => exprTrail right)
  | .assign _ target _ value =>
    match target with
    | .localVar .. => exprTrail value
    | .field id _ =>
      if isAffineExpr B id then exprTrail value
      else (exprTrail target).andThen (exprTrail value)
    | _ => (exprTrail target).andThen (exprTrail value)
  | .call _ callee args => (exprTrail callee).andThen (argsTrail args)
  | .field id base => if isAffineExpr B id then {} else exprTrail base
  | .tryExpr id operand =>
    (exprTrail operand).andThen { exits := (raisedBy B operand).map fun _ => id }
  | .ifExpr id condition thenBranch elseBranch =>
    (exprTrail condition).andThen
      (ifTrail (isNeverExpr B id) (scopedTrail thenBranch) (elseTrail elseBranch))
  | .matchExpr id scrutinee arms =>
    (exprTrail scrutinee).andThen (afterParts (isNeverExpr B id)
      (decisionTrail B scrutinee (armPatterns arms) (armTrails (isNeverExpr B id) arms)))
  | .block body => scopedTrail body
  | .returnExpr id none => .leaves id
  | .returnExpr id (some value) =>
    if B.isAffine retTy then sinkTrail value (exprTrail value)
    else (exprTrail value).andThen (.leaves id)
  | .breakExpr id _ | .continueExpr id => .leaves id
  | .recordLiteral _ _ fields => fieldsTrail fields
  | .raise id operand => (exprTrail operand).andThen (.leaves id)
  | .handle id operand arms =>
    (exprTrail operand).andThen (afterParts (isNeverExpr B id)
      (dispatchTrail B operand (handleKinds arms) (handlerTrails (isNeverExpr B id) arms)))

def argsTrail : List HirExpr → Trail
  | [] => {}
  | arg :: rest => (exprTrail arg).andThen (argsTrail rest)

def fieldsTrail : List HirFieldInit → Trail
  | [] => {}
  | .mk _ value :: rest => (exprTrail value).andThen (fieldsTrail rest)

def elseTrail : Option HirElse → Trail
  | none => {}
  | some (.block body) => scopedTrail body
  | some (.ifExpr inner) => exprTrail inner

def scopedTrail : HirBlock → Trail
  | .mk id statements tail => ((stmtsTrail statements).andThen (tailTrail tail)).inScope id

def scopedVoidTrail : HirBlock → Trail
  | .mk id statements tail =>
    ((stmtsTrail statements).andThen (tailTrail tail).asStmt).inScope id

def tailTrail : Option HirExpr → Trail
  | none => {}
  | some tail => exprTrail tail

def stmtsTrail : List HirStmt → Trail
  | [] => {}
  | stmt :: rest => (stmtTrail stmt).andThen (stmtsTrail rest)

def stmtTrail : HirStmt → Trail
  | .binding _ value => (exprTrail value).asStmt
  | .expr expr => (exprTrail expr).asStmt
  | .defer expr => (exprTrail expr).asStmt
  | .drop expr =>
    if (B.cleanupEdges expr.id).isSome then .passes expr.id else (exprTrail expr).asStmt
  | .whileLoop condition body =>
    ((exprTrail condition).andThen (scopedVoidTrail body).joined).asStmt
  | .loop body => (scopedVoidTrail body).joined
  | .observe id _ _ body => ({ begun := [id] } : Trail).andThen (scopedVoidTrail body)

def armBodyTrail : HirMatchArmBody → Trail
  | .expr expr => exprTrail expr
  | .block (.mk _ statements tail) => (stmtsTrail statements).andThen (tailTrail tail)

def armTrails (never : Bool) : List HirMatchArm → List Trail
  | [] => []
  | .mk _ body :: rest => armTrail never body.id (armBodyTrail body) :: armTrails never rest

def handlerTrails (never : Bool) : List HirHandleArm → List Trail
  | [] => []
  | .mk _ body :: rest => armTrail never body.id (armBodyTrail body) :: handlerTrails never rest

/-- An expression whose value is returned, leaf by leaf. -/
def sinkTrail : HirExpr → Trail → Trail
  | .block body, _ => sinkBlockTrail body
  | .matchExpr _ scrutinee arms, _ =>
    (exprTrail scrutinee).andThen
      (decisionTrail B scrutinee (armPatterns arms) (sinkArmTrails arms)).lost
  | .handle _ operand arms, _ =>
    (exprTrail operand).andThen
      (dispatchTrail B operand (handleKinds arms) (sinkHandlerTrails arms)).lost
  | .ifExpr _ condition thenBranch elseBranch, _ =>
    (exprTrail condition).andThen
      (ifTrail true (sinkBlockTrail thenBranch) (sinkElseTrail elseBranch))
  | e, t => t.andThen (.leaves e.id)

def sinkBlockTrail : HirBlock → Trail
  | .mk _ statements tail => (stmtsTrail statements).andThen (sinkTailTrail tail)

def sinkTailTrail : Option HirExpr → Trail
  | none => { ending := .closed }
  | some tail => sinkTrail tail (exprTrail tail)

def sinkElseTrail : Option HirElse → Trail
  | none => { ending := .closed }
  | some (.block body) => sinkBlockTrail body
  | some (.ifExpr inner) => sinkTrail inner (exprTrail inner)

def sinkArmTrails : List HirMatchArm → List Trail
  | [] => []
  | .mk _ body :: rest => sinkArmTrail body :: sinkArmTrails rest

def sinkHandlerTrails : List HirHandleArm → List Trail
  | [] => []
  | .mk _ body :: rest => sinkArmTrail body :: sinkHandlerTrails rest

def sinkArmTrail : HirMatchArmBody → Trail
  | .expr expr => sinkTrail expr (exprTrail expr)
  | .block body => sinkBlockTrail body

end

/-- A whole body. The value of a returned resource leaves at its leaves; another body
ends with the exit of its own, where its end is reached. -/
def bodyTrail : HirBlock → Trail
  | .mk id statements tail =>
    if B.isAffine retTy then sinkBlockTrail B retTy (.mk id statements tail)
    else ((stmtsTrail B retTy statements).andThen (tailTrail B retTy tail)).andThen (.leaves id)

end

end Napitia.Lower
