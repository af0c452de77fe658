import Napitia.Lib.Ledger
import Napitia.Resourceck.Visits

/-!
# What an exit owes

The cleanup pending at an exit is what the scopes being left have registered, and what
each of these owes depends on the states of its places alone. Every expression and every
block of a body has an account of the exits recorded under its id; where it is the end of
a block, what it owes are places of the block's own locals.
-/
namespace Napitia.Resourceck
open Nir Lower Stateful Ledger
open Hir (ExprId HirHandleArmKind)
open Hir.Body

/-! ### Owed cleanup -/

section
variable (C : FlowContext)

/-- What one registered action still owes. -/
def owedBy (states : PlaceStates) : CleanupAction → List CleanupAction
  | .drop place => (C.structuralDropTargets states place).map .drop
  | .defer id => [.defer id]

def owed (states : PlaceStates) (pending : List CleanupAction) : List CleanupAction :=
  pending.flatMap (owedBy C states)

/-- Every place to be destroyed is one of these locals or a part of one. -/
def DropsOnly (locals : List LocalId) (actions : List CleanupAction) : Prop :=
  ∀ place, .drop place ∈ actions → place.root ∈ locals

variable {C}

theorem snapshotCleanup_eq (s : FlowState) (marker : ℕ) : snapshotCleanup C s marker =
    owed C s.states (s.pendingCleanup.take (s.pendingCleanup.length - marker)) := by
  unfold snapshotCleanup owed
  congr 1

theorem snapshotCleanup_zero (s : FlowState) :
    snapshotCleanup C s 0 = owed C s.states s.pendingCleanup := by
  rw [snapshotCleanup_eq, Nat.sub_zero, List.take_length]

theorem snapshotCleanup_pushed {s : FlowState} {pushed pending : List CleanupAction}
    (h : s.pendingCleanup = pushed ++ pending) :
    snapshotCleanup C s pending.length = owed C s.states pushed := by
  rw [snapshotCleanup_eq, h, List.length_append, Nat.add_sub_cancel, List.take_left]

theorem owed_append (states : PlaceStates) (pushed pending : List CleanupAction) :
    owed C states (pushed ++ pending) = owed C states pushed ++ owed C states pending :=
  List.flatMap_append

theorem structuralDropTargetsWithin_root (states : PlaceStates) (n : ℕ) {place target : LocalPlace}
    (h : target ∈ C.structuralDropTargetsWithin states n place) : target.root = place.root := by
  induction n generalizing place with
  | zero =>
    rw [FlowContext.structuralDropTargetsWithin, List.mem_singleton] at h
    rw [h]
  | succ n ih =>
    rw [FlowContext.structuralDropTargetsWithin] at h
    split at h
    · simp at h
    · split at h
      · simp at h
      · split at h
        · rw [List.mem_singleton.mp h]
        · cases List.mem_append.mp h with
          | inl h =>
            obtain ⟨field, -, hfield⟩ := List.mem_flatMap.mp h
            split at hfield
            · have hroot := ih hfield
              exact hroot
            · simp at hfield
          | inr h =>
            split at h
            · rw [List.mem_singleton.mp h]
            · simp at h

theorem DropsOnly.nil (locals : List LocalId) : DropsOnly locals [] := by
  simp [DropsOnly]

theorem DropsOnly.append {locals : List LocalId} {as bs : List CleanupAction}
    (ha : DropsOnly locals as) (hb : DropsOnly locals bs) : DropsOnly locals (as ++ bs) := by
  intro place h
  cases List.mem_append.mp h with
  | inl h => exact ha place h
  | inr h => exact hb place h

theorem DropsOnly.mono {locals locals' : List LocalId} {actions : List CleanupAction}
    (h : DropsOnly locals actions) (hle : locals ⊆ locals') : DropsOnly locals' actions :=
  fun place hplace => hle (h place hplace)

theorem DropsOnly.owed {locals : List LocalId} {pushed : List CleanupAction}
    (h : DropsOnly locals pushed) (states : PlaceStates) : DropsOnly locals (owed C states pushed) := by
  intro place hplace
  obtain ⟨action, haction, howed⟩ := List.mem_flatMap.mp hplace
  cases action with
  | drop whole =>
    obtain ⟨target, htarget, heq⟩ := List.mem_map.mp howed
    cases heq
    rw [structuralDropTargetsWithin_root _ _ htarget]
    exact h whole haction
  | defer id => simp [owedBy] at howed

end

/-! ### Accounts -/

/-- The id an exit is recorded under, and the locals of the block it is the end of, if it
is the end of one. -/
abbrev Account := ExprId × Option (List LocalId)

def Fits (scope : Option (List LocalId)) (actions : List CleanupAction) : Prop :=
  ∀ locals, scope = some locals → DropsOnly locals actions

/-- The locals the statements of a block declare. -/
def stmtLocals : List HirStmt → List LocalId
  | [] => []
  | .binding binding _ :: rest => binding :: stmtLocals rest
  | _ :: rest => stmtLocals rest

/-- The account of a block that starts with these locals. -/
def blockAccount (locals : List LocalId) (b : HirBlock) : Account :=
  (b.id, some (locals ++ stmtLocals b.statements))

def exprAccount : HirExpr → Account
  | .block b => blockAccount [] b
  | e => (e.id, none)

mutual

/-- The accounts of what an expression is made of. -/
def partsOfExpr : HirExpr → List Account
  | .int .. | .float .. | .str .. | .char .. | .bool .. | .function .. | .caseRef ..
  | .protocolMethodRef .. | .error .. | .localVar .. | .continueExpr .. => []
  | .unary _ _ e | .cast _ e | .tryExpr _ e | .raise _ e | .field _ e => exprAccount e :: partsOfExpr e
  | .binary _ _ left right =>
    (exprAccount left :: partsOfExpr left) ++ (exprAccount right :: partsOfExpr right)
  | .assign _ target _ value =>
    (exprAccount value :: partsOfExpr value) ++ (exprAccount target :: partsOfExpr target)
  | .call _ callee args => (exprAccount callee :: partsOfExpr callee) ++ partsOfArgs args
  | .ifExpr _ condition thenBranch elseBranch =>
    (exprAccount condition :: partsOfExpr condition) ++
      ((blockAccount [] thenBranch :: partsOfBlock thenBranch) ++ partsOfElse elseBranch)
  | .matchExpr _ scrutinee arms =>
    (exprAccount scrutinee :: partsOfExpr scrutinee) ++ partsOfMatchArms arms
  | .block b => partsOfBlock b
  | .returnExpr _ none | .breakExpr _ none => []
  | .returnExpr _ (some e) | .breakExpr _ (some e) => exprAccount e :: partsOfExpr e
  | .recordLiteral _ _ fields => partsOfFields fields
  | .handle _ operand arms => (exprAccount operand :: partsOfExpr operand) ++ partsOfHandleArms arms

def partsOfElse : Option HirElse → List Account
  | none => []
  | some (.block b) => blockAccount [] b :: partsOfBlock b
  | some (.ifExpr e) => exprAccount e :: partsOfExpr e

def partsOfArgs : List HirExpr → List Account
  | [] => []
  | e :: rest => (exprAccount e :: partsOfExpr e) ++ partsOfArgs rest

def partsOfFields : List HirFieldInit → List Account
  | [] => []
  | .mk _ e :: rest => (exprAccount e :: partsOfExpr e) ++ partsOfFields rest

/-- The account of an arm's body and its parts; the arm has bound these locals. -/
def armAccounts (locals : List LocalId) : HirMatchArmBody → List Account
  | .expr e => exprAccount e :: partsOfExpr e
  | .block b => blockAccount locals b :: partsOfBlock b

def partsOfMatchArms : List HirMatchArm → List Account
  | [] => []
  | .mk pattern body :: rest => armAccounts (patternLocals pattern) body ++ partsOfMatchArms rest

def partsOfHandleArms : List HirHandleArm → List Account
  | [] => []
  | .mk kind body :: rest => armAccounts (handleLocals kind) body ++ partsOfHandleArms rest

def partsOfBlock : HirBlock → List Account
  | .mk _ statements none => partsOfStmts statements
  | .mk _ statements (some tail) => partsOfStmts statements ++ (exprAccount tail :: partsOfExpr tail)

def partsOfStmts : List HirStmt → List Account
  | [] => []
  | st :: rest => partsOfStmt st ++ partsOfStmts rest

def partsOfStmt : HirStmt → List Account
  | .binding _ e | .expr e | .defer e | .drop e => exprAccount e :: partsOfExpr e
  | .whileLoop condition body =>
    (exprAccount condition :: partsOfExpr condition) ++ (blockAccount [] body :: partsOfBlock body)
  | .loop body => blockAccount [] body :: partsOfBlock body
  | .observe _ source _ body =>
    (exprAccount source :: partsOfExpr source) ++ (blockAccount [] body :: partsOfBlock body)

end

/-- The accounts of a whole function. -/
def functionAccounts (f : HirFunction) : List Account :=
  blockAccount (f.params.map (·.binding)) f.body :: partsOfBlock f.body

end Napitia.Resourceck
