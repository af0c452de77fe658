import Napitia.Resourceck.Scopes

/-!
# One plan for one exit

An exit is recorded under the id of an expression or a block. Some ids are recorded
twice, at two different markers: a block that is the tail of a returned block, and the
body of an arm that is a bare expression. Where nothing is owed between the two markers
both records agree, and the list kept under the end of a block names places of its own
locals only.
-/
namespace Napitia.Resourceck
open Nir Lower Stateful Ledger
open Hir (ExprId HirHandleArmKind)
open Hir.Body

/-! ### Walks and what they record -/

/-- A walk that registers this cleanup and records exits under these accounts. -/
structure Walked (accounts : List Account) (pushed : List CleanupAction) (s t : FlowState) :
    Prop where
  pending : t.pendingCleanup = pushed ++ s.pendingCleanup
  entries : ∃ new, t.cleanupEdges = new ++ s.cleanupEdges ∧ Kept Fits accounts new

/-- A walk that registers nothing and ends with these exits of the expression itself. -/
structure WalkedOwn (id : ExprId) (own : List (List CleanupAction)) (accounts : List Account)
    (s t : FlowState) : Prop where
  pending : t.pendingCleanup = s.pendingCleanup
  entries : ∃ new, t.cleanupEdges = own.map (Prod.mk id) ++ (new ++ s.cleanupEdges) ∧
    Kept Fits accounts new

section
variable {accounts accounts' : List Account} {pushed pushed' : List CleanupAction}
  {own : List (List CleanupAction)} {id : ExprId} {s t u : FlowState}

theorem Walked.trans (h : Walked accounts pushed s t) (h' : Walked accounts' pushed' t u)
    (hapart : Apart accounts accounts') : Walked (accounts ++ accounts') (pushed' ++ pushed) s u := by
  obtain ⟨new, hnew, hkept⟩ := h.entries
  obtain ⟨new', hnew', hkept'⟩ := h'.entries
  refine ⟨?_, new' ++ new, ?_, hkept.append hkept' hapart⟩
  · rw [h'.pending, h.pending, List.append_assoc]
  · rw [hnew', hnew, List.append_assoc]

theorem Quiet.walked (h : Quiet s t) : Walked [] [] s t :=
  ⟨h.pendingCleanup, [], h.cleanupEdges, .nil⟩

theorem Walked.quiet (h : Walked accounts pushed s t) (hq : Quiet t u) :
    Walked accounts pushed s u := by
  obtain ⟨new, hnew, hkept⟩ := h.entries
  exact ⟨hq.pendingCleanup.trans h.pending, new, hq.cleanupEdges.trans hnew, hkept⟩

theorem Quiet.then_walked (hq : Quiet s t) (h : Walked accounts pushed t u) :
    Walked accounts pushed s u := by
  obtain ⟨new, hnew, hkept⟩ := h.entries
  exact ⟨h.pending.trans (by rw [hq.pendingCleanup]), new, hnew.trans (by rw [hq.cleanupEdges]), hkept⟩

theorem Walked.toOwn (h : Walked accounts [] s t) (id : ExprId) : WalkedOwn id [] accounts s t :=
  ⟨h.pending, h.entries⟩

theorem WalkedOwn.record (h : WalkedOwn id own accounts s t) {actions : List CleanupAction}
    (hpending : u.pendingCleanup = t.pendingCleanup)
    (hrecord : u.cleanupEdges = (id, actions) :: t.cleanupEdges) :
    WalkedOwn id (actions :: own) accounts s u := by
  obtain ⟨new, hnew, hkept⟩ := h.entries
  exact ⟨hpending.trans h.pending, new, by rw [hrecord, hnew]; rfl, hkept⟩

theorem WalkedOwn.quiet (h : WalkedOwn id own accounts s t) (hq : Quiet t u) :
    WalkedOwn id own accounts s u := by
  obtain ⟨new, hnew, hkept⟩ := h.entries
  exact ⟨hq.pendingCleanup.trans h.pending, new, hq.cleanupEdges.trans hnew, hkept⟩

theorem WalkedOwn.close {scope : Option (List LocalId)} (h : WalkedOwn id own accounts s t)
    (hfresh : Fresh ((id, scope) :: accounts)) (hsame : ∀ l ∈ own, ∀ l' ∈ own, l = l')
    (hfits : ∀ l ∈ own, Fits scope l) : Walked ((id, scope) :: accounts) [] s t := by
  obtain ⟨new, hnew, hkept⟩ := h.entries
  refine ⟨h.pending, own.map (Prod.mk id) ++ new, ?_, ?_⟩
  · rw [hnew, List.append_assoc]
  · exact hkept.under (fresh_cons.mp hfresh).1 hsame hfits

end

/-! ### Ids recorded twice -/

section
variable (C : FlowContext)

/-- What the end of a block owes, for a block walked from here. -/
def blockEnd (b : HirBlock) (kind : ConsumeKind) (s : FlowState) : List CleanupAction :=
  snapshotCleanup C (after (deferScope (checkBlockCtxInner C b kind)) s) s.pendingCleanup.length

/-- The exits an expression records under its own id. -/
def Own (kind : ConsumeKind) (s : FlowState) : HirExpr → List (List CleanupAction) → Prop
  | .tryExpr id operand, own =>
    own = [snapshotCleanup C (after (checkExprCtxInner C (.tryExpr id operand) kind) s) 0]
  | .block b, own => own = (if C.diverges b.id then [] else [blockEnd C b kind s]) ∧
    ∃ pushed, DropsOnly (stmtLocals b.statements) pushed ∧
      (after (deferScope (checkBlockCtxInner C b kind)) s).pendingCleanup =
        pushed ++ s.pendingCleanup
  | .returnExpr .., own | .raise .., own | .breakExpr .., own | .continueExpr .., own =>
    own.length ≤ 1
  | _, own => own = []

/-- A tail in returned position that is a block owes nothing at its end. -/
def TailClear (s : FlowState) : HirExpr → Prop
  | .block b => C.diverges b.id = false →
    snapshotCleanup C (after (deferScope (checkBlockCtxInner C b .returned)) s) 0 = []
  | _ => True

/-- Whether an arm records its value as an exit of the function. -/
def isLeaf (constructId : ExprId) (kind : ConsumeKind) : Bool :=
  kind = .returned && C.isAffineExpr constructId

def isTry : HirExpr → Bool
  | .tryExpr .. => true
  | _ => false

/-- The body of an arm that is a bare expression: nothing is owed between its two records,
which for a block are its own end and the arm's, and otherwise the function's and the
arm's. -/
def ArmClear (constructId : ExprId) (entry : PlaceStates) (kind : ConsumeKind)
    (locals : List LocalId) (s : FlowState) : HirMatchArmBody → Prop
  | .block _ => True
  | .expr (.block b) => C.diverges b.id = false →
    snapshotCleanup C
      (after (deferScope (checkBlockCtxInner C b kind)) (armStart C entry locals s))
      (if isLeaf C constructId kind then 0 else s.pendingCleanup.length) = []
  | .expr e => isLeaf C constructId kind = false → C.diverges e.id = false →
    (isTry e = true ∨ kind = .returned ∧ isCompound e = false) →
    owed C (after (checkExprCtxInner C e kind) (armStart C entry locals s)).states
      s.pendingCleanup = []

/-- Nothing is owed between two records of one id. -/
def SharedExitClear : Point → FlowState → Prop
  | .block (.mk _ statements (some tail)) .returned, s =>
    ((checkStmts C statements).run s).1 = true → TailClear C (after (checkStmts C statements) s) tail
  | .matchArms constructId entry kind (.mk pattern body :: _), s =>
    ArmClear C constructId entry kind (patternLocals pattern) s body
  | .handleArms constructId entry kind (.mk armKind body :: _), s =>
    ArmClear C constructId entry kind (handleLocals armKind) s body
  | _, _ => True

/-- An expression that leaves for good has no value. -/
def LeavesNever : Point → Prop
  | .expr (.returnExpr id _) _ | .expr (.raise id _) _ | .expr (.breakExpr id _) _
  | .expr (.continueExpr id) _ => C.diverges id = true
  | _ => True

/-- Both at every point the walk comes to from here. -/
def Clears (p : Point × FlowState) : Prop :=
  ∀ q, Relation.ReflTransGen (Below C) p q → SharedExitClear C q.1 q.2 ∧ LeavesNever C q.1

variable {C}

theorem Clears.here {p : Point × FlowState} (h : Clears C p) :
    SharedExitClear C p.1 p.2 ∧ LeavesNever C p.1 := h p .refl

theorem Clears.below {p q : Point × FlowState} (h : Clears C p) (hstep : Below C p q) : Clears C q :=
  fun r hr => h r (.head hstep hr)

/-! ### The parts that record -/

/-- Two states that owe the same. -/
structure Owes (s t : FlowState) : Prop where
  states : t.states = s.states
  pendingCleanup : t.pendingCleanup = s.pendingCleanup

theorem Owes.snapshot {s t : FlowState} (h : Owes s t) (marker : ℕ) :
    snapshotCleanup C t marker = snapshotCleanup C s marker := by
  rw [snapshotCleanup_eq, snapshotCleanup_eq, h.states, h.pendingCleanup]

theorem owes_recordObservationExit (exit : ExprId) (marker : ℕ) (s : FlowState) :
    Owes s (after (recordObservationExit exit marker) s) := by
  rw [recordObservationExit, after_bind, run_get, after_get, after_ite]
  split
  · exact ⟨rfl, rfl⟩
  · exact ⟨rfl, rfl⟩

section
variable {accounts : List Account} {own : List (List CleanupAction)} {e : HirExpr}
  {kind : ConsumeKind} {x : FlowM Unit} {s t : FlowState}

theorem WalkedOwn.exit {id : ExprId} (h : WalkedOwn id own accounts s t) :
    WalkedOwn id (snapshotCleanup C t 0 :: own) accounts s
      (after (recordObservationExit id 0 >>= fun _ => recordExit C id 0) t) := by
  have howes := owes_recordObservationExit id 0 t
  have hquiet : Quiet t (after (recordObservationExit id 0) t) := quiet_recordObservationExit id 0 t
  rw [← howes.snapshot (C := C) 0, after_bind]
  exact (h.quiet hquiet).record rfl rfl

/-- What an expression in returned position records once more. -/
def returnedExit (C : FlowContext) (e : HirExpr) (kind : ConsumeKind) (t : FlowState) :
    List (List CleanupAction) :=
  if kind = .returned && !isCompound e && !C.diverges e.id then [snapshotCleanup C t 0] else []

theorem WalkedOwn.exprCtx (kind : ConsumeKind) (h : WalkedOwn e.id own accounts s (after x s)) :
    WalkedOwn e.id (returnedExit C e kind (after x s) ++ own) accounts s
        (after (exprCtx C e kind x) s) ∧
      Owes (after x s) (after (exprCtx C e kind x) s) := by
  simp only [Resourceck.exprCtx, returnedExit, after_bind, whenever, after_ite]
  split
  · exact ⟨h.record rfl rfl, rfl, rfl⟩
  · exact ⟨h, rfl, rfl⟩

theorem after_blockCtx (id : ExprId) (x : FlowM Unit) (s : FlowState) :
    after (blockCtx C id x) s = after (truncateCleanup s.pendingCleanup.length)
      (after (whenever (!C.diverges id) (recordExit C id s.pendingCleanup.length))
        (after (deferScope x) s)) := rfl

theorem Walked.blockCtx {pushed : List CleanupAction} {id : ExprId}
    (h : Walked accounts pushed (openScope s) (after x (openScope s))) :
    WalkedOwn id (if C.diverges id then [] else
        [snapshotCleanup C (after (deferScope x) s) s.pendingCleanup.length]) accounts s
      (after (blockCtx C id x) s) := by
  obtain ⟨new, hnew, hkept⟩ := h.entries
  have hpending : (after (deferScope x) s).pendingCleanup = pushed ++ s.pendingCleanup := h.pending
  have hedges : (after (deferScope x) s).cleanupEdges = new ++ s.cleanupEdges := hnew
  have htruncate : ∀ u : FlowState, u.pendingCleanup = pushed ++ s.pendingCleanup →
      (after (truncateCleanup s.pendingCleanup.length) u).pendingCleanup = s.pendingCleanup := by
    intro u hu
    change u.pendingCleanup.drop (u.pendingCleanup.length - s.pendingCleanup.length) = _
    rw [hu, List.length_append, Nat.add_sub_cancel, List.drop_left]
  rw [after_blockCtx]
  cases hdiverges : C.diverges id with
  | true => exact ⟨htruncate _ hpending, new, hedges, hkept⟩
  | false =>
    refine ⟨htruncate _ hpending, new, ?_, hkept⟩
    exact congrArg (List.cons _) hedges

end

/-! ### Exits of one expression agree -/

section
variable {e : HirExpr} {b : HirBlock} {kind : ConsumeKind} {own : List (List CleanupAction)}
  {s t : FlowState} {locals : List LocalId} {entry : PlaceStates} {constructId : ExprId}

theorem fits_none (actions : List CleanupAction) : Fits none actions := by
  intro locals h
  cases h

theorem fits_nil (scope : Option (List LocalId)) : Fits scope [] :=
  fun locals _ => .nil locals

theorem Own.nil_of_simple (h : Own C kind s e own) (hsimple : isCompound e = false) : own = [] := by
  cases e <;> first | exact h | simp [isCompound] at hsimple

theorem exprAccount_of_simple (hsimple : isCompound e = false) : exprAccount e = (e.id, none) := by
  cases e <;> first | rfl | simp [isCompound] at hsimple

theorem Own.closed (h : Own C kind s e own) :
    (∀ l ∈ own, ∀ l' ∈ own, l = l') ∧ ∀ l ∈ own, Fits (exprAccount e).2 l := by
  have hone : own.length ≤ 1 → ∀ l ∈ own, ∀ l' ∈ own, l = l' := by
    intro hlength l hl l' hl'
    match own, hlength with
    | [], _ => simp at hl
    | [a], _ => rw [List.mem_singleton.mp hl, List.mem_singleton.mp hl']
  cases e with
  | tryExpr =>
    rw [show own = _ from h]
    exact ⟨by simp, fun l _ => fits_none l⟩
  | returnExpr | raise | breakExpr | continueExpr => exact ⟨hone h, fun l _ => fits_none l⟩
  | block b =>
    obtain ⟨hown, pushed, hdrops, hpending⟩ := h
    rw [hown]
    split
    · simp
    · refine ⟨by simp, fun l hl locals hlocals => ?_⟩
      rw [List.mem_singleton.mp hl, blockEnd, snapshotCleanup_pushed hpending]
      cases hlocals
      exact hdrops.owed _
  | _ =>
    rw [show own = [] from h]
    simp

theorem returnedExit_simple (h : returnedExit C e kind t ≠ []) : kind = .returned ∧
    isCompound e = false ∧ returnedExit C e kind t = [snapshotCleanup C t 0] := by
  unfold returnedExit at h ⊢
  split at h
  · rename_i hcond
    simp only [Bool.and_eq_true, decide_eq_true_eq, Bool.not_eq_true'] at hcond
    exact ⟨hcond.1.1, hcond.1.2, if_pos (by simp [hcond])⟩
  · exact absurd rfl h

theorem Own.closedCtx (h : Own C kind s e own) (t : FlowState) :
    (∀ l ∈ returnedExit C e kind t ++ own, ∀ l' ∈ returnedExit C e kind t ++ own, l = l') ∧
      ∀ l ∈ returnedExit C e kind t ++ own, Fits (exprAccount e).2 l := by
  by_cases hnil : returnedExit C e kind t = []
  · rw [hnil]
    exact h.closed
  · obtain ⟨-, hsimple, heq⟩ := returnedExit_simple hnil
    rw [heq, h.nil_of_simple hsimple, exprAccount_of_simple hsimple]
    exact ⟨by simp, fun l _ => fits_none l⟩

theorem after_block (b : HirBlock) (kind : ConsumeKind) (s : FlowState) :
    after (checkExprCtxInner C (.block b) kind) s =
      after (blockCtx C b.id (checkBlockCtxInner C b kind)) s := by
  rw [checkExprCtxInner]

theorem blockCtx_state (id : ExprId) {pushed : List CleanupAction} {x : FlowM Unit}
    (h : (after (deferScope x) s).pendingCleanup = pushed ++ s.pendingCleanup) :
    (after (blockCtx C id x) s).states = (after (deferScope x) s).states ∧
      (after (blockCtx C id x) s).pendingCleanup = s.pendingCleanup := by
  have htruncate : ((after (deferScope x) s).pendingCleanup).drop
      ((after (deferScope x) s).pendingCleanup.length - s.pendingCleanup.length) =
        s.pendingCleanup := by
    rw [h, List.length_append, Nat.add_sub_cancel, List.drop_left]
  rw [after_blockCtx]
  cases C.diverges id with
  | true => exact ⟨rfl, htruncate⟩
  | false => exact ⟨rfl, htruncate⟩

/-- Where a block owes nothing down to a marker as it ends, its own end owes nothing, and
neither does what was pending past the marker before it. -/
theorem blockEnd_nil {pushed : List CleanupAction} {marker : ℕ}
    (hle : marker ≤ s.pendingCleanup.length)
    (hpending : (after (deferScope (checkBlockCtxInner C b kind)) s).pendingCleanup =
      pushed ++ s.pendingCleanup)
    (h : snapshotCleanup C (after (deferScope (checkBlockCtxInner C b kind)) s) marker = []) :
    blockEnd C b kind s = [] ∧
      snapshotCleanup C (after (checkExprCtxInner C (.block b) kind) s) marker = [] := by
  have hstate := blockCtx_state (C := C) b.id hpending
  have hcount : pushed.length + s.pendingCleanup.length - marker =
      pushed.length + (s.pendingCleanup.length - marker) := by omega
  rw [snapshotCleanup_eq, hpending, List.length_append, hcount, List.take_length_add_append,
    owed_append, List.append_eq_nil_iff] at h
  constructor
  · rw [blockEnd, snapshotCleanup_pushed hpending, h.1]
  · rw [after_block, snapshotCleanup_eq, hstate.1, hstate.2, h.2]

theorem Own.tail (h : Own C .returned s e own) (hclear : TailClear C s e)
    (hleaves : LeavesNever C (.expr e .returned)) (hdiverges : C.diverges e.id = false) :
    (∀ l ∈ own, l = snapshotCleanup C (after (checkExprCtxInner C e .returned) s) 0) ∧
      Fits (exprAccount e).2 (snapshotCleanup C (after (checkExprCtxInner C e .returned) s) 0) := by
  cases e with
  | tryExpr =>
    rw [show own = _ from h]
    exact ⟨by simp, fits_none _⟩
  | returnExpr | raise | breakExpr | continueExpr =>
    have hboth : true = false := hleaves.symm.trans hdiverges
    cases hboth
  | block b =>
    obtain ⟨hown, pushed, -, hpending⟩ := h
    have hnil := blockEnd_nil (Nat.zero_le _) hpending (hclear hdiverges)
    rw [hown, show C.diverges b.id = false from hdiverges, hnil.1, hnil.2]
    exact ⟨by simp, fits_nil _⟩
  | _ =>
    rw [show own = [] from h]
    exact ⟨by simp, fits_none _⟩

/-- The body of an arm that is a bare expression and no exit of the function: what it
recorded is what the arm owes after it. -/
theorem Own.arm {pushed pending : List CleanupAction} (h : Own C kind s e own)
    (hstart : s.pendingCleanup = pushed ++ pending)
    (hend : (after (checkExprCtxInner C e kind) s).pendingCleanup = s.pendingCleanup)
    (hblock : ∀ b, e = .block b →
      snapshotCleanup C (after (deferScope (checkBlockCtxInner C b kind)) s) pending.length = [])
    (hsimple : (isTry e = true ∨ kind = .returned ∧ isCompound e = false) →
      owed C (after (checkExprCtxInner C e kind) s).states pending = [])
    (hleaves : LeavesNever C (.expr e kind)) (hdiverges : C.diverges e.id = false) :
    (∀ l ∈ returnedExit C e kind (after (checkExprCtxInner C e kind) s) ++ own,
      l = snapshotCleanup C (after (checkExprCtxInner C e kind) s) pending.length) ∧
      Fits (exprAccount e).2
        (snapshotCleanup C (after (checkExprCtxInner C e kind) s) pending.length) := by
  have hpending := hend.trans hstart
  have hzero : owed C (after (checkExprCtxInner C e kind) s).states pending = [] →
      snapshotCleanup C (after (checkExprCtxInner C e kind) s) 0 =
        snapshotCleanup C (after (checkExprCtxInner C e kind) s) pending.length := by
    intro houter
    rw [snapshotCleanup_pushed hpending, snapshotCleanup_zero, hpending, owed_append, houter,
      List.append_nil]
  by_cases hnil : returnedExit C e kind (after (checkExprCtxInner C e kind) s) = []
  · rw [hnil, List.nil_append]
    cases e with
    | tryExpr =>
      rw [show own = _ from h, hzero (hsimple (.inl rfl))]
      exact ⟨by simp, fits_none _⟩
    | returnExpr | raise | breakExpr | continueExpr =>
      have hboth : true = false := hleaves.symm.trans hdiverges
      cases hboth
    | block b =>
      obtain ⟨hown, inner, -, hinner⟩ := h
      have hle : pending.length ≤ s.pendingCleanup.length := by simp [hstart]
      have hclear := blockEnd_nil hle hinner (hblock b rfl)
      rw [hown, show C.diverges b.id = false from hdiverges, hclear.1, hclear.2]
      exact ⟨by simp, fits_nil _⟩
    | _ =>
      rw [show own = [] from h]
      exact ⟨by simp, fits_none _⟩
  · obtain ⟨hkind, hcompound, heq⟩ := returnedExit_simple hnil
    rw [heq, h.nil_of_simple hcompound, exprAccount_of_simple hcompound,
      hzero (hsimple (.inr ⟨hkind, hcompound⟩))]
    exact ⟨by simp, fits_none _⟩

end

/-! ### Arms -/

section
variable {accounts : List Account} {entry : PlaceStates} {locals : List LocalId}
  {constructId : ExprId} {kind : ConsumeKind} {s t : FlowState}

/-- A walk that records under these accounts and registers cleanup of these locals only. -/
def ScopeWalked (accounts : List Account) (locals : List LocalId) (s t : FlowState) : Prop :=
  ∃ pushed, Walked accounts pushed s t ∧ DropsOnly locals pushed

theorem ScopeWalked.trans {accounts' : List Account} {locals' : List LocalId} {u : FlowState}
    (h : ScopeWalked accounts locals s t) (h' : ScopeWalked accounts' locals' t u)
    (hapart : Apart accounts accounts') :
    ScopeWalked (accounts ++ accounts') (locals ++ locals') s u := by
  obtain ⟨pushed, hwalked, hdrops⟩ := h
  obtain ⟨pushed', hwalked', hdrops'⟩ := h'
  refine ⟨pushed' ++ pushed, hwalked.trans hwalked' hapart, ?_⟩
  exact (hdrops'.mono (List.subset_append_right _ _)).append
    (hdrops.mono (List.subset_append_left _ _))

theorem Walked.scope (h : Walked accounts [] s t) (locals : List LocalId) :
    ScopeWalked accounts locals s t := ⟨[], h, .nil locals⟩

theorem scopeWalked_bindLocal (binding : LocalId) (s : FlowState) :
    ScopeWalked [] [binding] s (after (bindLocal C binding) s) := by
  simp only [bindLocal, whenever, after_ite]
  split
  · refine ⟨[.drop (ofRoot binding)], ⟨rfl, [], rfl, .nil⟩, fun place hplace => ?_⟩
    cases List.mem_singleton.mp hplace
    simp [ofRoot]
  · exact ⟨[], ⟨rfl, [], rfl, .nil⟩, .nil _⟩

theorem scopeWalked_forM {α : Type} {g : α → FlowM Unit} {localOf : α → LocalId}
    (h : ∀ a s, ScopeWalked [] [localOf a] s (after (g a) s)) (l : List α) (s : FlowState) :
    ScopeWalked [] (l.map localOf) s (after (l.forM g) s) := by
  induction l generalizing s with
  | nil => exact (Quiet.walked (Std.Refl.refl s)).scope []
  | cons a l ih => exact (h a s).trans (ih (after (g a) s)) (by simp [Apart])

theorem walked_armStart (entry : PlaceStates) (locals : List LocalId) (s : FlowState) :
    ∃ pushed, (armStart C entry locals s).pendingCleanup = pushed ++ s.pendingCleanup ∧
      (armStart C entry locals s).cleanupEdges = s.cleanupEdges ∧ DropsOnly locals pushed := by
  obtain ⟨pushed, hwalked, hdrops⟩ :=
    scopeWalked_forM (scopeWalked_bindLocal (C := C)) locals { s with states := entry }
  rw [List.map_id'] at hdrops
  obtain ⟨new, hnew, hkept⟩ := hwalked.entries
  have hnil : new = [] := by
    cases new with
    | nil => rfl
    | cons e new =>
      obtain ⟨tag, hmem, -⟩ := hkept.licensed e (by simp)
      simp at hmem
  refine ⟨pushed, hwalked.pending, ?_, hdrops⟩
  rw [hnil] at hnew
  exact hnew

/-- Where an arm ends, once its body is done. -/
def leaveArm (locals : List LocalId) (marker : ℕ) (t : FlowState) : FlowState :=
  after (locals.forM removeLocal) (after (truncateCleanup marker) t)

theorem leaveArm_pending (locals : List LocalId) {pushed pending : List CleanupAction}
    (h : t.pendingCleanup = pushed ++ pending) :
    (leaveArm locals pending.length t).pendingCleanup = pending ∧
      (leaveArm locals pending.length t).cleanupEdges = t.cleanupEdges := by
  have hquiet : Quiet (after (truncateCleanup pending.length) t) (leaveArm locals pending.length t) :=
    Within.forM quiet_removeLocal _
  refine ⟨hquiet.pendingCleanup.trans ?_, hquiet.cleanupEdges⟩
  change t.pendingCleanup.drop (t.pendingCleanup.length - pending.length) = pending
  rw [h, List.length_append, Nat.add_sub_cancel, List.drop_left]

theorem after_armCtx (x : FlowM (ExprId × Bool × Bool)) (s : FlowState) :
    after (armCtx C entry locals x) s =
      leaveArm locals s.pendingCleanup.length
        (after (whenever
          (!(x.run (armStart C entry locals s)).1.2.1 && !(x.run (armStart C entry locals s)).1.2.2)
          (recordExit C (x.run (armStart C entry locals s)).1.1 s.pendingCleanup.length))
        (after x (armStart C entry locals s))) := rfl

theorem Walked.leaveArm (h : Walked accounts [] (armStart C entry locals s) t) :
    Walked accounts [] s (leaveArm locals s.pendingCleanup.length t) := by
  obtain ⟨pushed, hpending, hedges, -⟩ := walked_armStart (C := C) entry locals s
  obtain ⟨new, hnew, hkept⟩ := h.entries
  have hleave := leaveArm_pending locals (h.pending.trans hpending)
  exact ⟨hleave.1, new, by rw [hleave.2, hnew, hedges], hkept⟩

theorem walked_armBlock {b : HirBlock} {pushed : List CleanupAction}
    (h : Walked (partsOfBlock b) pushed (openScope (armStart C entry locals s))
      (after (checkBlockCtxInner C b kind) (openScope (armStart C entry locals s))))
    (hdrops : DropsOnly (stmtLocals b.statements) pushed)
    (hfresh : Fresh (blockAccount locals b :: partsOfBlock b)) :
    Walked (blockAccount locals b :: partsOfBlock b) [] s
      (after (armCtx C entry locals (checkArmBody C constructId kind (.block b))) s) := by
  obtain ⟨bound, hbound, hedges, hlocals⟩ := walked_armStart (C := C) entry locals s
  obtain ⟨new, hnew, hkept⟩ := h.entries
  let u := after (deferScope (checkBlockCtxInner C b kind)) (armStart C entry locals s)
  have hpending : u.pendingCleanup = (pushed ++ bound) ++ s.pendingCleanup :=
    h.pending.trans (by rw [List.append_assoc, ← hbound]; rfl)
  have hrecorded : u.cleanupEdges = new ++ s.cleanupEdges := hnew.trans (by rw [← hedges]; rfl)
  rw [after_armCtx]
  simp only [checkArmBody, after_bind, after_pure, run_bind, run_pure, Bool.not_false, Bool.and_true]
  have hsame : ∀ l ∈ [snapshotCleanup C u s.pendingCleanup.length],
      ∀ l' ∈ [snapshotCleanup C u s.pendingCleanup.length], l = l' := by simp
  have hfits : ∀ l ∈ [snapshotCleanup C u s.pendingCleanup.length],
      Fits (blockAccount locals b).2 l := by
    intro l hl locals' hlocals'
    cases hlocals'
    rw [List.mem_singleton.mp hl, snapshotCleanup_pushed hpending]
    exact ((hdrops.mono (List.subset_append_right _ _)).append
      (hlocals.mono (List.subset_append_left _ _))).owed _
  cases hdiverges : C.diverges b.id with
  | true =>
    have hleave := leaveArm_pending locals hpending
    exact ⟨hleave.1, new, hleave.2.trans hrecorded, hkept.mono (List.subset_cons_self _ _)⟩
  | false =>
    have hleave := leaveArm_pending locals
      (t := after (recordExit C b.id s.pendingCleanup.length) u) hpending
    refine ⟨hleave.1, _, ?_, hkept.under (fresh_cons.mp hfresh).1 hsame hfits⟩
    refine hleave.2.trans ?_
    exact congrArg (List.cons _) hrecorded

end

end

end Napitia.Resourceck
