import Napitia.Lib.Log
import Napitia.Lower.Decision

/-!
# The HIR of typed outcomes

A call as the operand of `?` and `handle`, and the arms of a `handle` as name
resolution leaves them. The expressions that no stage of typed outcomes opens are a
parameter, and so are the bodies of arms.
-/
namespace Napitia.Hir
open Nir Lower

inductive HirExpr (E : Type) where
  | call (id : ExprId) (callee : HirExpr E) (args : List (HirExpr E))
  | function (id : ExprId) (item : ItemId)
  | other (id : ExprId) (expr : E)

def HirExpr.id {E : Type} : HirExpr E → ExprId
  | .call id _ _ | .function id _ | .other id _ => id

/-- A failure arm's pattern. A name that did not resolve is left out, with a
diagnostic of its own. -/
inductive HirFailurePattern where
  | wildcard
  | case (variant : Option ItemId) (case : Option ℕ) (args : List HirPattern)
  deriving Repr

inductive HirHandleArmKind where
  | success (pattern : HirPattern)
  | failure (pattern : HirFailurePattern)
  deriving Repr

structure HirHandleArm (Body : Type) where
  kind : HirHandleArmKind
  body : Body

/-- The two patterns a payload or a success value may be bound by. -/
def isBinder : HirPattern → Bool
  | .bind .. | .wildcard _ => true
  | _ => false

namespace HirHandleArmKind

/-- The arm names this case of this variant. -/
def names (key : ItemId × ℕ) : HirHandleArmKind → Bool
  | .failure (.case (some variant) (some case) _) => (variant, case) = key
  | _ => false

def isWildcard : HirHandleArmKind → Bool
  | .failure .wildcard => true
  | _ => false

def isSuccess : HirHandleArmKind → Bool
  | .success _ => true
  | _ => false

/-- The arm handles this case of this variant. -/
def covers (key : ItemId × ℕ) (kind : HirHandleArmKind) : Bool :=
  kind.names key || kind.isWildcard

section
variable (key : ItemId × ℕ) (pattern : HirPattern) (item : ItemId) (index : ℕ)
  (args : List HirPattern)

@[simp] theorem names_success : names key (.success pattern) = false := rfl

@[simp] theorem names_wildcard : names key (.failure .wildcard) = false := rfl

@[simp] theorem names_case :
    names key (.failure (.case (some item) (some index) args)) = decide ((item, index) = key) := rfl

@[simp] theorem isWildcard_success : isWildcard (.success pattern) = false := rfl

@[simp] theorem isWildcard_wildcard : isWildcard (.failure .wildcard) = true := rfl

@[simp] theorem isWildcard_case (variant : Option ItemId) (case : Option ℕ) :
    isWildcard (.failure (.case variant case args)) = false := rfl

@[simp] theorem covers_success : covers key (.success pattern) = false := rfl

@[simp] theorem covers_wildcard : covers key (.failure .wildcard) = true := rfl

@[simp] theorem covers_case :
    covers key (.failure (.case (some item) (some index) args)) = decide ((item, index) = key) := by
  simp [covers]

end

/-- Every name in the arm resolved. -/
def Resolved : HirHandleArmKind → Prop
  | .failure (.case variant case _) => variant.isSome ∧ case.isSome
  | _ => True

end HirHandleArmKind

/-! ### Resolving a failure pattern -/

inductive TypeNameKind where
  | variant | record
  deriving DecidableEq, Repr

/-- A failure pattern of the source; `P` is a payload pattern of the source. -/
inductive FailurePattern (P : Type) where
  | wildcard
  | case (errorType case : Symbol) (args : List P)

structure ResolveState (σ : Type) where
  diagnostics : List String := []
  rest : σ

def unknownVariantType : String := "R0011"

def unknownVariantCase : String := "R0012"

section
variable {σ P : Type} (typeNames : Symbol → Option (ItemId × TypeNameKind))
  (variantCases : ItemId → Symbol → Option ℕ)
  (lowerPattern : P → StateM (ResolveState σ) HirPattern)

def reportName (code : String) : StateM (ResolveState σ) Unit :=
  modify fun s => { s with diagnostics := s.diagnostics ++ [code] }

def resolveVariant (errorType : Symbol) : StateM (ResolveState σ) (Option ItemId) :=
  match typeNames errorType with
  | some (item, .variant) => pure (some item)
  | _ => do
    reportName unknownVariantType
    pure none

def resolveCase (case : Symbol) : Option ItemId → StateM (ResolveState σ) (Option ℕ)
  | none => pure none
  | some variant =>
    match variantCases variant case with
    | some index => pure (some index)
    | none => do
      reportName unknownVariantCase
      pure none

def lowerFailurePattern : FailurePattern P → StateM (ResolveState σ) HirFailurePattern
  | .wildcard => pure .wildcard
  | .case errorType case args => do
    let variant ← resolveVariant typeNames errorType
    let index ← resolveCase variantCases case variant
    let args ← args.mapM lowerPattern
    pure (.case variant index args)

end

section
variable {σ P : Type} {typeNames : Symbol → Option (ItemId × TypeNameKind)}
  {variantCases : ItemId → Symbol → Option ℕ}
  {lowerPattern : P → StateM (ResolveState σ) HirPattern}

theorem reportName_appends (code : String) :
    Log.Appends ResolveState.diagnostics (reportName (σ := σ) code) :=
  .modify fun _ => List.prefix_append _ _

theorem reportName_ne_nil {code : String} {s s' : ResolveState σ}
    (h : (reportName code).run s = (⟨⟩, s')) : s'.diagnostics ≠ [] := by
  cases h
  exact List.append_ne_nil_of_right_ne_nil _ (List.cons_ne_nil _ _)

theorem resolveCase_appends (case : Symbol) (variant : Option ItemId) :
    Log.Appends ResolveState.diagnostics (resolveCase (σ := σ) variantCases case variant) := by
  cases variant with
  | none => exact .pure none
  | some variant =>
    unfold resolveCase
    dsimp only
    split
    · exact .pure _
    · exact (reportName_appends _).bind fun _ => .pure none

theorem resolveVariant_isSome {errorType : Symbol} {variant : Option ItemId}
    {s s' : ResolveState σ} (h : (resolveVariant typeNames errorType).run s = (variant, s'))
    (hs : s'.diagnostics = []) : variant.isSome := by
  unfold resolveVariant at h
  split at h
  · cases h
    rfl
  · obtain ⟨⟨⟩, u, hreport, hu, -⟩ := Log.silent_bind (fun _ => .pure none) h hs
    exact absurd hu (reportName_ne_nil hreport)

theorem resolveCase_isSome {case : Symbol} {variant : Option ItemId} {index : Option ℕ}
    {s s' : ResolveState σ} (h : (resolveCase variantCases case variant).run s = (index, s'))
    (hs : s'.diagnostics = []) (hvariant : variant.isSome) : index.isSome := by
  obtain ⟨item, rfl⟩ := Option.isSome_iff_exists.mp hvariant
  unfold resolveCase at h
  dsimp only at h
  split at h
  · cases h
    rfl
  · obtain ⟨⟨⟩, u, hreport, hu, -⟩ := Log.silent_bind (fun _ => .pure none) h hs
    exact absurd hu (reportName_ne_nil hreport)

/-- Both names of a failure arm's pattern resolve, or one is reported. -/
theorem lowerFailurePattern_resolved {pattern : FailurePattern P} {lowered : HirFailurePattern}
    {s s' : ResolveState σ}
    (hpattern : ∀ p, Log.Appends ResolveState.diagnostics (lowerPattern p))
    (h : (lowerFailurePattern typeNames variantCases lowerPattern pattern).run s = (lowered, s'))
    (hs : s'.diagnostics = []) : (HirHandleArmKind.failure lowered).Resolved := by
  cases pattern with
  | wildcard =>
    cases h
    trivial
  | case errorType case args =>
    have hargs : ∀ (variant : Option ItemId) (index : Option ℕ),
        Log.Appends ResolveState.diagnostics (do
          let args ← args.mapM lowerPattern
          pure (.case variant index args) : StateM (ResolveState σ) HirFailurePattern) :=
      fun _ _ => (Log.Appends.mapM hpattern).bind fun _ => .pure _
    obtain ⟨variant, u, hvariant, hu, h⟩ := Log.silent_bind
      (fun variant => (resolveCase_appends case variant).bind fun index => hargs variant index) h hs
    obtain ⟨index, w, hindex, hw, h⟩ := Log.silent_bind (hargs variant) h hs
    cases h
    have hsome := resolveVariant_isSome hvariant hu
    exact ⟨hsome, resolveCase_isSome hindex hw hsome⟩

end

end Napitia.Hir
