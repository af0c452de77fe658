import Napitia.Resourceck.KeptPlans

/-!
# One resource in two arguments

The value of an argument is the value of the expressions it forwards, down to the places
they name. The check of a call collects these places and compares those that are observed
with those that are taken, and refuses the call where it cannot follow an argument.
-/
namespace Napitia.Resourceck
open Nir Lower Stateful Typeck
open Hir (ExprId)
open Hir.Body

/-! ### What an expression forwards -/

def blockValue : HirBlock → List HirExpr
  | .mk _ _ tail => tail.toList

def bodyValue : HirMatchArmBody → List HirExpr
  | .expr e => [e]
  | .block b => blockValue b

def elseValue : Option HirElse → List HirExpr
  | some (.block b) => blockValue b
  | some (.ifExpr e) => [e]
  | none => []

def matchArmValue : HirMatchArm → List HirExpr
  | .mk _ body => bodyValue body

def handleArmValue : HirHandleArm → List HirExpr
  | .mk _ body => bodyValue body

section
variable (C : FlowContext)

/-- The expressions one of whose values an expression has. What a call returns and what a
literal builds did not exist before, and forwards nothing. -/
def forwards : HirExpr → List HirExpr
  | .field id base => if (C.resolvePlace (.field id base)).isNone then [base] else []
  | .unary _ _ operand | .cast _ operand | .tryExpr _ operand => [operand]
  | .ifExpr _ _ thenBranch elseBranch => blockValue thenBranch ++ elseValue elseBranch
  | .matchExpr _ _ arms => arms.flatMap matchArmValue
  | .handle _ operand arms => operand :: arms.flatMap handleArmValue
  | .block b => blockValue b
  | _ => []

/-- A place the value of an affine expression may come from. -/
inductive Passes : HirExpr → LocalPlace → Prop
  | named {e place} (haffine : C.isAffineExpr e.id = true) (h : C.resolvePlace e = some place) :
    Passes e place
  | forwarded {e e' place} (haffine : C.isAffineExpr e.id = true) (h : e' ∈ forwards C e)
    (hpasses : Passes e' place) : Passes e place

/-- The arguments of a call, with whether the callee takes each. -/
def moded (callee : HirExpr) (args : List HirExpr) : List (HirExpr × Bool) :=
  args.zipIdx.map fun arg => (arg.1, takes C callee arg.2)

/-- No place is both observed and taken, in whole or in part. -/
def AliasFree (args : List (HirExpr × Bool)) : Prop :=
  ∀ observed taken place place', (observed, false) ∈ args → (taken, true) ∈ args →
    Passes C observed place → Passes C taken place' → placesOverlap place place' = false

variable {C}

theorem Passes.affine {e : HirExpr} {place : LocalPlace} (h : Passes C e place) :
    C.isAffineExpr e.id = true := by
  cases h with
  | named haffine _ => exact haffine
  | forwarded haffine _ _ => exact haffine

/-! ### What is collected -/

section
variable {n : ℕ} {e : HirExpr}

/-- Nothing collected is lost again. -/
def Collects (x : StateM (List LocalPlace) Bool) : Prop := Within (· ⊆ ·) x

theorem Collects.both {x y : StateM (List LocalPlace) Bool} (hx : Collects x) (hy : Collects y) :
    Collects (do let ok ← x; let ok' ← y; pure (ok && ok')) :=
  fun s => List.Subset.trans (hx s) (hy _)

theorem collects_block (h : ∀ e, Collects (collectArgumentPlaces C e n)) (b : HirBlock) :
    Collects (collectBlockPlaces C b n) := by
  obtain ⟨id, statements, tail⟩ := b
  cases tail with
  | none => exact fun s => List.Subset.refl s
  | some tail => exact h tail

theorem collects_arm (h : ∀ e, Collects (collectArgumentPlaces C e n)) (body : HirMatchArmBody) :
    Collects (collectArmPlaces C body n) := by
  cases body with
  | expr e => exact h e
  | block b => exact collects_block h b

theorem collects_matchArms (h : ∀ e, Collects (collectArgumentPlaces C e n))
    (arms : List HirMatchArm) : Collects (collectMatchArmPlaces C arms n) := by
  induction arms with
  | nil => exact fun s => List.Subset.refl s
  | cons arm arms ih =>
    obtain ⟨pattern, body⟩ := arm
    exact (collects_arm h body).both ih

theorem collects_handleArms (h : ∀ e, Collects (collectArgumentPlaces C e n))
    (arms : List HirHandleArm) : Collects (collectHandleArmPlaces C arms n) := by
  induction arms with
  | nil => exact fun s => List.Subset.refl s
  | cons arm arms ih =>
    obtain ⟨armKind, body⟩ := arm
    exact (collects_arm h body).both ih

theorem collects_argument : ∀ n e, Collects (collectArgumentPlaces C e n)
  | 0, e => by
    cases e <;> exact fun s => List.Subset.refl s
  | n + 1, e => by
    have ih := collects_argument n
    unfold collectArgumentPlaces
    refine Within.ite (fun s => List.Subset.refl s) ?_
    cases e with
    | localVar id binding => exact fun s => List.subset_append_left s _
    | field id base =>
      intro s
      simp only
      split
      · exact List.subset_append_left s _
      · exact ih base s
    | ifExpr id condition thenBranch elseBranch =>
      have hthen := collects_block ih thenBranch
      rcases elseBranch with _ | b | e
      · exact hthen.both (fun s => List.Subset.refl s : Collects (pure true))
      · exact hthen.both (collects_block ih b)
      · exact hthen.both (ih e)
    | matchExpr id scrutinee arms => exact collects_matchArms ih arms
    | handle id operand arms => exact (ih operand).both (collects_handleArms ih arms)
    | block b => exact collects_block ih b
    | _ => exact fun s => List.Subset.refl s

/-- A collector that follows every one of these expressions finds every place they pass. -/
def Covers (C : FlowContext) (x : StateM (List LocalPlace) Bool) (es : List HirExpr) : Prop :=
  ∀ out, (x.run out).1 = true → ∀ e ∈ es, ∀ place, Passes C e place → place ∈ (x.run out).2

theorem Covers.both {x y : StateM (List LocalPlace) Bool} {es es' : List HirExpr}
    (hx : Covers C x es) (hy : Covers C y es') (hgrow : Collects y) :
    Covers C (do let ok ← x; let ok' ← y; pure (ok && ok')) (es ++ es') := by
  intro out hok e hmem place hpasses
  simp only [run_bind, run_pure, Bool.and_eq_true] at hok ⊢
  rcases List.mem_append.mp hmem with hmem | hmem
  · exact hgrow _ (hx out hok.1 e hmem place hpasses)
  · exact hy _ hok.2 e hmem place hpasses

theorem covers_nil (x : StateM (List LocalPlace) Bool) : Covers C x [] := by
  intro out _ e hmem
  cases hmem

theorem covers_block (h : ∀ e, Covers C (collectArgumentPlaces C e n) [e]) (b : HirBlock) :
    Covers C (collectBlockPlaces C b n) (blockValue b) := by
  obtain ⟨id, statements, tail⟩ := b
  cases tail with
  | none => exact covers_nil _
  | some tail => exact h tail

theorem covers_arm (h : ∀ e, Covers C (collectArgumentPlaces C e n) [e])
    (body : HirMatchArmBody) : Covers C (collectArmPlaces C body n) (bodyValue body) := by
  cases body with
  | expr e => exact h e
  | block b => exact covers_block h b

theorem covers_matchArms (h : ∀ e, Covers C (collectArgumentPlaces C e n) [e])
    (arms : List HirMatchArm) :
    Covers C (collectMatchArmPlaces C arms n) (arms.flatMap matchArmValue) := by
  induction arms with
  | nil => exact covers_nil _
  | cons arm arms ih =>
    obtain ⟨pattern, body⟩ := arm
    exact (covers_arm h body).both ih (collects_matchArms (collects_argument n) arms)

theorem covers_handleArms (h : ∀ e, Covers C (collectArgumentPlaces C e n) [e])
    (arms : List HirHandleArm) :
    Covers C (collectHandleArmPlaces C arms n) (arms.flatMap handleArmValue) := by
  induction arms with
  | nil => exact covers_nil _
  | cons arm arms ih =>
    obtain ⟨armKind, body⟩ := arm
    exact (covers_arm h body).both ih (collects_handleArms (collects_argument n) arms)

theorem covers_forwards (h : ∀ e, Covers C (collectArgumentPlaces C e n) [e])
    (haffine : C.isAffineExpr e.id = true) :
    Covers C (collectArgumentPlaces C e (n + 1)) (forwards C e) := by
  unfold collectArgumentPlaces
  simp only [haffine, Bool.not_true, Bool.false_eq_true, if_false]
  cases e with
  | field id base =>
    cases hplace : C.resolvePlace (.field id base) with
    | some place =>
      simp only [forwards, hplace, Option.isNone_some, Bool.false_eq_true, if_false]
      exact covers_nil _
    | none =>
      simp only [forwards, hplace, Option.isNone_none, if_true]
      exact h base
  | ifExpr id condition thenBranch elseBranch =>
    have hthen := covers_block h thenBranch
    rcases elseBranch with _ | b | e
    · exact hthen.both (covers_nil (pure true)) fun s => List.Subset.refl s
    · exact hthen.both (covers_block h b) (collects_block (collects_argument n) b)
    · exact hthen.both (h e) (collects_argument n e)
  | matchExpr id scrutinee arms => exact covers_matchArms h arms
  | handle id operand arms =>
    exact (h operand).both (covers_handleArms h arms)
      (collects_handleArms (collects_argument n) arms)
  | block b => exact covers_block h b
  | unary id op operand | cast id operand | tryExpr id operand =>
    intro out hok
    cases hok
  | _ => exact covers_nil _

theorem mem_of_resolved {out : List LocalPlace} {place : LocalPlace}
    (haffine : C.isAffineExpr e.id = true) (h : C.resolvePlace e = some place) :
    place ∈ ((collectArgumentPlaces C e (n + 1)).run out).2 := by
  unfold collectArgumentPlaces
  simp only [haffine, Bool.not_true, Bool.false_eq_true, if_false]
  cases e with
  | localVar id binding =>
    cases h
    exact List.mem_append_right out (List.mem_singleton.mpr rfl)
  | field id base =>
    simp only [h]
    exact List.mem_append_right out (List.mem_singleton.mpr rfl)
  | _ => cases h

theorem covers_argument : ∀ n e, Covers C (collectArgumentPlaces C e n) [e]
  | 0, e => by
    intro out hok
    cases e <;> cases hok
  | n + 1, e => by
    intro out hok e' hmem place hpasses
    rw [List.mem_singleton] at hmem
    subst hmem
    cases hpasses with
    | named haffine hplace => exact mem_of_resolved haffine hplace
    | forwarded haffine hforward hpasses =>
      exact covers_forwards (covers_argument n) haffine out hok _ hforward place hpasses

end

/-! ### The verdict -/

/-- What is known of one affine argument: whether it is taken, whether its value can be
followed, and the places found. -/
structure ArgumentSource where
  taken : Bool
  followed : Bool
  places : List LocalPlace

def ArgumentSource.collected (source : ArgumentSource) : Bool × Id (Bool × List LocalPlace) :=
  (source.taken, (source.followed, source.places))

def argumentSource (C : FlowContext) (arg : HirExpr × Bool) : ArgumentSource :=
  let found := (collectArgumentPlaces C arg.1 Limits.maxGenericDepth).run []
  ⟨arg.2, found.1, found.2⟩

def argumentSources (C : FlowContext) (args : List (HirExpr × Bool)) : List ArgumentSource :=
  (args.filter fun arg => C.isAffineExpr arg.1.id).map (argumentSource C)

def unfollowed (sources : List ArgumentSource) : List ArgumentSource :=
  sources.filter fun source => !source.followed

/-- The places of the arguments that are followed and taken, or that are not taken. -/
def placesGiven (taken : Bool) (sources : List ArgumentSource) : List LocalPlace :=
  (sources.filter fun source => source.followed && source.taken == taken).flatMap (·.places)

/-- What the check of a call refuses. -/
def Mixes (sources : List ArgumentSource) : Prop :=
  (unfollowed sources ≠ [] ∧ (placesGiven false sources ≠ [] ∨ placesGiven true sources ≠ [] ∨
    (unfollowed sources).length > 1)) ∨
  ∃ place ∈ placesGiven true sources, ∃ place' ∈ placesGiven false sources,
    placesOverlap place place' = true

instance (sources : List ArgumentSource) : Decidable (Mixes sources) :=
  inferInstanceAs (Decidable (_ ∨ _))

theorem mixes_of_perm {sources sources' : List ArgumentSource} (h : sources.Perm sources') :
    Mixes sources ↔ Mixes sources' := by
  have hunfollowed : (unfollowed sources).Perm (unfollowed sources') := h.filter _
  have hgiven : ∀ taken, (placesGiven taken sources).Perm (placesGiven taken sources') :=
    fun taken => (h.filter _).flatMap_right _
  have hempty : ∀ taken, placesGiven taken sources = [] ↔ placesGiven taken sources' = [] := by
    intro taken
    rw [← List.length_eq_zero_iff, ← List.length_eq_zero_iff, (hgiven taken).length_eq]
  have hnone : unfollowed sources = [] ↔ unfollowed sources' = [] := by
    rw [← List.length_eq_zero_iff, ← List.length_eq_zero_iff, hunfollowed.length_eq]
  simp only [Mixes, ne_eq, hnone, hempty, hunfollowed.length_eq, (hgiven _).mem_iff]

theorem argumentSources_moded (C : FlowContext) (callee : HirExpr) (args : List HirExpr) :
    argumentSources C (moded C callee args) =
      (args.zipIdx.filter fun arg => C.isAffineExpr arg.1.id).map fun arg =>
        argumentSource C (arg.1, takes C callee arg.2) := by
  simp only [argumentSources, moded, List.filter_map, List.map_map]
  rfl

theorem rejectMixed_eq (C : FlowContext) (callee : HirExpr) (args : List HirExpr) :
    rejectMixedObserveTakeAliases C callee args =
      if Mixes (argumentSources C (moded C callee args)) then diagnose Codes.mixedObserveTakeAlias
      else pure () := by
  have hcollected : ((args.zipIdx.filter fun arg => C.isAffineExpr arg.1.id).map fun arg =>
      (takes C callee arg.2,
        (collectArgumentPlaces C arg.1 Limits.maxGenericDepth).run [])) =
      (argumentSources C (moded C callee args)).map ArgumentSource.collected := by
    rw [argumentSources_moded, List.map_map]
    rfl
  generalize argumentSources C (moded C callee args) = sources at hcollected ⊢
  have hunfollowed : (sources.map ArgumentSource.collected).filter (fun arg => !arg.2.1) =
      (unfollowed sources).map ArgumentSource.collected := List.filter_map
  have htaken : (((sources.map ArgumentSource.collected).filter fun arg => arg.2.1).filter
      fun arg => arg.1).flatMap (fun arg => arg.2.2) =
      placesGiven true sources := by
    simp only [placesGiven, List.filter_map, List.flatMap_map, List.filter_filter]
    congr 2
    funext source
    obtain ⟨taken, followed, places⟩ := source
    cases taken <;> cases followed <;> rfl
  have hobserved : (((sources.map ArgumentSource.collected).filter fun arg => arg.2.1).filter
      fun arg => !arg.1).flatMap (fun arg => arg.2.2) =
      placesGiven false sources := by
    simp only [placesGiven, List.filter_map, List.flatMap_map, List.filter_filter]
    congr 2
    funext source
    obtain ⟨taken, followed, places⟩ := source
    cases taken <;> cases followed <;> rfl
  unfold rejectMixedObserveTakeAliases
  simp only [hcollected, hunfollowed, htaken, hobserved, ne_eq, List.map_eq_nil_iff, List.length_map]
  by_cases hopaque : ¬unfollowed sources = [] ∧ (¬placesGiven false sources = [] ∨
      ¬placesGiven true sources = [] ∨ (unfollowed sources).length > 1)
  · rw [if_pos hopaque, if_pos (.inl hopaque)]
  · have hoverlap : Mixes sources ↔ ((placesGiven true sources).any fun place =>
        (placesGiven false sources).any (placesOverlap place)) = true := by
      simp only [Mixes, ne_eq, hopaque, false_or, List.any_eq_true]
    rw [if_neg hopaque]
    simp only [hoverlap]

/-! ### What a call that is let through passes -/

theorem mem_placesGiven {C : FlowContext} {args : List (HirExpr × Bool)} {e : HirExpr} {taken : Bool}
    {place : LocalPlace} (hmem : (e, taken) ∈ args) (hpasses : Passes C e place)
    (hfollowed : (argumentSource C (e, taken)).followed = true) :
    place ∈ placesGiven taken (argumentSources C args) := by
  have hsource : argumentSource C (e, taken) ∈ argumentSources C args :=
    List.mem_map_of_mem (List.mem_filter.mpr ⟨hmem, hpasses.affine⟩)
  have hplace : place ∈ (argumentSource C (e, taken)).places :=
    covers_argument Limits.maxGenericDepth e [] hfollowed e (List.mem_singleton.mpr rfl) place hpasses
  apply List.mem_flatMap.mpr
  refine ⟨_, List.mem_filter.mpr ⟨hsource, ?_⟩, hplace⟩
  have htaken : ((argumentSource C (e, taken)).taken == taken) = true := beq_self_eq_true taken
  rw [hfollowed, htaken, Bool.true_and]

theorem mem_unfollowed {C : FlowContext} {args : List (HirExpr × Bool)} {e : HirExpr} {taken : Bool}
    {place : LocalPlace} (hmem : (e, taken) ∈ args) (hpasses : Passes C e place)
    (hfollowed : (argumentSource C (e, taken)).followed = false) :
    argumentSource C (e, taken) ∈ unfollowed (argumentSources C args) := by
  have hsource : argumentSource C (e, taken) ∈ argumentSources C args :=
    List.mem_map_of_mem (List.mem_filter.mpr ⟨hmem, hpasses.affine⟩)
  exact List.mem_filter.mpr ⟨hsource, by simp only [hfollowed, Bool.not_false]⟩

theorem one_lt_length_of_mem {α : Type} {l : List α} {a b : α} (ha : a ∈ l) (hb : b ∈ l)
    (hne : a ≠ b) : l.length > 1 := by
  match l, ha, hb with
  | [c], ha, hb =>
    rw [List.mem_singleton] at ha hb
    exact absurd (ha.trans hb.symm) hne
  | _ :: _ :: _, _, _ => simp

theorem aliasFree_of_not_mixes {C : FlowContext} {args : List (HirExpr × Bool)}
    (h : ¬Mixes (argumentSources C args)) : AliasFree C args := by
  intro observed taken place place' hobserved htaken hpasses hpasses'
  have hquiet : ∀ {e t p} (_ : (e, t) ∈ args) (_ : Passes C e p),
      (argumentSource C (e, t)).followed = false →
      placesGiven false (argumentSources C args) = [] ∧
      placesGiven true (argumentSources C args) = [] ∧
      ¬(unfollowed (argumentSources C args)).length > 1 := by
    intro e t p hmem hp hopaque
    have hne := List.ne_nil_of_mem (mem_unfollowed hmem hp hopaque)
    by_contra hsome
    exact h (.inl ⟨hne, by tauto⟩)
  cases ho : (argumentSource C (observed, false)).followed with
  | false =>
    obtain ⟨-, hnone, hone⟩ := hquiet hobserved hpasses ho
    cases ht : (argumentSource C (taken, true)).followed with
    | false =>
      have hne : argumentSource C (observed, false) ≠ argumentSource C (taken, true) :=
        fun heq => Bool.false_ne_true (congrArg ArgumentSource.taken heq)
      exact absurd (one_lt_length_of_mem (mem_unfollowed hobserved hpasses ho)
        (mem_unfollowed htaken hpasses' ht) hne) hone
    | true =>
      have hmem := mem_placesGiven htaken hpasses' ht
      rw [hnone] at hmem
      cases hmem
  | true =>
    have hmem := mem_placesGiven hobserved hpasses ho
    cases ht : (argumentSource C (taken, true)).followed with
    | false =>
      rw [(hquiet htaken hpasses' ht).1] at hmem
      cases hmem
    | true =>
      by_contra hoverlap
      have hcomm : placesOverlap place' place = placesOverlap place place' := Bool.or_comm _ _
      refine h (.inr ⟨place', mem_placesGiven htaken hpasses' ht, place, hmem, ?_⟩)
      rw [hcomm]
      simpa using hoverlap

theorem not_mixes_of_silent {C : FlowContext} {id : ExprId} {callee : HirExpr} {args : List HirExpr}
    {kind : ConsumeKind} {s : FlowState}
    (h : (after (checkExprCtxInner C (.call id callee args) kind) s).diagnostics = s.diagnostics) :
    ¬Mixes (argumentSources C (moded C callee args)) := by
  intro hmixes
  have hcallee := (keeps_checkExprCtxInner C callee .read).grows s
  unfold checkExprCtxInner at h
  simp only [after_bind, after_ite, rejectMixed_eq, hmixes, if_true] at h
  have hlength := congrArg List.length h
  split at hlength
  · have hle := hcallee.diagnostics.length_le
    simp only [after, diagnose, run_modify, List.length_append, List.length_singleton] at hlength hle
    omega
  · have hargs := (keeps_checkArgs C callee 0 args).grows
      (after (diagnose Codes.mixedObserveTakeAlias) (after (checkExprCtxInner C callee .read) s))
    have hle := hcallee.diagnostics.length_le
    have hle' := hargs.diagnostics.length_le
    simp only [after, diagnose, run_modify, List.length_append, List.length_singleton] at hlength hle hle'
    omega

/-- What one call is let through with: it passes no affine place both ways, and
which argument comes first does not matter to the check. -/
theorem mixed_arguments_apart (C : FlowContext) (id : ExprId) (callee : HirExpr)
    (args : List HirExpr) (kind : ConsumeKind) (s : FlowState) :
    ((after (checkExprCtxInner C (.call id callee args) kind) s).diagnostics = s.diagnostics →
      AliasFree C (moded C callee args)) ∧
    ∀ callee' args', (moded C callee args).Perm (moded C callee' args') →
      rejectMixedObserveTakeAliases C callee args = rejectMixedObserveTakeAliases C callee' args' := by
  constructor
  · intro hsilent
    exact aliasFree_of_not_mixes (not_mixes_of_silent hsilent)
  · intro callee' args' hperm
    have hsources : (argumentSources C (moded C callee args)).Perm
        (argumentSources C (moded C callee' args')) := (hperm.filter _).map _
    simp only [rejectMixed_eq, mixes_of_perm hsources]

end

/-- Two functions of two parameters, that take the second one or the first. -/
def pairContext (ty : Ty) : FlowContext :=
  { fileContext with
    localTypes := fun _ => some ty
    exprTypes := fun id => if id.index < 10 then some ty else some .i64
    takeFlags := fun item => some (if item = ⟨6⟩ then [true, false] else [false, true]) }

/-- With the files of two locals, in either order. -/
theorem mixed_arguments_apart_files :
    AliasFree (pairContext (.named ⟨0⟩)) (moded (pairContext (.named ⟨0⟩)) (.function ⟨12⟩ ⟨5⟩)
      [.localVar ⟨1⟩ ⟨0⟩, .localVar ⟨2⟩ ⟨1⟩]) ∧
    rejectMixedObserveTakeAliases (pairContext (.named ⟨0⟩)) (.function ⟨12⟩ ⟨5⟩)
        [.localVar ⟨1⟩ ⟨0⟩, .localVar ⟨2⟩ ⟨1⟩] =
      rejectMixedObserveTakeAliases (pairContext (.named ⟨0⟩)) (.function ⟨12⟩ ⟨6⟩)
        [.localVar ⟨2⟩ ⟨1⟩, .localVar ⟨1⟩ ⟨0⟩] := by
  have h := mixed_arguments_apart (pairContext (.named ⟨0⟩)) ⟨11⟩ (.function ⟨12⟩ ⟨5⟩)
    [.localVar ⟨1⟩ ⟨0⟩, .localVar ⟨2⟩ ⟨1⟩] .read {}
  exact ⟨h.1 (by decide), h.2 _ _ (List.Perm.swap _ _ _)⟩

end Napitia.Resourceck
