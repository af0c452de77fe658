import Mathlib.Order.Filter.AtTopBot.Basic
import Mathlib.Order.Filter.Finite
import Napitia.Lib.Memo
import Napitia.Resourceck.Affine
import Napitia.Typeck.Cycles
import Napitia.Verify.Acceptance
import Napitia.Verify.Affine
import Napitia.Lower.Decision

/-!
# One affinity, five answers

A type is affine when it holds a resource by value, at whatever depth. Five stages
ask for it separately. Three of them stop looking at a depth, and two take a
declaration met again below itself for a cycle. They agree, on every type they are
asked for, exactly where no type that holds a resource is cut off on the way.
-/
namespace Napitia.Affinity
open Typeck Nir

section
variable (A : AffineContext)

/-- The type of a field or payload of `outer`, whose arguments stand for the
declaration's parameters. -/
def Holds (outer inner : Ty) : Prop :=
  ∃ inst, instanceOf outer = some inst ∧ ∃ field ∈ A.fieldTypes inst.declaration,
    inner = field.instantiate
      (collectSubst ((A.itemTypeParams inst.declaration).getD []) inst.arguments).get

/-- The type is a resource or holds one by value at some depth. -/
inductive Affine : Ty → Prop
  | resource {ty : Ty} {inst : GenericInstanceKey} : instanceOf ty = some inst →
      A.declaredResource inst.declaration = true → Affine ty
  | held {outer inner : Ty} : Holds A outer inner → Affine inner → Affine outer

/-- A resource stands among the first `n` types of a chain held by value. -/
def AffineWithin : ℕ → Ty → Prop
  | 0, _ => False
  | n + 1, ty => (∃ inst, instanceOf ty = some inst ∧ A.declaredResource inst.declaration = true) ∨
      ∃ inner, Holds A ty inner ∧ AffineWithin n inner

/-- Applications have the arity of the item they apply, and a plain name is that of
an item without parameters. -/
inductive WellFormed : Ty → Prop
  | named {item : ItemId} : (A.itemTypeParams item).getD [] = [] → WellFormed (.named item)
  | applied {item : ItemId} {args : List Ty} {params : List TypeParamId} :
      A.itemTypeParams item = some params → params.length = args.length →
      (∀ a ∈ args, WellFormed a) → WellFormed (.applied item args)
  | other {ty : Ty} : instanceOf ty = none → WellFormed ty

/-- Field and payload types are well formed and within the depth a type reference
resolves at, and only items with parameters recorded have any. -/
structure Declared : Prop where
  wellFormed : ∀ item, ∀ field ∈ A.fieldTypes item, WellFormed A field
  shallow : ∀ item, ∀ field ∈ A.fieldTypes item,
    exceedsGenericDepth (Limits.maxGenericDepth + 1) field = false

end

section
variable {A : AffineContext}

theorem not_affine_of_instanceOf_none {ty : Ty} (h : instanceOf ty = none) : ¬ Affine A ty := by
  intro haffine
  cases haffine with
  | resource hsome => exact absurd hsome (by simp [h])
  | held hholds =>
    have ⟨_, hsome, _⟩ := hholds
    exact absurd hsome (by simp [h])

theorem WellFormed.instantiate {f : TypeParamId → Ty} (hf : ∀ id, WellFormed A (f id)) {ty : Ty}
    (h : WellFormed A ty) : WellFormed A (ty.instantiate f) := by
  induction h with
  | named hparams => exact .named hparams
  | applied hparams hlen _ ih =>
    rw [Ty.instantiate_applied]
    refine .applied hparams (by simpa using hlen) fun a ha => ?_
    have ⟨arg, harg, heq⟩ := List.mem_map.mp ha
    exact heq ▸ ih arg harg
  | @other ty hnone =>
    cases ty with
    | param id => exact hf id
    | named item => exact absurd hnone (by simp [instanceOf])
    | applied item args => exact absurd hnone (by simp [instanceOf])
    | _ => exact .other rfl

theorem WellFormed.holds {outer inner : Ty} (hA : Declared A) (h : WellFormed A outer)
    (hholds : Holds A outer inner) : WellFormed A inner := by
  have ⟨inst, hinst, field, hfield, heq⟩ := hholds
  rw [heq]
  apply (hA.wellFormed _ field hfield).instantiate
  intro id
  have hargs : ∀ a ∈ inst.arguments, WellFormed A a := by
    cases h with
    | named => cases hinst; simp
    | applied _ _ hargs => cases hinst; exact hargs
    | other hnone => exact absurd hinst (by simp [hnone])
  rcases @collectSubst_get_mem ((A.itemTypeParams inst.declaration).getD []) inst.arguments id
    with hmem | hparam
  · exact hargs _ hmem
  · exact hparam ▸ .other rfl

/-! ### One level of the question -/

theorem instantiate_no_arguments (params : List TypeParamId) (ty : Ty) :
    ty.instantiate (collectSubst params []).get = ty := by
  have hempty : collectSubst params [] = ∅ := by simp [collectSubst]
  rw [hempty]
  exact Ty.instantiate_self

theorem holds_named_iff {item : ItemId} {P : Ty → Prop} :
    (∃ inner, Holds A (.named item) inner ∧ P inner) ↔ ∃ field ∈ A.fieldTypes item, P field := by
  constructor
  · intro h
    have ⟨inner, ⟨inst, hinst, field, hfield, heq⟩, hP⟩ := h
    cases hinst
    rw [instantiate_no_arguments] at heq
    exact ⟨field, hfield, heq ▸ hP⟩
  · intro h
    have ⟨field, hfield, hP⟩ := h
    exact ⟨field, ⟨⟨item, []⟩, rfl, field, hfield, (instantiate_no_arguments _ _).symm⟩, hP⟩

theorem holds_applied_iff (hA : Declared A) {item : ItemId} {args : List Ty}
    {params : List TypeParamId} (hparams : A.itemTypeParams item = some params) {P : Ty → Prop} :
    (∃ inner, Holds A (.applied item args) inner ∧ P inner) ↔
      ∃ field ∈ A.fieldTypes item, P (substitute field (collectSubst params args)) := by
  have hfields : ∀ field ∈ A.fieldTypes item, substitute field (collectSubst params args) =
      field.instantiate (collectSubst params args).get := fun field hfield =>
    substitute_eq _ (hA.shallow item field hfield)
  constructor
  · intro h
    have ⟨inner, ⟨inst, hinst, field, hfield, heq⟩, hP⟩ := h
    cases hinst
    refine ⟨field, hfield, ?_⟩
    rw [hfields field hfield]
    rw [hparams] at heq
    exact heq ▸ hP
  · intro h
    have ⟨field, hfield, hP⟩ := h
    refine ⟨_, ⟨⟨item, args⟩, rfl, field, hfield, ?_⟩, hP⟩
    rw [hfields field hfield, hparams]
    rfl

theorem affine_iff {ty : Ty} : Affine A ty ↔
    (∃ inst, instanceOf ty = some inst ∧ A.declaredResource inst.declaration = true) ∨
      ∃ inner, Holds A ty inner ∧ Affine A inner := by
  constructor
  · intro h
    cases h with
    | resource hinst hres => exact .inl ⟨_, hinst, hres⟩
    | held hholds hinner => exact .inr ⟨_, hholds, hinner⟩
  · intro h
    rcases h with ⟨inst, hinst, hres⟩ | ⟨inner, hholds, hinner⟩
    · exact .resource hinst hres
    · exact .held hholds hinner

theorem affine_named {item : ItemId} : Affine A (.named item) ↔
    A.declaredResource item = true ∨ ∃ field ∈ A.fieldTypes item, Affine A field := by
  rw [affine_iff, holds_named_iff]
  simp [instanceOf]

theorem affine_applied (hA : Declared A) {item : ItemId} {args : List Ty}
    {params : List TypeParamId} (hparams : A.itemTypeParams item = some params) :
    Affine A (.applied item args) ↔ A.declaredResource item = true ∨
      ∃ field ∈ A.fieldTypes item, Affine A (substitute field (collectSubst params args)) := by
  rw [affine_iff, holds_applied_iff hA hparams]
  simp [instanceOf]

theorem holds_named {item : ItemId} {field : Ty} (h : field ∈ A.fieldTypes item) :
    Holds A (.named item) field := by
  have ⟨_, hholds, heq⟩ := holds_named_iff.mpr ⟨field, h, rfl⟩
  exact heq ▸ hholds

theorem holds_applied (hA : Declared A) {item : ItemId} {args : List Ty} {field : Ty}
    {params : List TypeParamId} (hparams : A.itemTypeParams item = some params)
    (h : field ∈ A.fieldTypes item) :
    Holds A (.applied item args) (substitute field (collectSubst params args)) := by
  have ⟨_, hholds, heq⟩ := (@holds_applied_iff _ hA item args _ hparams _).mpr ⟨field, h, rfl⟩
  exact heq ▸ hholds

theorem AffineWithin.affine {n : ℕ} {ty : Ty} (h : AffineWithin A n ty) : Affine A ty := by
  induction n generalizing ty with
  | zero => exact h.elim
  | succ n ih =>
    rcases h with hres | ⟨inner, hholds, hinner⟩
    · exact affine_iff.mpr (.inl hres)
    · exact .held hholds (ih hinner)

theorem WellFormed.substitution {item : ItemId} {args : List Ty}
    (h : WellFormed A (.applied item args)) : ∃ params, A.itemTypeParams item = some params ∧
      checkedSubstitution params args = some (collectSubst params args) := by
  cases h with
  | applied hparams hlen _ => exact ⟨_, hparams, checkedSubstitution_eq_some.mpr ⟨hlen, rfl⟩⟩
  | other hnone => exact absurd hnone (by simp [instanceOf])

theorem WellFormed.instantiated {item : ItemId} {args : List Ty}
    (h : WellFormed A (.applied item args)) : ∃ params, A.itemTypeParams item = some params ∧
      (A.itemTypeParams item).bind (checkedSubstitution · args) = some (collectSubst params args) := by
  obtain ⟨params, hparams, hsubst⟩ := h.substitution
  exact ⟨params, hparams, by rw [hparams, Option.bind_some, hsubst]⟩

/-! ### The walks guarded by plain declarations -/

/-- None of the plain declarations being answered for is held. -/
def Fresh (A : AffineContext) (visiting : List ItemId) (ty : Ty) : Prop :=
  ∀ item ∈ visiting, ¬ Relation.ReflTransGen (Holds A) ty (.named item)

theorem Fresh.of_holds {visiting : List ItemId} {ty inner : Ty} (h : Fresh A visiting ty)
    (hholds : Holds A ty inner) : Fresh A visiting inner :=
  fun item hitem hto => h item hitem (hto.head hholds)

theorem Fresh.cons {visiting : List ItemId} {item : ItemId} {inner : Ty}
    (hself : ¬ Relation.TransGen (Holds A) (.named item) (.named item))
    (h : Fresh A visiting (.named item)) (hholds : Holds A (.named item) inner) : Fresh A (item :: visiting) inner := by
  intro other hother hto
  rcases List.mem_cons.mp hother with heq | hmem
  · rw [heq] at hto
    exact hself (.head' hholds hto)
  · exact h.of_holds hholds other hmem hto

/-- A walk that stops at its budget, at a resource and at a plain declaration it is
already answering for, and otherwise asks for the fields. -/
structure GuardedWalk (A : AffineContext) (ask : ℕ → Ty → List ItemId → Bool) : Prop where
  spent : ∀ ty visiting, ask 0 ty visiting = false
  named : ∀ n item visiting, WellFormed A (.named item) → ask (n + 1) (.named item) visiting =
    if A.declaredResource item = true then true
    else if item ∈ visiting then false
    else (A.fieldTypes item).any fun field => ask n field (item :: visiting)
  applied : ∀ n item args params visiting, A.itemTypeParams item = some params →
    checkedSubstitution params args = some (collectSubst params args) →
    ask (n + 1) (.applied item args) visiting =
      if A.declaredResource item = true then true
      else (A.fieldTypes item).any fun field =>
        ask n (substitute field (collectSubst params args)) visiting
  other : ∀ n ty visiting, instanceOf ty = none → ask (n + 1) ty visiting = false

/-- Over declarations without layout cycles such a walk finds a resource exactly when
one stands within its budget. -/
theorem GuardedWalk.iff_within {ask : ℕ → Ty → List ItemId → Bool} (hask : GuardedWalk A ask)
    (hA : Declared A) (hacyclic : ∀ ty, ¬ Relation.TransGen (Holds A) ty ty) {n : ℕ} {ty : Ty}
    {visiting : List ItemId} (hwf : WellFormed A ty) (hfresh : Fresh A visiting ty) :
    ask n ty visiting = true ↔ AffineWithin A n ty := by
  induction n generalizing ty visiting with
  | zero => simp [hask.spent, AffineWithin]
  | succ n ih =>
    cases ty with
    | named item =>
      have hmiss : item ∉ visiting := fun hmem => hfresh item hmem .refl
      have hany : (A.fieldTypes item).any (fun field => ask n field (item :: visiting)) = true ↔
          ∃ field ∈ A.fieldTypes item, AffineWithin A n field := by
        rw [List.any_eq_true]
        apply exists_congr
        intro field
        apply and_congr_right
        intro hfield
        have hholds := holds_named hfield
        exact ih (hwf.holds hA hholds) (.cons (hacyclic _) hfresh hholds)
      rw [AffineWithin, holds_named_iff, hask.named n item visiting hwf, if_neg hmiss, ← hany]
      split <;> simp [*, instanceOf]
    | applied item args =>
      have ⟨params, hparams, hsubst⟩ := hwf.substitution
      have hany : (A.fieldTypes item).any (fun field =>
          ask n (substitute field (collectSubst params args)) visiting) = true ↔
            ∃ field ∈ A.fieldTypes item,
              AffineWithin A n (substitute field (collectSubst params args)) := by
        rw [List.any_eq_true]
        apply exists_congr
        intro field
        apply and_congr_right
        intro hfield
        have hholds := @holds_applied _ hA item args _ _ hparams hfield
        exact ih (hwf.holds hA hholds) (hfresh.of_holds hholds)
      rw [AffineWithin, holds_applied_iff hA hparams,
        hask.applied n item args params visiting hparams hsubst, ← hany]
      split <;> simp [*, instanceOf]
    | _ =>
      refine iff_of_false ?_ fun h => not_affine_of_instanceOf_none ?_ h.affine
      · rw [hask.other n _ visiting rfl]
        exact Bool.false_ne_true
      · rfl

theorem lowering_guardedWalk (L : Lower.Lowering) :
    GuardedWalk (affineContext L.module) L.isAffineVisiting := by
  have hfields : ∀ item, Lower.Lowering.isAffineVisiting.fieldTypes L item =
      (affineContext L.module).fieldTypes item := by
    intro item
    simp only [Lower.Lowering.isAffineVisiting.fieldTypes, AffineContext.fieldTypes, affineContext]
    cases L.module.findRecord item with
    | some record => rfl
    | none => cases L.module.findVariant item <;> rfl
  constructor
  · intro ty visiting
    rfl
  · intro n item visiting _
    rw [Lower.Lowering.isAffineVisiting, hfields]
    rfl
  · intro n item args params visiting hparams hsubst
    have hbind : (((L.module.findRecord item).map fun r => r.typeParams.map (·.1)) <|>
        (L.module.findVariant item).map fun v => v.typeParams.map (·.1)).bind
          (checkedSubstitution · args) = some (collectSubst params args) := by
      have hparams' : (((L.module.findRecord item).map fun r => r.typeParams.map (·.1)) <|>
          (L.module.findVariant item).map fun v => v.typeParams.map (·.1)) = some params := hparams
      rw [hparams']
      exact hsubst
    rw [Lower.Lowering.isAffineVisiting, hfields]
    simp only [hbind]
    rfl
  · intro n ty visiting hnone
    cases ty with
    | named item => exact absurd hnone (by simp [instanceOf])
    | applied item args => exact absurd hnone (by simp [instanceOf])
    | _ => rfl

theorem verifier_guardedWalk {m : Module} (hA : Declared (affineContext m))
    (hrecords : (m.records.map (·.1)).Nodup) (hvariants : (m.variants.map (·.1)).Nodup) :
    GuardedWalk (affineContext m) (Verify.isAffineInVisiting (Verify.aggregateContext m)) := by
  have hrecord : ∀ item, (Verify.aggregateContext m).records item = m.findRecord item :=
    Verify.collected_eq_find hrecords
  have hvariant : ∀ item, (Verify.aggregateContext m).variants item = m.findVariant item :=
    Verify.collected_eq_find hvariants
  have hfields : ∀ item, Verify.fieldTypes (Verify.aggregateContext m) item =
      (affineContext m).fieldTypes item := by
    intro item
    simp only [Verify.fieldTypes, AffineContext.fieldTypes, affineContext, hrecord, hvariant]
    cases m.findRecord item with
    | some record => rfl
    | none => cases m.findVariant item <;> rfl
  have hsubstitution : ∀ item args, Verify.itemSubstitution (Verify.aggregateContext m) item args =
      ((affineContext m).itemTypeParams item).elim (if args = [] then some ∅ else none)
        (checkedSubstitution · args) := by
    intro item args
    simp only [Verify.itemSubstitution, affineContext, hrecord, hvariant]
    cases m.findRecord item with
    | some record => rfl
    | none => cases m.findVariant item <;> rfl
  constructor
  · intro ty visiting
    rfl
  · intro n item visiting hwf
    have hempty : Verify.itemSubstitution (Verify.aggregateContext m) item [] = some ∅ := by
      have hnone : ((affineContext m).itemTypeParams item).getD [] = [] := by
        cases hwf with
        | named hparams => exact hparams
        | other hnone => exact absurd hnone (by simp [instanceOf])
      rw [hsubstitution]
      cases hparams : (affineContext m).itemTypeParams item with
      | none => rfl
      | some params =>
        have hnil : params = [] := by simpa [hparams] using hnone
        rw [hnil]
        rfl
    have hsame : ((affineContext m).fieldTypes item).any (fun field =>
        Verify.isAffineInVisiting (Verify.aggregateContext m) n (substitute field ∅)
          (item :: visiting)) = ((affineContext m).fieldTypes item).any fun field =>
            Verify.isAffineInVisiting (Verify.aggregateContext m) n field (item :: visiting) := by
      rw [Bool.eq_iff_iff, List.any_eq_true, List.any_eq_true]
      apply exists_congr
      intro field
      apply and_congr_right
      intro hfield
      have hself : field.instantiate (Subst.get ∅) = field := Ty.instantiate_self
      rw [substitute_eq _ (hA.shallow item field hfield), hself]
    rw [Verify.isAffineInVisiting, hempty]
    simp only [hfields, hrecord, hsame]
    rfl
  · intro n item args params visiting hparams hsubst
    rw [Verify.isAffineInVisiting, hsubstitution, hparams, Option.elim_some, hsubst]
    simp only [hfields, hrecord]
    rfl
  · intro n ty visiting hnone
    cases ty with
    | named item => exact absurd hnone (by simp [instanceOf])
    | applied item args => exact absurd hnone (by simp [instanceOf])
    | _ => rfl

/-! ### The walks that remember -/

/-- Every remembered answer is right. -/
def RightMemo (A : AffineContext) (memo : AffineMemo) : Prop :=
  ∀ item b, memo.lookup item = some b → (b = true ↔ Affine A (.named item))

theorem RightMemo.empty : RightMemo A ∅ :=
  fun item b h => absurd h (by simp)

theorem RightMemo.insert {memo : AffineMemo} {item : ItemId} {b : Bool} (h : RightMemo A memo)
    (hb : b = true ↔ Affine A (.named item)) : RightMemo A (memo.insert item b) := by
  intro other b' hlookup
  by_cases heq : other = item
  · subst heq
    rw [AList.lookup_insert] at hlookup
    cases hlookup
    exact hb
  · rw [AList.lookup_insert_ne heq] at hlookup
    exact h other b' hlookup

theorem keeps_store {m : Type → Type} [Monad m] [LawfulMonad m] {item : ItemId} {b : Bool}
    (hb : b = true ↔ Affine A (.named item)) :
    (do
      modify fun memo : AffineMemo => memo.insert item b
      pure b : StateT AffineMemo m Bool).Keeps (RightMemo A) fun b =>
        b = true ↔ Affine A (.named item) := by
  apply (StateT.keeps_modify fun memo hmemo => RightMemo.insert hmemo hb).bind
  intro _ _
  exact StateT.keeps_pure hb

theorem answers_false {m : Type → Type} [Monad m] {ty : Ty} {memo : AffineMemo} (h : ¬ Affine A ty)
    (hmemo : RightMemo A memo) : (pure false : StateT AffineMemo m Bool).Answers (RightMemo A)
      (fun b => b = true ↔ Affine A ty) memo :=
  ⟨false, memo, rfl, iff_of_false Bool.false_ne_true h, hmemo⟩

/-- What a walk is asked: about which type, with what is left of its budget, under which
declarations, and remembering what. -/
structure Query where
  budget : ℕ
  ty : Ty
  visiting : List ItemId
  memo : AffineMemo

/-! ### The checker's queries -/

/-- The checker asks a query in the course of answering another. -/
inductive TypeckAsks (A : AffineContext) : Query → Query → Prop
  | field {n : ℕ} {item : ItemId} {visiting : List ItemId} {memo memo' : AffineMemo} {field : Ty}
    (hmiss : memo.lookup item = none) (hnew : item ∉ visiting) (hplain : A.declaredResource item = false)
    (hcome : StateT.ComesTo (fun fty => isAffineVisiting A n fty (item :: visiting)) (· = false)
      (A.fieldTypes item) memo field memo') :
    TypeckAsks A ⟨n + 1, .named item, visiting, memo⟩ ⟨n, field, item :: visiting, memo'⟩
  | payload {n : ℕ} {item : ItemId} {args : List Ty} {visiting : List ItemId} {subst : Subst}
    {memo memo' : AffineMemo} {field : Ty} (hplain : A.declaredResource item = false)
    (hsubst : (A.itemTypeParams item).bind (checkedSubstitution · args) = some subst)
    (hcome : StateT.ComesTo (fun fty => isAffineVisiting A n (substitute fty subst) visiting)
      (· = false) (A.fieldTypes item) memo field memo') :
    TypeckAsks A ⟨n + 1, .applied item args, visiting, memo⟩ ⟨n, substitute field subst, visiting, memo'⟩

/-- The depth limit cuts off no type that holds a resource. -/
def TypeckUncut (A : AffineContext) (q : Query) : Prop :=
  ∀ r, Relation.ReflTransGen (TypeckAsks A) q r → r.budget = 0 → ¬ Affine A r.ty

theorem TypeckUncut.asks {q r : Query} (h : TypeckUncut A q) (hasks : TypeckAsks A q r) :
    TypeckUncut A r := fun r' hreach => h r' (.head hasks hreach)

/-- What holds of the checker's queries: their types are well formed, none of the plain
declarations above is held again, and what is remembered is right. -/
structure TypeckFit (A : AffineContext) (q : Query) : Prop where
  wellFormed : WellFormed A q.ty
  fresh : Fresh A q.visiting q.ty
  memo : RightMemo A q.memo

/-- The checker's answer to a query. -/
abbrev typeckAnswer (A : AffineContext) (q : Query) : StateM AffineMemo Bool :=
  isAffineVisiting A q.budget q.ty q.visiting

theorem TypeckFit.field (hA : Declared A) (hacyclic : ∀ ty, ¬ Relation.TransGen (Holds A) ty ty)
    {n k : ℕ} {item : ItemId} {visiting : List ItemId} {memo memo' : AffineMemo} {field : Ty}
    (h : TypeckFit A ⟨k, .named item, visiting, memo⟩) (hfield : field ∈ A.fieldTypes item)
    (hmemo : RightMemo A memo') : TypeckFit A ⟨n, field, item :: visiting, memo'⟩ :=
  ⟨h.wellFormed.holds hA (holds_named hfield), .cons (hacyclic _) h.fresh (holds_named hfield), hmemo⟩

theorem TypeckFit.payload (hA : Declared A) {n k : ℕ} {item : ItemId} {args : List Ty}
    {params : List TypeParamId} {visiting : List ItemId} {memo memo' : AffineMemo} {field : Ty}
    (h : TypeckFit A ⟨k, .applied item args, visiting, memo⟩)
    (hparams : A.itemTypeParams item = some params) (hfield : field ∈ A.fieldTypes item)
    (hmemo : RightMemo A memo') :
    TypeckFit A ⟨n, substitute field (collectSubst params args), visiting, memo'⟩ := by
  have hholds := @holds_applied _ hA item args _ _ hparams hfield
  exact ⟨h.wellFormed.holds hA hholds, h.fresh.of_holds hholds, hmemo⟩

/-- Where no type that holds a resource is cut off, the checker answers right and
remembers what is right. -/
theorem typeck_answers (hA : Declared A) (hacyclic : ∀ ty, ¬ Relation.TransGen (Holds A) ty ty)
    {q : Query} (hfit : TypeckFit A q) (huncut : TypeckUncut A q) :
    (typeckAnswer A q).Answers (RightMemo A) (fun b => b = true ↔ Affine A q.ty) q.memo := by
  obtain ⟨n, ty, visiting, memo⟩ := q
  induction n generalizing ty visiting memo with
  | zero =>
    have hno : ¬ Affine A ty := huncut _ .refl rfl
    rw [typeckAnswer, isAffineVisiting]
    exact answers_false hno hfit.memo
  | succ n ih =>
    cases ty with
    | named item =>
      have hnew : item ∉ visiting := fun hmem => hfit.fresh item hmem .refl
      change (isAffineVisiting A (n + 1) (.named item) visiting).Answers (RightMemo A)
        (fun b => b = true ↔ Affine A (.named item)) memo
      rw [isAffineVisiting]
      apply StateT.Answers.of_get
      cases hlookup : memo.lookup item with
      | some cached =>
        have hright : cached = true ↔ Affine A (.named item) := hfit.memo item cached hlookup
        exact StateT.keeps_pure (P := fun b => b = true ↔ Affine A (.named item)) hright memo hfit.memo
      | none =>
        simp only [if_neg hnew]
        split
        · rename_i hres
          exact keeps_store (by simp [affine_named, hres]) memo hfit.memo
        · rename_i hplain
          have hany : ((A.fieldTypes item).anyM fun field =>
              isAffineVisiting A n field (item :: visiting)).Answers (RightMemo A)
                (fun b => b = true ↔ ∃ field ∈ A.fieldTypes item, Affine A field) memo := by
            refine .anyM (fun field t hcome ht => ?_) hfit.memo
            exact ih field (item :: visiting) t (hfit.field hA hacyclic hcome.mem ht)
              (huncut.asks (.field hlookup hnew (Bool.eq_false_of_not_eq_true hplain) hcome))
          apply hany.bind
          intro b t hb ht _
          exact keeps_store (by simpa [affine_named, hplain] using hb) t ht
    | applied item args =>
      obtain ⟨params, hparams, hbind⟩ := hfit.wellFormed.instantiated
      change (isAffineVisiting A (n + 1) (.applied item args) visiting).Answers (RightMemo A)
        (fun b => b = true ↔ Affine A (.applied item args)) memo
      rw [isAffineVisiting]
      simp only [hbind, affine_applied hA hparams]
      split
      · rename_i hres
        exact StateT.keeps_pure (by simp [hres]) memo hfit.memo
      · rename_i hplain
        have hany : ((A.fieldTypes item).anyM fun field =>
            isAffineVisiting A n (substitute field (collectSubst params args)) visiting).Answers
              (RightMemo A) (fun b => b = true ↔ ∃ field ∈ A.fieldTypes item,
                Affine A (substitute field (collectSubst params args))) memo := by
          refine .anyM (fun field t hcome ht => ?_) hfit.memo
          exact ih (substitute field (collectSubst params args)) visiting t
            (hfit.payload hA hparams hcome.mem ht)
            (huncut.asks (.payload (Bool.eq_false_of_not_eq_true hplain) hbind hcome))
        exact hany.mono fun b hb => by simpa [hplain] using hb
    | _ =>
      refine answers_false (m := Id) (not_affine_of_instanceOf_none ?_) hfit.memo
      rfl

theorem TypeckAsks.fit (hA : Declared A) (hacyclic : ∀ ty, ¬ Relation.TransGen (Holds A) ty ty)
    {q r : Query} (h : TypeckAsks A q r) (hfit : TypeckFit A q) (huncut : TypeckUncut A q) :
    TypeckFit A r := by
  cases h with
  | @field n item visiting memo memo' field hmiss hnew hplain hcome =>
    refine hfit.field hA hacyclic hcome.mem ?_
    refine hcome.keeps (fun _ _ heq => heq) (Q := fun field b => b = true ↔ Affine A field) ?_ hfit.memo
    intro other t hother ht
    exact typeck_answers hA hacyclic (hfit.field hA hacyclic hother.mem ht)
      (huncut.asks (.field hmiss hnew hplain hother))
  | @payload n item args visiting subst memo memo' field hplain hsubst hcome =>
    obtain ⟨params, hparams, hbind⟩ := hfit.wellFormed.instantiated
    obtain rfl := Option.some.inj (hsubst.symm.trans hbind)
    refine hfit.payload hA hparams hcome.mem ?_
    refine hcome.keeps (fun _ _ heq => heq)
      (Q := fun field b => b = true ↔ Affine A (substitute field (collectSubst params args))) ?_ hfit.memo
    intro other t hother ht
    exact typeck_answers hA hacyclic (hfit.payload hA hparams hother.mem ht)
      (huncut.asks (.payload hplain hsubst hother))

theorem typeck_reached (hA : Declared A) (hacyclic : ∀ ty, ¬ Relation.TransGen (Holds A) ty ty)
    {q r : Query} (h : Relation.ReflTransGen (TypeckAsks A) q r) (hfit : TypeckFit A q)
    (huncut : TypeckUncut A q) : TypeckFit A r ∧ TypeckUncut A r := by
  induction h with
  | refl => exact ⟨hfit, huncut⟩
  | tail _ hasks ih => exact ⟨hasks.fit hA hacyclic ih.1 ih.2, ih.2.asks hasks⟩

/-! ### The ownership checker's queries -/

/-- The ownership checker asks a query in the course of answering another. -/
inductive ResourceckAsks (A : AffineContext) : Query → Query → Prop
  | field {n : ℕ} {item : ItemId} {visiting : List ItemId} {memo memo' : AffineMemo} {field : Ty}
    (hmiss : memo.lookup item = none) (hnew : item ∉ visiting) (hplain : A.declaredResource item = false)
    (hcome : StateT.ComesTo (fun fty => Resourceck.isAffineTy A n fty (item :: visiting)) (· = false)
      (A.fieldTypes item) memo field memo') :
    ResourceckAsks A ⟨n + 1, .named item, visiting, memo⟩ ⟨n, field, item :: visiting, memo'⟩
  | payload {n : ℕ} {item : ItemId} {args : List Ty} {visiting : List ItemId} {subst : Subst}
    {memo memo' : AffineMemo} {field : Ty} (hnew : item ∉ visiting)
    (hplain : A.declaredResource item = false)
    (hsubst : (A.itemTypeParams item).bind (checkedSubstitution · args) = some subst)
    (hcome : StateT.ComesTo
      (fun fty => Resourceck.isAffineTy A n (substitute fty subst) (item :: visiting)) (· = false)
      (A.fieldTypes item) memo field memo') :
    ResourceckAsks A ⟨n + 1, .applied item args, visiting, memo⟩
      ⟨n, substitute field subst, item :: visiting, memo'⟩

/-- The declaration is being answered for already, so that the answer is `false`. -/
def TurnedBack (A : AffineContext) (q : Query) : Prop :=
  ∃ inst, instanceOf q.ty = some inst ∧ inst.declaration ∈ q.visiting ∧
    A.declaredResource inst.declaration = false ∧
    (q.ty = .named inst.declaration → q.memo.lookup inst.declaration = none)

/-- No type that holds a resource is turned back. -/
def ResourceckUncut (A : AffineContext) (q : Query) : Prop :=
  ∀ r, Relation.ReflTransGen (ResourceckAsks A) q r → TurnedBack A r → ¬ Affine A r.ty

theorem ResourceckUncut.asks {q r : Query} (h : ResourceckUncut A q) (hasks : ResourceckAsks A q r) :
    ResourceckUncut A r := fun r' hreach => h r' (.head hasks hreach)

/-- The keys that are not being answered for. -/
def unvisited (keys visiting : List ItemId) : List ItemId := keys.filter (· ∉ visiting)

/-- What holds of the ownership checker's queries: instantiations are well formed, what is
remembered is right, and the budget is enough for the declarations that are left. -/
structure ResourceckFit (A : AffineContext) (keys : List ItemId) (q : Query) : Prop where
  wellFormed : ∀ item args, q.ty = .applied item args → WellFormed A q.ty
  enough : (unvisited keys q.visiting).length < q.budget
  memo : RightMemo A q.memo

/-- The ownership checker's answer to a query. -/
abbrev resourceckAnswer (A : AffineContext) (q : Query) : StateT AffineMemo Option Bool :=
  Resourceck.isAffineTy A q.budget q.ty q.visiting

theorem unvisited_cons_lt {keys visiting : List ItemId} {item : ItemId} (hkey : item ∈ keys)
    (hnew : item ∉ visiting) :
    (unvisited keys (item :: visiting)).length < (unvisited keys visiting).length := by
  have heq : unvisited keys (item :: visiting) = (unvisited keys visiting).filter (· ≠ item) := by
    unfold unvisited
    rw [List.filter_filter]
    apply List.filter_congr
    intro key _
    simp only [List.mem_cons, not_or, Bool.decide_and, ne_eq]
  rw [heq]
  exact List.length_filter_lt_length_iff_exists.mpr
    ⟨item, List.mem_filter.mpr ⟨hkey, by simpa using hnew⟩, by simp⟩

theorem ResourceckFit.field (hA : Declared A) {keys : List ItemId}
    (hkeys : ∀ item, ∀ field ∈ A.fieldTypes item, item ∈ keys) {n : ℕ} {item : ItemId}
    {visiting : List ItemId} {memo memo' : AffineMemo} {field : Ty}
    (h : ResourceckFit A keys ⟨n + 1, .named item, visiting, memo⟩) (hnew : item ∉ visiting)
    (hfield : field ∈ A.fieldTypes item) (hmemo : RightMemo A memo') :
    ResourceckFit A keys ⟨n, field, item :: visiting, memo'⟩ := by
  refine ⟨fun _ _ _ => hA.wellFormed item field hfield, ?_, hmemo⟩
  have hlt := unvisited_cons_lt (hkeys item field hfield) hnew
  have henough : (unvisited keys visiting).length < n + 1 := h.enough
  change (unvisited keys (item :: visiting)).length < n
  omega

theorem ResourceckFit.payload (hA : Declared A) {keys : List ItemId}
    (hkeys : ∀ item, ∀ field ∈ A.fieldTypes item, item ∈ keys) {n : ℕ} {item : ItemId}
    {args : List Ty} {params : List TypeParamId} {visiting : List ItemId} {memo memo' : AffineMemo}
    {field : Ty} (h : ResourceckFit A keys ⟨n + 1, .applied item args, visiting, memo⟩)
    (hnew : item ∉ visiting) (hparams : A.itemTypeParams item = some params)
    (hfield : field ∈ A.fieldTypes item) (hmemo : RightMemo A memo') :
    ResourceckFit A keys
      ⟨n, substitute field (collectSubst params args), item :: visiting, memo'⟩ := by
  have hholds := @holds_applied _ hA item args _ _ hparams hfield
  refine ⟨fun _ _ _ => (h.wellFormed item args rfl).holds hA hholds, ?_, hmemo⟩
  have hlt := unvisited_cons_lt (hkeys item field hfield) hnew
  have henough : (unvisited keys visiting).length < n + 1 := h.enough
  change (unvisited keys (item :: visiting)).length < n
  omega

/-- Where no type that holds a resource is turned back, the ownership checker answers right
and remembers what is right. -/
theorem resourceck_answers (hA : Declared A) {keys : List ItemId}
    (hkeys : ∀ item, ∀ field ∈ A.fieldTypes item, item ∈ keys) {q : Query}
    (hfit : ResourceckFit A keys q) (huncut : ResourceckUncut A q) :
    (resourceckAnswer A q).Answers (RightMemo A) (fun b => b = true ↔ Affine A q.ty) q.memo := by
  obtain ⟨n, ty, visiting, memo⟩ := q
  induction n generalizing ty visiting memo with
  | zero => exact absurd hfit.enough (Nat.not_lt_zero _)
  | succ n ih =>
    cases ty with
    | named item =>
      change (Resourceck.isAffineItem A (Resourceck.isAffineTy A n) item visiting).Answers (RightMemo A)
        (fun b => b = true ↔ Affine A (.named item)) memo
      apply StateT.Answers.of_get
      cases hlookup : memo.lookup item with
      | some cached =>
        have hright : cached = true ↔ Affine A (.named item) := hfit.memo item cached hlookup
        exact StateT.keeps_pure (P := fun b => b = true ↔ Affine A (.named item)) hright memo hfit.memo
      | none =>
        dsimp only
        split
        · rename_i hres
          exact keeps_store (by simp [affine_named, hres]) memo hfit.memo
        · rename_i hplain
          split
          · rename_i hmem
            have hno : ¬ Affine A (.named item) := huncut _ .refl
              ⟨⟨item, []⟩, rfl, hmem, Bool.eq_false_of_not_eq_true hplain, fun _ => hlookup⟩
            exact answers_false hno hfit.memo
          · rename_i hnew
            have hany : ((A.fieldTypes item).anyM fun field =>
                Resourceck.isAffineTy A n field (item :: visiting)).Answers (RightMemo A)
                  (fun b => b = true ↔ ∃ field ∈ A.fieldTypes item, Affine A field) memo := by
              refine .anyM (fun field t hcome ht => ?_) hfit.memo
              exact ih field (item :: visiting) t (hfit.field hA hkeys hnew hcome.mem ht)
                (huncut.asks (.field hlookup hnew (Bool.eq_false_of_not_eq_true hplain) hcome))
            apply hany.bind
            intro b t hb ht _
            exact keeps_store (by simpa [affine_named, hplain] using hb) t ht
    | applied item args =>
      obtain ⟨params, hparams, hbind⟩ := (hfit.wellFormed item args rfl).instantiated
      change (Resourceck.isAffineTy A (n + 1) (.applied item args) visiting).Answers (RightMemo A)
        (fun b => b = true ↔ Affine A (.applied item args)) memo
      rw [Resourceck.isAffineTy]
      simp only [hbind]
      split
      · rename_i hres
        exact StateT.keeps_pure (by simp [affine_applied hA hparams, hres]) memo hfit.memo
      · rename_i hplain
        split
        · rename_i hmem
          have hno : ¬ Affine A (.applied item args) := huncut _ .refl
            ⟨⟨item, args⟩, rfl, hmem, Bool.eq_false_of_not_eq_true hplain, fun heq => by cases heq⟩
          exact answers_false hno hfit.memo
        · rename_i hnew
          have hany : ((A.fieldTypes item).anyM fun field =>
              Resourceck.isAffineTy A n (substitute field (collectSubst params args))
                (item :: visiting)).Answers (RightMemo A) (fun b => b = true ↔
                  ∃ field ∈ A.fieldTypes item,
                    Affine A (substitute field (collectSubst params args))) memo := by
            refine .anyM (fun field t hcome ht => ?_) hfit.memo
            exact ih (substitute field (collectSubst params args)) (item :: visiting) t
              (hfit.payload hA hkeys hnew hparams hcome.mem ht)
              (huncut.asks (.payload hnew (Bool.eq_false_of_not_eq_true hplain) hbind hcome))
          exact hany.mono fun b hb => by simpa [affine_applied hA hparams, hplain] using hb
    | _ =>
      refine answers_false (m := Option) (not_affine_of_instanceOf_none ?_) hfit.memo
      rfl

/-- Where a query is turned back, the answer is `false`. -/
theorem turnedBack_answer {q : Query} (h : TurnedBack A q) {b : Bool} {memo : AffineMemo}
    (hrun : (resourceckAnswer A q).run q.memo = some (b, memo)) : b = false := by
  obtain ⟨n, ty, visiting, memo'⟩ := q
  obtain ⟨inst, hinst, hmem, hplain, hmiss⟩ := h
  cases n with
  | zero => cases hrun
  | succ n =>
    cases ty with
    | named item =>
      cases hinst
      have hanswer : (resourceckAnswer A ⟨n + 1, .named item, visiting, memo'⟩).run memo' =
          some (false, memo') := by
        change (Resourceck.isAffineItem A (Resourceck.isAffineTy A n) item visiting).run memo' = _
        rw [Resourceck.isAffineItem, StateT.run_bind, StateT.run_get, pure_bind]
        simp only [hmiss rfl, hplain, hmem, Bool.false_eq_true, if_false, if_true]
        rfl
      rw [hanswer] at hrun
      cases hrun
      rfl
    | applied item args =>
      cases hinst
      have hanswer : (resourceckAnswer A ⟨n + 1, .applied item args, visiting, memo'⟩).run memo' =
          some (false, memo') := by
        rw [resourceckAnswer, Resourceck.isAffineTy]
        simp only [hplain, hmem, Bool.false_eq_true, if_false, if_true]
        rfl
      rw [hanswer] at hrun
      cases hrun
      rfl
    | _ => cases hinst

theorem ResourceckAsks.fit (hA : Declared A) {keys : List ItemId}
    (hkeys : ∀ item, ∀ field ∈ A.fieldTypes item, item ∈ keys) {q r : Query}
    (h : ResourceckAsks A q r) (hfit : ResourceckFit A keys q) (huncut : ResourceckUncut A q) :
    ResourceckFit A keys r := by
  cases h with
  | @field n item visiting memo memo' field hmiss hnew hplain hcome =>
    refine hfit.field hA hkeys hnew hcome.mem ?_
    refine hcome.keeps (fun _ _ heq => Option.some.inj heq)
      (Q := fun field b => b = true ↔ Affine A field) ?_ hfit.memo
    intro other t hother ht
    exact resourceck_answers hA hkeys (hfit.field hA hkeys hnew hother.mem ht)
      (huncut.asks (.field hmiss hnew hplain hother))
  | @payload n item args visiting subst memo memo' field hnew hplain hsubst hcome =>
    obtain ⟨params, hparams, hbind⟩ := (hfit.wellFormed item args rfl).instantiated
    obtain rfl := Option.some.inj (hsubst.symm.trans hbind)
    refine hfit.payload hA hkeys hnew hparams hcome.mem ?_
    refine hcome.keeps (fun _ _ heq => Option.some.inj heq)
      (Q := fun field b => b = true ↔ Affine A (substitute field (collectSubst params args))) ?_ hfit.memo
    intro other t hother ht
    exact resourceck_answers hA hkeys (hfit.payload hA hkeys hnew hparams hother.mem ht)
      (huncut.asks (.payload hnew hplain hsubst hother))

theorem resourceck_reached (hA : Declared A) {keys : List ItemId}
    (hkeys : ∀ item, ∀ field ∈ A.fieldTypes item, item ∈ keys) {q r : Query}
    (h : Relation.ReflTransGen (ResourceckAsks A) q r) (hfit : ResourceckFit A keys q)
    (huncut : ResourceckUncut A q) : ResourceckFit A keys r ∧ ResourceckUncut A r := by
  induction h with
  | refl => exact ⟨hfit, huncut⟩
  | tail _ hasks ih => exact ⟨hasks.fit hA hkeys ih.1 ih.2, ih.2.asks hasks⟩

/-! ### The flow checker -/

/-- With the set of affine declarations right, the flow checker's own walk ends, since no
type holds itself, and answers right. -/
theorem flow_isAffine (hA : Declared A) {items : List ItemId}
    (hitems : ∀ item, item ∈ items ↔ Affine A (.named item)) {ty : Ty}
    (hacyclic : Acc (fun inner outer => Holds A outer inner) ty) (hwf : WellFormed A ty) :
    ∀ᶠ fuel in Filter.atTop, ∃ b, Resourceck.isAffine A items fuel ty = some b ∧
      (b = true ↔ Affine A ty) := by
  induction hacyclic with
  | intro ty _ ih =>
    cases ty with
    | named item =>
      filter_upwards [Filter.eventually_gt_atTop 0] with fuel hfuel
      obtain ⟨n, rfl⟩ := Nat.exists_eq_succ_of_ne_zero hfuel.ne'
      exact ⟨_, rfl, by simp [hitems]⟩
    | applied item args =>
      obtain ⟨params, hparams, hsubst⟩ := hwf.substitution
      have hfields : ∀ᶠ fuel in Filter.atTop, ∀ field ∈ {field | field ∈ A.fieldTypes item},
          ∃ b, Resourceck.isAffine A items fuel (substitute field (collectSubst params args)) = some b ∧
            (b = true ↔ Affine A (substitute field (collectSubst params args))) := by
        refine (Filter.eventually_all_finite (A.fieldTypes item).finite_toSet).mpr fun field hfield => ?_
        have hholds := @holds_applied _ hA item args _ _ hparams hfield
        exact ih _ hholds (hwf.holds hA hholds)
      obtain ⟨enough, henough⟩ := Filter.eventually_atTop.mp hfields
      filter_upwards [Filter.eventually_gt_atTop enough] with fuel hfuel
      obtain ⟨n, rfl⟩ := Nat.exists_eq_succ_of_ne_zero (Nat.ne_zero_of_lt hfuel)
      obtain ⟨b, hb, hiff⟩ := Option.exists_anyM (henough n (Nat.lt_succ_iff.mp hfuel))
      rw [Resourceck.isAffine, affine_applied hA hparams]
      simp only [hparams, Option.bind_some, hsubst]
      split
      · rename_i hres
        exact ⟨true, rfl, by simp [hres]⟩
      · rename_i hplain
        exact ⟨b, hb, by simpa [hplain] using hiff⟩
    | _ =>
      filter_upwards [Filter.eventually_gt_atTop 0] with fuel hfuel
      obtain ⟨n, rfl⟩ := Nat.exists_eq_succ_of_ne_zero hfuel.ne'
      exact ⟨false, rfl, iff_of_false Bool.false_ne_true (not_affine_of_instanceOf_none rfl)⟩

/-- Where no declaration that holds a resource is turned back, the affine declarations are
collected, in whatever order they are asked for. -/
theorem computeAffineItems_eq_some (hA : Declared A) {keys : List ItemId} {fuel : ℕ}
    (hkeys : ∀ item, ∀ field ∈ A.fieldTypes item, item ∈ keys) (hfuel : keys.length ≤ fuel)
    (huncut : ∀ item memo, StateT.ComesTo
      (fun item => Resourceck.isAffineItem A (Resourceck.isAffineTy A fuel) item []) (fun _ => True)
        keys ∅ item memo → ResourceckUncut A ⟨fuel + 1, .named item, [], memo⟩) :
    ∃ items, Resourceck.computeAffineItems A fuel keys = some items ∧
      ∀ item, item ∈ items ↔ item ∈ keys ∧ Affine A (.named item) := by
  have hanswers := StateT.Answers.filterM (I := RightMemo A) (q := fun item => Affine A (.named item))
    (f := fun item => Resourceck.isAffineItem A (Resourceck.isAffineTy A fuel) item [])
    (l := keys) (s := ∅) (fun item memo hcome hmemo => ?_) .empty
  · obtain ⟨items, memo, hrun, hitems, -⟩ := hanswers
    exact ⟨items, by rw [Resourceck.computeAffineItems, hrun]; rfl, hitems⟩
  · have hfit : ResourceckFit A keys ⟨fuel + 1, .named item, [], memo⟩ := by
      refine ⟨fun _ _ heq => Ty.noConfusion heq, ?_, hmemo⟩
      exact Nat.lt_succ_of_le ((List.length_filter_le _ _).trans hfuel)
    exact resourceck_answers hA hkeys hfit (huncut item memo hcome)

end

/-! ### The five answers -/

/-- The declared aggregates of a module. -/
def keysOf (m : Module) : List ItemId := m.records.map (·.1) ++ m.variants.map (·.1)

/-- The module's declarations as the checks before leave them: distinct, well formed
and free of layout cycles. -/
structure Checked (m : Module) : Prop where
  records : (m.records.map (·.1)).Nodup
  variants : (m.variants.map (·.1)).Nodup
  declared : Declared (affineContext m)
  acyclic : ∀ ty, Acc (fun inner outer => Holds (affineContext m) outer inner) ty

section
variable (m : Module) (queries : List Ty) (keys : List ItemId) (fuel : ℕ)

/-- The checker is asked, by a query of the list or in the course of answering one. -/
def TypeckAsked (q : Query) : Prop :=
  ∃ ty memo, StateT.ComesTo (isAffine (affineContext m)) (fun _ => True) queries ∅ ty memo ∧
    Relation.ReflTransGen (TypeckAsks (affineContext m)) ⟨Limits.maxGenericDepth, ty, [], memo⟩ q

/-- The ownership checker is asked, in the course of collecting the affine declarations. -/
def ResourceckAsked (q : Query) : Prop :=
  ∃ item memo, StateT.ComesTo (fun item => Resourceck.isAffineItem (affineContext m)
      (Resourceck.isAffineTy (affineContext m) fuel) item []) (fun _ => True) keys ∅ item memo ∧
    Relation.ReflTransGen (ResourceckAsks (affineContext m)) ⟨fuel + 1, .named item, [], memo⟩ q

/-- All five computations answer for every query whether the type holds a resource, and the
two that remember answers do so for whatever they are asked on the way. -/
structure AnswersAgree (L : Lower.Lowering) : Prop where
  typeck : List.Forall₂ (fun ty b => b = true ↔ Affine (affineContext m) ty) queries
    (affineAnswers (affineContext m) queries)
  asked : ∀ q, TypeckAsked m queries q →
    (((typeckAnswer (affineContext m) q).run q.memo).1 = true ↔ Affine (affineContext m) q.ty)
  collected : ∀ q, ResourceckAsked m keys fuel q → ∃ b memo,
    (resourceckAnswer (affineContext m) q).run q.memo = some (b, memo) ∧
      (b = true ↔ Affine (affineContext m) q.ty)
  flow : ∃ items, Resourceck.computeAffineItems (affineContext m) fuel keys = some items ∧
    (∀ item, item ∈ items ↔ Affine (affineContext m) (.named item)) ∧
    ∀ ty ∈ queries, ∀ᶠ steps in Filter.atTop, ∃ b,
      Resourceck.isAffine (affineContext m) items steps ty = some b ∧
        (b = true ↔ Affine (affineContext m) ty)
  lowering : ∀ ty ∈ queries, (L.isAffine ty = true ↔ Affine (affineContext m) ty)
  verifier : ∀ ty ∈ queries,
    (Verify.isAffineIn (Verify.aggregateContext m) ty = true ↔ Affine (affineContext m) ty)

/-- No type that holds a resource comes to the depth limit or to a declaration that is being
answered for, and where a query's type holds one, a chain within the limit leads to it. -/
structure NeverCutOff : Prop where
  typeck : ∀ q, TypeckAsked m queries q → q.budget = 0 → ¬ Affine (affineContext m) q.ty
  resourceck : ∀ q, ResourceckAsked m keys fuel q → TurnedBack (affineContext m) q →
    ¬ Affine (affineContext m) q.ty
  within : ∀ ty ∈ queries, Affine (affineContext m) ty →
    AffineWithin (affineContext m) Limits.maxGenericDepth ty

end

theorem not_holds_self_of_acc {A : AffineContext} {ty : Ty}
    (h : Acc (fun inner outer => Holds A outer inner) ty) :
    ¬ Relation.TransGen (Holds A) ty ty := by
  induction h with
  | intro ty _ ih =>
    intro hself
    have ⟨inner, hholds, hback⟩ := Relation.TransGen.head'_iff.mp hself
    exact ih inner hholds (.tail' hback hholds)

theorem mem_keysOf_of_record {m : Module} {item : ItemId} {record : RecordLayout}
    (h : m.findRecord item = some record) : item ∈ keysOf m := by
  obtain ⟨entry, hentry, -⟩ := Option.map_eq_some_iff.mp h
  have heq : entry.1 = item := by simpa using List.find?_some hentry
  exact List.mem_append_left _ (heq ▸ List.mem_map_of_mem (List.mem_of_find?_eq_some hentry))

theorem mem_keysOf_of_field {m : Module} {item : ItemId} {field : Ty}
    (h : field ∈ (affineContext m).fieldTypes item) : item ∈ keysOf m := by
  simp only [AffineContext.fieldTypes, affineContext] at h
  cases hrecord : m.findRecord item with
  | some record => exact mem_keysOf_of_record hrecord
  | none =>
    rw [hrecord] at h
    cases hvariant : m.findVariant item with
    | some variant =>
      obtain ⟨entry, hentry, -⟩ := Option.map_eq_some_iff.mp hvariant
      have heq : entry.1 = item := by simpa using List.find?_some hentry
      exact List.mem_append_right _ (heq ▸ List.mem_map_of_mem (List.mem_of_find?_eq_some hentry))
    | none =>
      rw [hvariant] at h
      exact absurd h List.not_mem_nil

theorem mem_keysOf_of_affine {m : Module} {item : ItemId}
    (h : Affine (affineContext m) (.named item)) : item ∈ keysOf m := by
  rcases affine_named.mp h with hres | ⟨field, hfield, -⟩
  · simp only [affineContext] at hres
    cases hrecord : m.findRecord item with
    | some record => exact mem_keysOf_of_record hrecord
    | none =>
      rw [hrecord] at hres
      cases hres
  · exact mem_keysOf_of_field hfield

section
variable {m : Module} {queries : List Ty} {keys : List ItemId} {fuel : ℕ}

theorem TypeckAsked.fit (hm : Checked m) (hqueries : ∀ ty ∈ queries, WellFormed (affineContext m) ty)
    (huncut : ∀ q, TypeckAsked m queries q → q.budget = 0 → ¬ Affine (affineContext m) q.ty) {q : Query}
    (h : TypeckAsked m queries q) :
    TypeckFit (affineContext m) q ∧ TypeckUncut (affineContext m) q := by
  have hacyclic : ∀ ty, ¬ Relation.TransGen (Holds (affineContext m)) ty ty := fun ty =>
    not_holds_self_of_acc (hm.acyclic ty)
  have hstart : ∀ ty memo, StateT.ComesTo (isAffine (affineContext m)) (fun _ => True) queries ∅ ty memo →
      TypeckUncut (affineContext m) ⟨Limits.maxGenericDepth, ty, [], memo⟩ :=
    fun ty memo hcome r hreach => huncut r ⟨ty, memo, hcome, hreach⟩
  have hfit : ∀ ty memo, StateT.ComesTo (isAffine (affineContext m)) (fun _ => True) queries ∅ ty memo →
      RightMemo (affineContext m) memo →
      TypeckFit (affineContext m) ⟨Limits.maxGenericDepth, ty, [], memo⟩ :=
    fun ty memo hcome hmemo => ⟨hqueries ty hcome.mem, by simp [Fresh], hmemo⟩
  obtain ⟨ty, memo, hcome, hreach⟩ := h
  have hmemo : RightMemo (affineContext m) memo := by
    refine hcome.keeps (fun _ _ heq => heq)
      (Q := fun ty b => b = true ↔ Affine (affineContext m) ty) ?_ .empty
    exact fun ty memo hcome hmemo =>
      typeck_answers hm.declared hacyclic (hfit ty memo hcome hmemo) (hstart ty memo hcome)
  exact typeck_reached hm.declared hacyclic hreach (hfit ty memo hcome hmemo) (hstart ty memo hcome)

theorem ResourceckAsked.fit (hm : Checked m) (hkeys : keys.Perm (keysOf m))
    (hfuel : keys.length ≤ fuel)
    (huncut : ∀ q, ResourceckAsked m keys fuel q → TurnedBack (affineContext m) q →
      ¬ Affine (affineContext m) q.ty) {q : Query} (h : ResourceckAsked m keys fuel q) :
    ResourceckFit (affineContext m) keys q ∧ ResourceckUncut (affineContext m) q := by
  have hfields : ∀ item, ∀ field ∈ (affineContext m).fieldTypes item, item ∈ keys :=
    fun item field hfield => hkeys.mem_iff.mpr (mem_keysOf_of_field hfield)
  have hfit : ∀ item memo, RightMemo (affineContext m) memo →
      ResourceckFit (affineContext m) keys ⟨fuel + 1, .named item, [], memo⟩ :=
    fun item memo hmemo => ⟨fun _ _ heq => Ty.noConfusion heq,
      Nat.lt_succ_of_le ((List.length_filter_le _ _).trans hfuel), hmemo⟩
  have hstart : ∀ item memo, StateT.ComesTo (fun item => Resourceck.isAffineItem (affineContext m)
      (Resourceck.isAffineTy (affineContext m) fuel) item []) (fun _ => True) keys ∅ item memo →
      ResourceckUncut (affineContext m) ⟨fuel + 1, .named item, [], memo⟩ :=
    fun item memo hcome r hreach => huncut r ⟨item, memo, hcome, hreach⟩
  obtain ⟨item, memo, hcome, hreach⟩ := h
  have hmemo : RightMemo (affineContext m) memo := by
    refine hcome.keeps (fun _ _ heq => Option.some.inj heq)
      (Q := fun item b => b = true ↔ Affine (affineContext m) (.named item)) ?_ .empty
    exact fun item memo hcome hmemo =>
      resourceck_answers hm.declared hfields (hfit item memo hmemo) (hstart item memo hcome)
  exact resourceck_reached hm.declared hfields hreach (hfit item memo hmemo) (hstart item memo hcome)

/-- The checker's queries, the declarations the ownership checker collects in any order, its
flow checker, lowering and the verifier all answer that a type is affine exactly when it
holds a resource, if and only if no type that holds one is cut off on the way. -/
theorem affinity_agreement_iff (hm : Checked m) {L : Lower.Lowering} (hL : L.module = m)
    (hqueries : ∀ ty ∈ queries, WellFormed (affineContext m) ty) (hkeys : keys.Perm (keysOf m))
    (hfuel : keys.length ≤ fuel) :
    AnswersAgree m queries keys fuel L ↔ NeverCutOff m queries keys fuel := by
  subst hL
  have hacyclic : ∀ ty, ¬ Relation.TransGen (Holds (affineContext L.module)) ty ty := fun ty =>
    not_holds_self_of_acc (hm.acyclic ty)
  have hwithin : ∀ ask : ℕ → Ty → List ItemId → Bool, GuardedWalk (affineContext L.module) ask →
      ∀ ty ∈ queries, (ask Limits.maxGenericDepth ty [] = true ↔
        AffineWithin (affineContext L.module) Limits.maxGenericDepth ty) :=
    fun ask hask ty hty => hask.iff_within hm.declared hacyclic (hqueries ty hty) (by simp [Fresh])
  have hlowering := hwithin _ (lowering_guardedWalk L)
  have hverifier := hwithin _ (verifier_guardedWalk hm.declared hm.records hm.variants)
  constructor
  · intro hagree
    refine ⟨?_, ?_, ?_⟩
    · intro q hasked hspent
      have hanswer := hagree.asked q hasked
      rw [typeckAnswer, hspent, isAffineVisiting] at hanswer
      exact fun haffine => Bool.false_ne_true (hanswer.mpr haffine)
    · intro q hasked hback haffine
      obtain ⟨b, memo, hrun, hiff⟩ := hagree.collected q hasked
      rw [turnedBack_answer hback hrun] at hiff
      exact Bool.false_ne_true (hiff.mpr haffine)
    · intro ty hty haffine
      exact (hlowering ty hty).mp ((hagree.lowering ty hty).mpr haffine)
  · intro huncut
    have hfields : ∀ item, ∀ field ∈ (affineContext L.module).fieldTypes item, item ∈ keys :=
      fun item field hfield => hkeys.mem_iff.mpr (mem_keysOf_of_field hfield)
    have hexact : ∀ {b : Bool} {ty}, ty ∈ queries →
        (b = true ↔ AffineWithin (affineContext L.module) Limits.maxGenericDepth ty) →
        (b = true ↔ Affine (affineContext L.module) ty) := by
      intro b ty hty hb
      rw [hb]
      exact ⟨AffineWithin.affine, huncut.within ty hty⟩
    refine ⟨?_, ?_, ?_, ?_, ?_, ?_⟩
    · have hanswers := StateT.Answers.mapM (I := RightMemo (affineContext L.module))
        (P := fun ty b => b = true ↔ Affine (affineContext L.module) ty) (l := queries) (s := ∅)
        (f := isAffine (affineContext L.module)) (fun ty memo hcome hmemo => ?_) .empty
      · obtain ⟨bs, memo, hrun, hanswers, -⟩ := hanswers
        have heq : affineAnswers (affineContext L.module) queries = bs := congrArg Prod.fst hrun
        exact heq ▸ hanswers
      · obtain ⟨hfit, hrest⟩ := TypeckAsked.fit hm hqueries huncut.typeck
          ⟨ty, memo, hcome, .refl⟩
        exact typeck_answers hm.declared hacyclic hfit hrest
    · intro q hasked
      obtain ⟨hfit, hrest⟩ := hasked.fit hm hqueries huncut.typeck
      obtain ⟨b, memo, hrun, hiff, -⟩ := typeck_answers hm.declared hacyclic hfit hrest
      rw [hrun]
      exact hiff
    · intro q hasked
      obtain ⟨hfit, hrest⟩ := hasked.fit hm hkeys hfuel huncut.resourceck
      obtain ⟨b, memo, hrun, hiff, -⟩ := resourceck_answers hm.declared hfields hfit hrest
      exact ⟨b, memo, hrun, hiff⟩
    · obtain ⟨items, hrun, hitems⟩ := computeAffineItems_eq_some hm.declared hfields hfuel
        fun item memo hcome => (ResourceckAsked.fit hm hkeys hfuel huncut.resourceck
          ⟨item, memo, hcome, .refl⟩).2
      have hright : ∀ item, item ∈ items ↔ Affine (affineContext L.module) (.named item) := by
        intro item
        rw [hitems item, hkeys.mem_iff]
        exact ⟨fun h => h.2, fun h => ⟨mem_keysOf_of_affine h, h⟩⟩
      exact ⟨items, hrun, hright, fun ty hty =>
        flow_isAffine hm.declared hright (hm.acyclic ty) (hqueries ty hty)⟩
    · exact fun ty hty => hexact hty (hlowering ty hty)
    · exact fun ty hty => hexact hty (hverifier ty hty)

end

/-! ### Boxes and pairs -/

/-- `resource File {}`, `record Box[T] { value: T }` and `record Pair[A, B] { a: A, b: B }`. -/
def boxModule : Module where
  records := [(⟨0⟩, ⟨⟨0⟩, [], [], true⟩),
    (⟨1⟩, ⟨⟨1⟩, [(⟨0⟩, ⟨3⟩)], [(⟨4⟩, .param ⟨0⟩)], false⟩),
    (⟨2⟩, ⟨⟨2⟩, [(⟨1⟩, ⟨5⟩), (⟨2⟩, ⟨6⟩)], [(⟨7⟩, .param ⟨1⟩), (⟨8⟩, .param ⟨2⟩)], false⟩)]

def boxLowering : Lower.Lowering := ⟨boxModule, ∅, fun _ => ""⟩

/-- `File` in so many boxes. -/
def boxes : ℕ → Ty
  | 0 => .named ⟨0⟩
  | n + 1 => .applied ⟨1⟩ [boxes n]

theorem boxModule_fieldTypes {item : ItemId} {field : Ty}
    (h : field ∈ (affineContext boxModule).fieldTypes item) : ∃ param, field = .param param := by
  by_cases hbox : item = ⟨1⟩
  · subst hbox
    exact ⟨⟨0⟩, List.mem_singleton.mp h⟩
  · by_cases hpair : item = ⟨2⟩
    · subst hpair
      rcases List.mem_pair.mp h with heq | heq
      · exact ⟨_, heq⟩
      · exact ⟨_, heq⟩
    · have hnone : (affineContext boxModule).fieldTypes item = [] := by
        by_cases hfile : item = ⟨0⟩
        · subst hfile
          rfl
        · have hrecord : boxModule.findRecord item = none := by
            simp [Module.findRecord, boxModule, Ne.symm hbox, Ne.symm hfile, Ne.symm hpair]
          have hvariant : boxModule.findVariant item = none := rfl
          simp [AffineContext.fieldTypes, affineContext, hrecord, hvariant]
      rw [hnone] at h
      exact absurd h List.not_mem_nil

/-- Every type held is an argument, or a parameter where there is none for it. -/
theorem boxModule_holds {outer inner : Ty} (h : Holds (affineContext boxModule) outer inner) :
    ∃ inst, instanceOf outer = some inst ∧ (inner ∈ inst.arguments ∨ ∃ param, inner = .param param) := by
  obtain ⟨inst, hinst, field, hfield, heq⟩ := h
  obtain ⟨param, hparam⟩ := boxModule_fieldTypes hfield
  rw [hparam, Ty.instantiate_param] at heq
  refine ⟨inst, hinst, ?_⟩
  rw [heq]
  exact (collectSubst_get_mem param).imp_right fun h => ⟨param, h⟩

theorem boxModule_checked : Checked boxModule := by
  refine ⟨by decide, by decide, ⟨?_, ?_⟩, ?_⟩
  · intro item field hfield
    obtain ⟨param, heq⟩ := boxModule_fieldTypes hfield
    rw [heq]
    exact .other rfl
  · intro item field hfield
    obtain ⟨param, heq⟩ := boxModule_fieldTypes hfield
    rw [heq]
    rfl
  · have hparam : ∀ param, Acc (fun inner outer => Holds (affineContext boxModule) outer inner)
        (.param param) := by
      intro param
      refine Acc.intro _ fun inner hholds => ?_
      obtain ⟨_, hinst, _⟩ := boxModule_holds hholds
      exact absurd hinst (by simp [instanceOf])
    intro ty
    induction ty using Ty.induct_applied with
    | applied item args ih =>
      refine Acc.intro _ fun inner hholds => ?_
      obtain ⟨inst, hinst, hinner⟩ := boxModule_holds hholds
      cases hinst
      rcases hinner with hmem | ⟨param, heq⟩
      · exact ih inner hmem
      · exact heq ▸ hparam param
    | other ty hother =>
      refine Acc.intro _ fun inner hholds => ?_
      obtain ⟨inst, hinst, hinner⟩ := boxModule_holds hholds
      cases ty with
      | named item =>
        cases hinst
        rcases hinner with hmem | ⟨param, heq⟩
        · exact absurd hmem List.not_mem_nil
        · exact heq ▸ hparam param
      | applied item args' => exact absurd rfl (hother item args')
      | _ => exact absurd hinst (by simp [instanceOf])

theorem boxes_wellFormed (n : ℕ) : WellFormed (affineContext boxModule) (boxes n) := by
  induction n with
  | zero => exact .named rfl
  | succ n ih => exact @WellFormed.applied _ _ _ [⟨0⟩] rfl rfl (by simpa using ih)

theorem boxes_affine (n : ℕ) : Affine (affineContext boxModule) (boxes n) := by
  induction n with
  | zero => exact @Affine.resource _ _ ⟨⟨0⟩, []⟩ rfl rfl
  | succ n ih => exact .held ⟨⟨⟨1⟩, [boxes n]⟩, rfl, .param ⟨0⟩, List.mem_cons_self, rfl⟩ ih

/-- A file beside a file in so many boxes. -/
def fileAndBoxes (n : ℕ) : Ty := .applied ⟨2⟩ [boxes 0, boxes n]

/-- The file is asked for first, and its answer ends the search. -/
theorem fileAndBoxes_asks {n : ℕ} {r : Query}
    (h : TypeckAsks (affineContext boxModule) ⟨Limits.maxGenericDepth, fileAndBoxes n, [], ∅⟩ r) :
    r = ⟨63, boxes 0, [], ∅⟩ := by
  cases h with
  | @payload _ _ _ _ subst _ memo' field hplain hsubst hcome =>
    have hsubst' : subst = collectSubst [⟨1⟩, ⟨2⟩] [boxes 0, boxes n] :=
      (Option.some.inj hsubst).symm
    subst hsubst'
    obtain ⟨before, rest, heq, hthrough⟩ := hcome
    cases hthrough with
    | nil =>
      obtain ⟨hfield, -⟩ := List.cons.inj heq
      subst hfield
      rfl
    | cons hrun hb _ =>
      obtain ⟨hfield, -⟩ := List.cons.inj heq
      subst hfield
      subst hb
      have hno : true = false := congrArg Prod.fst hrun
      exact absurd hno Bool.noConfusion

theorem file_asks {budget : ℕ} {r : Query} :
    ¬ TypeckAsks (affineContext boxModule) ⟨budget, boxes 0, [], ∅⟩ r := by
  intro h
  cases h with
  | field _ _ hplain _ => exact absurd hplain (by decide)

theorem fileAndBoxes_asked {n : ℕ} {q : Query}
    (h : TypeckAsked boxModule [fileAndBoxes n] q) : q.budget ≠ 0 := by
  obtain ⟨ty, memo, ⟨before, rest, heq, hthrough⟩, hreach⟩ := h
  cases hthrough with
  | cons _ _ _ => exact absurd (List.cons.inj heq).2 (by simp)
  | nil =>
    obtain ⟨heq, -⟩ := List.cons.inj heq
    subst heq
    rcases Relation.ReflTransGen.cases_head hreach with heq | ⟨r, hasks, hrest⟩
    · subst heq
      exact Nat.succ_ne_zero 63
    · have heq := fileAndBoxes_asks hasks
      subst heq
      rcases Relation.ReflTransGen.cases_head hrest with heq | ⟨r', hasks', _⟩
      · subst heq
        exact Nat.succ_ne_zero 62
      · exact absurd hasks' file_asks

/-- Nothing is turned back: the fields declared are parameters, which hold nothing. -/
theorem boxModule_not_turnedBack {keys : List ItemId} {fuel : ℕ} {q : Query}
    (h : ResourceckAsked boxModule keys fuel q) : ¬ TurnedBack (affineContext boxModule) q := by
  obtain ⟨item, memo, -, hreach⟩ := h
  rintro ⟨inst, hinst, hmem, -⟩
  have hend : ∀ r, ResourceckAsks (affineContext boxModule) ⟨fuel + 1, .named item, [], memo⟩ r →
      ∃ param, r.ty = .param param := by
    intro r hasks
    cases hasks with
    | field _ _ _ hcome => exact boxModule_fieldTypes hcome.mem
  rcases Relation.ReflTransGen.cases_head hreach with heq | ⟨r, hasks, hrest⟩
  · subst heq
    exact absurd hmem List.not_mem_nil
  · obtain ⟨param, hparam⟩ := hend r hasks
    rcases Relation.ReflTransGen.cases_head hrest with heq | ⟨r', hasks', _⟩
    · subst heq
      rw [hparam] at hinst
      cases hinst
    · obtain ⟨n, ty, visiting, memo'⟩ := r
      subst hparam
      cases hasks'

/-- A file beside 63 boxes is answered for alike by every stage: the file comes first. -/
theorem affinity_agreement_iff_boxes :
    AnswersAgree boxModule [fileAndBoxes 63] (keysOf boxModule) 3 boxLowering := by
  refine (affinity_agreement_iff boxModule_checked rfl ?_ (.refl _) (by decide)).mpr ⟨?_, ?_, ?_⟩
  · intro ty hty
    rw [List.mem_singleton.mp hty]
    refine @WellFormed.applied _ _ _ [⟨1⟩, ⟨2⟩] rfl rfl fun ty hty => ?_
    rcases List.mem_pair.mp hty with heq | heq
    · exact heq ▸ boxes_wellFormed 0
    · exact heq ▸ boxes_wellFormed 63
  · exact fun q hasked hspent => absurd hspent (fileAndBoxes_asked hasked)
  · exact fun q hasked hback => absurd hback (boxModule_not_turnedBack hasked)
  · intro ty hty _
    rw [List.mem_singleton.mp hty]
    refine .inr ⟨boxes 0, ⟨⟨⟨2⟩, [boxes 0, boxes 63]⟩, rfl, .param ⟨1⟩, List.mem_cons_self, rfl⟩, ?_⟩
    exact .inl ⟨⟨⟨0⟩, []⟩, rfl, rfl⟩

/-- A file in as many boxes as types may nest is affine to the flow checker and to
no other stage. -/
theorem boxes_answers_differ :
    Checked boxModule ∧ WellFormed (affineContext boxModule) (boxes 64) ∧
      exceedsGenericDepth (Limits.maxGenericDepth + 1) (boxes 64) = false ∧
      Affine (affineContext boxModule) (boxes 64) ∧
      (Resourceck.computeAffineItems (affineContext boxModule) 66 (keysOf boxModule)).bind
        (Resourceck.isAffine (affineContext boxModule) · 66 (boxes 64)) = some true ∧
      affineAnswers (affineContext boxModule) [boxes 64] = [false] ∧
      boxLowering.isAffine (boxes 64) = false ∧
      Verify.isAffineIn (Verify.aggregateContext boxModule) (boxes 64) = false := by
  refine ⟨boxModule_checked, boxes_wellFormed 64, ?_, boxes_affine 64, ?_, ?_, ?_, ?_⟩
  all_goals decide +kernel

end Napitia.Affinity
