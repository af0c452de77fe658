import Napitia.Interpreter.Effects
import Napitia.Interpreter.Parts
import Napitia.Lower.Selection

/-!
# Affine before and after instantiation

Lowering decides from a type as it stands in the source whether a discarded value
must be destroyed; the interpreter decides it again from the value. A type that
refines another keeps everything of it but its parameters, so what is affine
before the instantiation is affine after it, and a destruction that was emitted
is never refused.
-/
namespace Napitia.Lower
open Nir Interpreter

/-- A type with some of its parameters filled in. -/
inductive Refines : Ty → Ty → Prop
  | refl (ty : Ty) : Refines ty ty
  | param (id : TypeParamId) (ty : Ty) : Refines (.param id) ty
  | applied {item : ItemId} {args args' : List Ty} : args.length = args'.length →
      (∀ (i : ℕ) (a b : Ty), args[i]? = some a → args'[i]? = some b → Refines a b) →
      Refines (.applied item args) (.applied item args')

/-- Both lists are as long, and each type of the first is refined by the other's. -/
def RefinesAll (args args' : List Ty) : Prop :=
  args.length = args'.length ∧
    ∀ (i : ℕ) (a b : Ty), args[i]? = some a → args'[i]? = some b → Refines a b

theorem Refines.trans {a b c : Ty} (hab : Refines a b) (hbc : Refines b c) : Refines a c := by
  induction hab generalizing c with
  | refl => exact hbc
  | param id => exact .param id c
  | @applied item args args' hlen hargs ih =>
    cases hbc with
    | refl => exact .applied hlen hargs
    | @applied _ _ args'' hlen' hargs' =>
      refine .applied (hlen.trans hlen') fun i x z hx hz => ?_
      have hlt : i < args'.length := by
        rw [hlen']
        exact (List.getElem?_eq_some_iff.mp hz).choose
      have hy := List.getElem?_eq_getElem hlt
      exact ih i x _ hx hy (hargs' i _ z hy hz)

theorem RefinesAll.trans {as bs cs : List Ty} (h : RefinesAll as bs) (h' : RefinesAll bs cs) :
    RefinesAll as cs := by
  refine ⟨h.1.trans h'.1, fun i a c ha hc => ?_⟩
  have hlt : i < bs.length := by
    rw [h'.1]
    exact (List.getElem?_eq_some_iff.mp hc).choose
  have hb := List.getElem?_eq_getElem hlt
  exact (h.2 i a _ ha hb).trans (h'.2 i _ c hb hc)

theorem Refines.args {item : ItemId} {args : List Ty} {ty : Ty} (h : Refines (.applied item args) ty) :
    ∃ args', ty = .applied item args' ∧ RefinesAll args args' := by
  cases h with
  | refl =>
    refine ⟨args, rfl, rfl, fun i a b ha hb => ?_⟩
    rw [ha] at hb
    cases hb
    exact .refl a
  | applied hlen hargs => exact ⟨_, rfl, hlen, hargs⟩

/-- Two substitutions of which the second fills in more. -/
def SubstRefines (subst subst' : Subst) : Prop :=
  ∀ id, Refines ((subst.lookup id).getD (.param id)) ((subst'.lookup id).getD (.param id))

theorem substituteAtDepth_refines {subst subst' : Subst} (h : SubstRefines subst subst') (n : ℕ)
    (ty : Ty) : Refines (substituteAtDepth subst n ty) (substituteAtDepth subst' n ty) := by
  induction n generalizing ty with
  | zero => exact .refl _
  | succ n ih =>
    cases ty with
    | param id => exact h id
    | applied item args =>
      refine .applied (by simp) fun i a b ha hb => ?_
      rw [List.getElem?_map] at ha hb
      obtain ⟨x, hx, rfl⟩ := Option.map_eq_some_iff.mp ha
      obtain ⟨y, hy, rfl⟩ := Option.map_eq_some_iff.mp hb
      obtain rfl := Option.some.inj (hx.symm.trans hy)
      exact ih x
    | _ => exact .refl _

theorem refines_substituteAtDepth (subst : Subst) (n : ℕ) (ty : Ty) :
    Refines ty (substituteAtDepth subst n ty) := by
  induction n generalizing ty with
  | zero => exact .refl _
  | succ n ih =>
    cases ty with
    | param id => exact .param id _
    | applied item args =>
      refine .applied (by simp) fun i a b ha hb => ?_
      rw [List.getElem?_map, ha] at hb
      cases hb
      exact ih a
    | _ => exact .refl _

theorem refines_substitute (ty : Ty) (subst : Subst) : Refines ty (substitute ty subst) :=
  refines_substituteAtDepth subst _ ty

theorem substitute_refines {subst subst' : Subst} (h : SubstRefines subst subst') (ty : Ty) :
    Refines (substitute ty subst) (substitute ty subst') :=
  substituteAtDepth_refines h _ ty

theorem foldl_insert_refines {params : List TypeParamId} {args args' : List Ty}
    {subst subst' : Subst} (hargs : RefinesAll args args') (h : SubstRefines subst subst') :
    SubstRefines ((params.zip args).foldl (fun s p => s.insert p.1 p.2) subst)
      ((params.zip args').foldl (fun s p => s.insert p.1 p.2) subst') := by
  induction params generalizing args args' subst subst' with
  | nil => exact h
  | cons param params ih =>
    cases args with
    | nil =>
      obtain rfl : args' = [] := List.length_eq_zero_iff.mp hargs.1.symm
      exact h
    | cons a args =>
      cases args' with
      | nil => exact absurd hargs.1 (by simp)
      | cons b args' =>
        rw [List.zip_cons_cons, List.zip_cons_cons, List.foldl_cons, List.foldl_cons]
        refine ih ⟨by simpa using hargs.1, fun i x y hx hy =>
          hargs.2 (i + 1) x y (by simpa using hx) (by simpa using hy)⟩ fun id => ?_
        by_cases hid : id = param
        · subst hid
          simpa using hargs.2 0 a b rfl rfl
        · simpa [AList.lookup_insert_ne hid] using h id

theorem checkedSubstitution_refines {params : List TypeParamId} {args args' : List Ty}
    (hargs : RefinesAll args args') :
    (checkedSubstitution params args = none ∧ checkedSubstitution params args' = none) ∨
      ∃ subst subst', checkedSubstitution params args = some subst ∧
        checkedSubstitution params args' = some subst' ∧ SubstRefines subst subst' := by
  unfold checkedSubstitution
  rw [← hargs.1]
  split
  · exact .inr ⟨_, _, rfl, rfl, foldl_insert_refines hargs fun id => .refl _⟩
  · exact .inl ⟨rfl, rfl⟩

mutual

theorem refines_of_matches {bindings bindings' : Subst} : ∀ {expected actual : Ty},
    typePatternMatches expected actual bindings = (true, bindings') → Refines expected actual
  | .param id, actual, _ => .param id actual
  | .applied item args, actual, h => by
    cases actual with
    | applied item' args' =>
      rw [typePatternMatches] at h
      split at h
      · rename_i heq
        obtain ⟨rfl, hlen⟩ := heq
        exact .applied hlen (refinesAll_of_matches hlen h)
      · cases h
    | _ => simp [typePatternMatches] at h
  | .i8, _, h | .i16, _, h | .i32, _, h | .i64, _, h | .isize, _, h | .u8, _, h | .u16, _, h
  | .u32, _, h | .u64, _, h | .usize, _, h | .f32, _, h | .f64, _, h | .bool, _, h | .char, _, h
  | .str, _, h | .unit, _, h | .named _, _, h => by
    simp only [typePatternMatches, Prod.mk.injEq, decide_eq_true_eq] at h
    rw [← h.1]
    exact .refl _
  | .var _, _, h | .never, _, h | .error, _, h => by simp [typePatternMatches] at h

theorem refinesAll_of_matches {bindings bindings' : Subst} : ∀ {expected actual : List Ty},
    expected.length = actual.length →
    typePatternMatchesAll expected actual bindings = (true, bindings') →
    ∀ (i : ℕ) (a b : Ty), expected[i]? = some a → actual[i]? = some b → Refines a b
  | [], _, _, _ => by simp
  | a :: expected, [], hlen, _ => by simp at hlen
  | a :: expected, b :: actual, hlen, h => by
    rw [typePatternMatchesAll] at h
    split at h
    · rename_i mid hone
      intro i x y hx hy
      cases i with
      | zero =>
        cases hx
        cases hy
        exact refines_of_matches hone
      | succ i => exact refinesAll_of_matches (by simpa using hlen) h i x y hx hy
    · cases h

end

/-! ### Affine once and for all -/

section
variable {L : Lowering} {m : Module} {t : ResourceTable} {frame : Subst}

/-- The layouts this stage reads are those of the module that runs. -/
structure Lowering.Describes (L : Lowering) (m : Module) : Prop where
  records : m.records = L.module.records
  variants : m.variants = L.module.variants

theorem Lowering.Describes.findRecord (h : L.Describes m) (item : ItemId) :
    m.findRecord item = L.module.findRecord item := by
  simp only [Module.findRecord, h.records]

theorem Lowering.Describes.findVariant (h : L.Describes m) (item : ItemId) :
    m.findVariant item = L.module.findVariant item := by
  simp only [Module.findVariant, h.variants]

theorem Lowering.Describes.fieldTypes (h : L.Describes m) (item : ItemId) :
    itemFieldTypes m item = Lowering.isAffineVisiting.fieldTypes L item := by
  have hsame : itemFieldTypes m item = itemFieldTypes L.module item := by
    simp only [itemFieldTypes, h.findRecord, h.findVariant]
  exact hsame.trans rfl

theorem Lowering.Describes.isResource (h : L.Describes m) {item : ItemId}
    (haffine : ((L.module.findRecord item).map (·.affine)).getD false = true) :
    isResource m item = true := by
  rw [← h.findRecord] at haffine
  unfold Module.findRecord at haffine
  cases hfind : m.records.find? (·.1 = item) with
  | none => simp [hfind] at haffine
  | some entry =>
    have hitem : entry.1 = item := by simpa using List.find?_some hfind
    have hentry : entry.2.affine = true := by simpa [hfind] using haffine
    exact List.any_eq_true.mpr ⟨entry, List.mem_of_find?_eq_some hfind, by simp [hitem, hentry]⟩

/-- The parameters of a declaration, as this stage reads them. -/
def Lowering.paramsOf (L : Lowering) (item : ItemId) : Option (List TypeParamId) :=
  ((L.module.findRecord item).map fun r => r.typeParams.map (·.1)) <|>
    ((L.module.findVariant item).map fun v => v.typeParams.map (·.1))

theorem Lowering.Describes.typeSubstitution (h : L.Describes m) (item : ItemId) (args : List Ty) :
    typeSubstitution m item args = (L.paramsOf item).bind (checkedSubstitution · args) := by
  unfold Interpreter.typeSubstitution Lowering.paramsOf
  rw [h.findRecord, h.findVariant]
  rfl

theorem isAffineVisiting_applied (n : ℕ) (item : ItemId) (args : List Ty) (V : List ItemId) :
    L.isAffineVisiting (n + 1) (.applied item args) V =
      if ((L.module.findRecord item).map (·.affine)).getD false then true
      else ((L.paramsOf item).bind (checkedSubstitution · args)).elim true fun subst =>
        (Lowering.isAffineVisiting.fieldTypes L item).any fun fty =>
          L.isAffineVisiting n (substitute fty subst) V := by
  rw [Lowering.isAffineVisiting, Lowering.paramsOf]
  congr 1
  dsimp only
  split
  · rename_i hnone
    rw [hnone, Option.elim_none]
  · rename_i subst hsome
    rw [hsome, Option.elim_some]

theorem typeSubstitution_refines (hm : L.Describes m) {item : ItemId} {args args' : List Ty}
    (hargs : RefinesAll args args') :
    ((L.paramsOf item).bind (checkedSubstitution · args) = none ∧
        typeSubstitution m item args' = none) ∨
      ∃ subst subst', (L.paramsOf item).bind (checkedSubstitution · args) = some subst ∧
        typeSubstitution m item args' = some subst' ∧ SubstRefines subst subst' := by
  rw [hm.typeSubstitution]
  cases L.paramsOf item with
  | none => exact .inl ⟨rfl, rfl⟩
  | some params => exact checkedSubstitution_refines hargs

theorem affine_of_refines (hm : L.Describes m) {n n' : ℕ} {ty ty' : Ty} {V V' : List ItemId}
    (h : L.isAffineVisiting n ty V = true) (hle : n ≤ n') (hV : V' ⊆ V) (hty : Refines ty ty') :
    isAffineVisiting m n' ty' V' = true := by
  induction n generalizing n' ty ty' V V' with
  | zero => simp [Lowering.isAffineVisiting] at h
  | succ n ih =>
    obtain ⟨n', rfl⟩ : ∃ j, n' = j + 1 := ⟨n' - 1, by omega⟩
    have hle' : n ≤ n' := by omega
    cases ty with
    | named item =>
      cases hty
      rw [Lowering.isAffineVisiting] at h
      rw [isAffineVisiting]
      split at h
      · rename_i haffine
        rw [if_pos (hm.isResource haffine)]
      · split at h
        · cases h
        · rename_i hvisiting
          have hvisiting' : item ∉ V' := fun hmem => hvisiting (hV hmem)
          rw [if_neg hvisiting', hm.fieldTypes]
          split
          · rfl
          · obtain ⟨fty, hfty, haffine⟩ := List.any_eq_true.mp h
            exact List.any_eq_true.mpr ⟨fty, hfty,
              ih haffine hle' (List.cons_subset_cons item hV) (.refl fty)⟩
    | applied item args =>
      obtain ⟨args', rfl, hargs⟩ := hty.args
      rw [isAffineVisiting_applied] at h
      rw [isAffineVisiting]
      split at h
      · rename_i haffine
        rw [if_pos (hm.isResource haffine)]
      · rcases typeSubstitution_refines hm hargs with ⟨-, hnone⟩ | ⟨subst, subst', hsome, hsome', hsub⟩
        · rw [hnone]
          split <;> rfl
        · rw [hsome] at h
          rw [hsome']
          split
          · rfl
          · obtain ⟨fty, hfty, haffine⟩ := List.any_eq_true.mp h
            rw [hm.fieldTypes]
            exact List.any_eq_true.mpr ⟨fty, hfty, ih haffine hle' hV (substitute_refines hsub fty)⟩
    | _ => simp [Lowering.isAffineVisiting] at h

theorem checkedSubstitutionOf_of_owned {v : Value} {item : ItemId} {typeArgs : List Ty}
    (h : validateOwnedGraph m t v = .ok ⟨⟩)
    (hv : (∃ fields, v = .record item typeArgs fields) ∨
      ∃ case payload, v = .variant item typeArgs case payload) :
    ∃ subst, typeSubstitution m item typeArgs = some subst := by
  obtain ⟨s, hrun⟩ := validateOwnedGraph_iff.mp h
  have hsubst : ∀ {subst}, checkedSubstitutionOf m item typeArgs = .ok subst →
      ∃ subst, typeSubstitution m item typeArgs = some subst := by
    intro subst hok
    unfold checkedSubstitutionOf at hok
    cases hs : typeSubstitution m item typeArgs with
    | none =>
      rw [hs] at hok
      cases hok
    | some subst => exact ⟨subst, rfl⟩
  rcases hv with ⟨fields, rfl⟩ | ⟨case, payload, rfl⟩
  · obtain ⟨-, declared, -, -, htys, -⟩ := validate_record.mp hrun
    unfold recordFieldTypes at htys
    split at htys
    · cases htys
    · obtain ⟨subst, hok, -⟩ := Except.bind_eq_ok.mp htys
      exact hsubst hok
  · obtain ⟨-, declared, -, htys, -⟩ := validate_variant.mp hrun
    unfold casePayloadTypes at htys
    split at htys
    · cases htys
    · split at htys
      · cases htys
      · obtain ⟨subst, hok, -⟩ := Except.bind_eq_ok.mp htys
        exact hsubst hok

/-- A type that an instantiation of the item inhabits. -/
def Instantiates (ty : Ty) (item : ItemId) (typeArgs : List Ty) : Prop :=
  ty = .named item ∨ ∃ args, ty = .applied item args ∧ RefinesAll args typeArgs

theorem affine_instance (hm : L.Describes m) {ty : Ty} {item : ItemId} {typeArgs : List Ty}
    {subst : Subst} (h : L.isAffine ty = true) (hty : Instantiates ty item typeArgs)
    (hsubst : typeSubstitution m item typeArgs = some subst) (hplain : isResource m item = false) :
    ((itemFieldTypes m item).any fun fty =>
      isAffineVisiting m Limits.maxGenericDepth (substitute fty subst) []) = true := by
  have hresource : ¬ ((L.module.findRecord item).map (·.affine)).getD false = true := by
    intro haffine
    rw [hm.isResource haffine] at hplain
    cases hplain
  have hstep : ∀ {n : ℕ} {V : List ItemId} {S : Ty → Ty}, n ≤ Limits.maxGenericDepth →
      (∀ fty, Refines (S fty) (substitute fty subst)) →
      ((itemFieldTypes m item).any fun fty => L.isAffineVisiting n (S fty) V) = true →
      ((itemFieldTypes m item).any fun fty =>
        isAffineVisiting m Limits.maxGenericDepth (substitute fty subst) []) = true := by
    intro n V S hn hS hany
    obtain ⟨fty, hfty, haffine⟩ := List.any_eq_true.mp hany
    exact List.any_eq_true.mpr
      ⟨fty, hfty, affine_of_refines hm haffine hn (List.nil_subset V) (hS fty)⟩
  unfold Lowering.isAffine at h
  have hdepth : Limits.maxGenericDepth = 63 + 1 := rfl
  rw [hdepth] at h
  rcases hty with rfl | ⟨args, rfl, hargs⟩
  · rw [Lowering.isAffineVisiting, if_neg hresource] at h
    split at h
    · cases h
    · rw [← hm.fieldTypes] at h
      exact hstep (by omega) (fun fty => refines_substitute fty subst) h
  · rw [isAffineVisiting_applied, if_neg hresource] at h
    rcases typeSubstitution_refines hm hargs with ⟨-, hnone⟩ | ⟨sub, sub', hsome, hsome', hsub⟩
    · rw [hnone] at hsubst
      cases hsubst
    · rw [hsubst] at hsome'
      cases hsome'
      rw [hsome, ← hm.fieldTypes] at h
      exact hstep (by omega) (fun fty => substitute_refines hsub fty) h

theorem isAffineValue_aggregate (hm : L.Describes m) {ty : Ty} {v : Value} {item : ItemId}
    {typeArgs : List Ty} (h : L.isAffine ty = true) (hgraph : validateOwnedGraph m t v = .ok ⟨⟩)
    (hty : Instantiates ty item typeArgs)
    (hv : (∃ fields, v = .record item typeArgs fields) ∨
      ∃ case payload, v = .variant item typeArgs case payload) :
    isAffineValue m v = .ok true := by
  obtain ⟨subst, hsubst⟩ := checkedSubstitutionOf_of_owned hgraph hv
  have hdecide : (do
      if isResource m item then pure true
      else
        let subst ← checkedSubstitutionOf m item typeArgs
        pure ((itemFieldTypes m item).any fun fty =>
          isAffineVisiting m Limits.maxGenericDepth (substitute fty subst) []) :
      Except InterpreterError Bool) = .ok true := by
    cases hplain : isResource m item with
    | true => rfl
    | false =>
      simp only [Bool.false_eq_true, if_false, checkedSubstitutionOf, hsubst]
      exact congrArg Except.ok (affine_instance hm h hty hsubst hplain)
  rcases hv with ⟨fields, rfl⟩ | ⟨case, payload, rfl⟩
  · exact hdecide
  · exact hdecide

theorem instantiates_of_fits {ty : Ty} {item : ItemId} {typeArgs : List Ty} {v : Value}
    (h : Fits t frame v ty) (haffine : L.isAffine ty = true)
    (hv : (∃ fields, v = .record item typeArgs fields) ∨
      ∃ case payload, v = .variant item typeArgs case payload) : Instantiates ty item typeArgs := by
  have hdeclared := h.declared
  cases ty with
  | named declared =>
    have hsubst : substitute (.named declared) frame = .named declared := rfl
    rw [hsubst] at hdeclared
    have heq : item = declared := by
      rcases hv with ⟨fields, rfl⟩ | ⟨case, payload, rfl⟩
      · simpa [argumentMatchesDeclared] using Except.ok.inj hdeclared
      · simpa [argumentMatchesDeclared] using Except.ok.inj hdeclared
    rw [heq]
    exact .inl rfl
  | applied declared args =>
    have hrefines := refines_substitute (.applied declared args) frame
    have hsubst : substitute (.applied declared args) frame =
        .applied declared (args.map (substituteAtDepth frame Limits.maxGenericDepth)) := rfl
    rw [hsubst] at hdeclared hrefines
    generalize args.map (substituteAtDepth frame Limits.maxGenericDepth) = args' at hdeclared hrefines
    have hmatch : (if item ≠ declared ∨ typeArgs.length ≠ args'.length ∨
        ¬ fullyResolvedAll typeArgs then false
        else (typePatternMatchesAll args' typeArgs ∅).1) = true := by
      rcases hv with ⟨fields, rfl⟩ | ⟨case, payload, rfl⟩
      · exact Except.ok.inj hdeclared
      · exact Except.ok.inj hdeclared
    split at hmatch
    · cases hmatch
    · rename_i hnot
      rw [not_or, not_or, not_not, not_not] at hnot
      obtain ⟨rfl, hlen, -⟩ := hnot
      have hall : RefinesAll args' typeArgs :=
        ⟨hlen.symm, refinesAll_of_matches hlen.symm (Prod.ext hmatch rfl)⟩
      obtain ⟨_, ⟨⟩, hargs⟩ := hrefines.args
      exact .inr ⟨args, rfl, hargs.trans hall⟩
  | _ => simp [Lowering.isAffine, Limits.maxGenericDepth, Lowering.isAffineVisiting] at haffine

theorem dropAffine_ok (hm : L.Describes m) {ty : Ty} {v : Value} {s : FrameState}
    (haffine : L.isAffine ty = true) (hfits : Fits s.resources frame v ty)
    (howned : OwnedValue m s.resources v) :
    ∃ t', dropAffine m v s = .ok ⟨⟩ (s.withResources t') ∧ Spares s.resources t' v := by
  have hdrop : ∀ {item : ItemId} {typeArgs : List Ty},
      ((∃ fields, v = .record item typeArgs fields) ∨
        ∃ case payload, v = .variant item typeArgs case payload) →
      ∃ t', dropAffine m v s = .ok ⟨⟩ (s.withResources t') ∧ Spares s.resources t' v := by
    intro item typeArgs hv
    have hdecide := isAffineValue_aggregate hm haffine howned.graph
      (instantiates_of_fits hfits haffine hv) hv
    obtain ⟨t', ht', hspares⟩ := howned.dropValue (by rcases hv with ⟨_, rfl⟩ | ⟨_, _, rfl⟩ <;> rfl)
    have hrun : (do
        if ← liftExcept (isAffineValue m v) then onTable (dropValue m v)
        else refuseDrop v : Op FrameState Unit) s = .ok ⟨⟩ (s.withResources t') := by
      refine EStateM.ask_bind_eq_ok.mpr ⟨true, hdecide, ?_⟩
      exact onTable_eq_ok.mpr ⟨t', ht', rfl⟩
    rcases hv with ⟨fields, rfl⟩ | ⟨case, payload, rfl⟩
    · exact ⟨t', hrun, hspares⟩
    · exact ⟨t', hrun, hspares⟩
  cases v with
  | resource handle =>
    obtain ⟨t', ht', hspares⟩ := howned.dropValue rfl
    exact ⟨t', onTable_eq_ok.mpr ⟨t', ht', rfl⟩, hspares⟩
  | record item typeArgs fields => exact hdrop (.inl ⟨fields, rfl⟩)
  | variant item typeArgs case payload => exact hdrop (.inr ⟨case, payload, rfl⟩)
  | _ =>
    exfalso
    have hdeclared := hfits.declared
    cases ty with
    | named declared =>
      have hsubst : substitute (.named declared) frame = .named declared := rfl
      rw [hsubst] at hdeclared
      cases hdeclared
    | applied declared args =>
      have hsubst : substitute (.applied declared args) frame =
        .applied declared (args.map (substituteAtDepth frame Limits.maxGenericDepth)) := rfl
      rw [hsubst] at hdeclared
      cases hdeclared
    | _ => simp [Lowering.isAffine, Limits.maxGenericDepth, Lowering.isAffineVisiting] at haffine

end

end Napitia.Lower
