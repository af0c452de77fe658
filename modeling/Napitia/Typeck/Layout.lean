import Napitia.Typeck.Cycles
import Mathlib.Order.WellFounded

/-!
# Finite layouts

A type has a finite layout when no infinite chain of fields and payloads held by
value starts at it. A walk of the declarations that reports nothing leaves none to
any type, whatever its arguments: along a chain from an instantiation, what is held
is what the walk met with its parameters filled by types of finite layout.
-/
namespace Napitia.Typeck

/-- `inner` is the type of a field or payload of `outer`, whose arguments stand for
the declaration's parameters. -/
def Contains (decls : Decls) (outer inner : Ty) : Prop :=
  ∃ inst decl, instanceOf outer = some inst ∧ decls.lookup inst.declaration = some decl ∧
    ∃ field ∈ decl.fields,
      inner = field.1.instantiate (collectSubst decl.typeParams inst.arguments).get

/-- No infinite chain of direct containment starts at the type. -/
def FiniteLayout (decls : Decls) (ty : Ty) : Prop :=
  ¬ ∃ chain : ℕ → Ty, chain 0 = ty ∧ ∀ n, Contains decls (chain n) (chain (n + 1))

/-- Every field and payload type is nested within the depth a type reference
resolves at. -/
def Resolved (records : List HirRecord) (variants : List HirVariant) : Prop :=
  ∀ entry ∈ declarations records variants, ∀ field ∈ entry.2.fields,
    exceedsGenericDepth (Limits.maxGenericDepth + 1) field.1 = false

theorem finiteLayout_iff_acc {decls : Decls} {ty : Ty} :
    FiniteLayout decls ty ↔ Acc (fun inner outer => Contains decls outer inner) ty := by
  unfold FiniteLayout
  rw [← not_iff_not, not_not, not_acc_iff_exists_descending_chain]

theorem FiniteLayout.of_contains {decls : Decls} {ty : Ty}
    (h : ∀ inner, Contains decls ty inner → FiniteLayout decls inner) : FiniteLayout decls ty :=
  finiteLayout_iff_acc.mpr (Acc.intro _ fun inner hin => finiteLayout_iff_acc.mp (h inner hin))

theorem FiniteLayout.of_instanceOf_none {decls : Decls} {ty : Ty} (h : instanceOf ty = none) :
    FiniteLayout decls ty := by
  apply FiniteLayout.of_contains
  intro inner hin
  have ⟨inst, _, hinst, _⟩ := hin
  exact absurd hinst (by simp [h])

/-! ### Filling the parameters of a walked type -/

mutual

/-- The second type is the first with every parameter, wherever it stands, filled
by some type of finite layout. -/
def Fills (decls : Decls) : Ty → Ty → Prop
  | .param _, ty => FiniteLayout decls ty
  | .applied item args, ty => ∃ filled, ty = .applied item filled ∧ FillsAll decls args filled
  | leaf, ty => ty = leaf

def FillsAll (decls : Decls) : List Ty → List Ty → Prop
  | [], filled => filled = []
  | arg :: args, filled => ∃ ty tys, filled = ty :: tys ∧ Fills decls arg ty ∧ FillsAll decls args tys

end

section
variable {decls : Decls}

theorem fillsAll_iff_forall₂ {args filled : List Ty} :
    FillsAll decls args filled ↔ List.Forall₂ (Fills decls) args filled := by
  induction args generalizing filled with
  | nil => simp [FillsAll]
  | cons arg args ih =>
    rw [FillsAll, List.forall₂_cons_left_iff]
    simp only [ih]
    constructor
    · intro h
      have ⟨ty, tys, hfilled, hty, htys⟩ := h
      exact ⟨ty, tys, hty, htys, hfilled⟩
    · intro h
      have ⟨ty, tys, hty, htys, hfilled⟩ := h
      exact ⟨ty, tys, hfilled, hty, htys⟩

theorem fills_applied {item : ItemId} {args : List Ty} {ty : Ty} :
    Fills decls (.applied item args) ty ↔
      ∃ filled, ty = .applied item filled ∧ List.Forall₂ (Fills decls) args filled := by
  rw [Fills]
  simp only [fillsAll_iff_forall₂]

theorem fills_instantiate {s t : TypeParamId → Ty} (h : ∀ id, Fills decls (s id) (t id)) (ty : Ty) :
    Fills decls (ty.instantiate s) (ty.instantiate t) := by
  induction ty using Ty.induct_applied with
  | applied item args ih =>
    rw [Ty.instantiate_applied, Ty.instantiate_applied]
    refine fills_applied.mpr ⟨_, rfl, ?_⟩
    rw [List.forall₂_map_left_iff, List.forall₂_map_right_iff]
    exact List.forall₂_same.mpr ih
  | other ty hother =>
    cases ty with
    | param id => exact h id
    | applied item args => exact absurd rfl (hother item args)
    | _ => rfl

/-- A type filled from one that names an instance names an instance of the same
declaration, and its parameters are bound to what fills theirs. -/
theorem fills_instanceOf {ty filled : Ty} {inst : GenericInstanceKey} (h : Fills decls ty filled)
    (hinst : instanceOf ty = some inst) : ∃ arguments,
      instanceOf filled = some ⟨inst.declaration, arguments⟩ ∧
        List.Forall₂ (Fills decls) inst.arguments arguments := by
  cases ty with
  | named item =>
    cases hinst
    have heq : filled = .named item := h
    exact ⟨[], by rw [heq]; rfl, .nil⟩
  | applied item args =>
    cases hinst
    have ⟨tys, heq, htys⟩ := fills_applied.mp h
    exact ⟨tys, by rw [heq]; rfl, htys⟩
  | _ => exact absurd hinst (by simp [instanceOf])

theorem FiniteLayout.of_fills {ty filled : Ty} (h : Fills decls ty filled)
    (hinst : instanceOf ty = none) : FiniteLayout decls filled := by
  cases ty with
  | param id => exact h
  | named item => exact absurd hinst (by simp [instanceOf])
  | applied item args => exact absurd hinst (by simp [instanceOf])
  | _ =>
    apply FiniteLayout.of_instanceOf_none
    rw [show filled = _ from h]
    rfl

/-! ### From finished walks to finite layouts -/

/-- The declarations' fields are within the depth that substitution reaches. -/
def Shallow (decls : Decls) : Prop :=
  ∀ item decl, decls.lookup item = some decl → ∀ field ∈ decl.fields,
    exceedsGenericDepth (Limits.maxGenericDepth + 1) field.1 = false

theorem leads_iff {inst target : GenericInstanceKey} :
    (layoutGraph decls).Leads inst target ↔
      ∃ decl, decls.lookup inst.declaration = some decl ∧ ∃ field ∈ decl.fields,
        instanceOf (substitute field.1 (collectSubst decl.typeParams inst.arguments)) =
          some target := by
  simp only [DepthFirst.Graph.Leads, layoutGraph, substituteEdges]
  cases hdecl : decls.lookup inst.declaration with
  | none => simp
  | some decl =>
    constructor
    · intro h
      have ⟨e, he, htarget⟩ := h
      have ⟨field, hfield, hsome⟩ := List.mem_filterMap.mp he
      have ⟨found, hfound, heq⟩ := Option.map_eq_some_iff.mp hsome
      refine ⟨decl, rfl, field, hfield, ?_⟩
      rw [hfound, ← htarget, ← heq]
    · intro h
      have ⟨_, hsame, field, hfield, hfound⟩ := h
      cases hsame
      exact ⟨⟨target, field.2⟩, List.mem_filterMap.mpr ⟨field, hfield, by simp [hfound]⟩, rfl⟩

/-- What an instance finished by the walk holds has a finite layout, however its
parameters are filled. -/
theorem finiteLayout_of_finishes (hshallow : Shallow decls) {inst : GenericInstanceKey}
    (hfinishes : (layoutGraph decls).Finishes inst) {decl : Decl}
    (hdecl : decls.lookup inst.declaration = some decl) {t : TypeParamId → Ty}
    (ht : ∀ id, Fills decls ((collectSubst decl.typeParams inst.arguments).get id) (t id)) :
    ∀ field ∈ decl.fields, FiniteLayout decls (field.1.instantiate t) := by
  induction hfinishes generalizing decl t with
  | intro inst _ ih =>
    intro field hfield
    have hfills := fills_instantiate ht field.1
    cases hwalked : instanceOf (field.1.instantiate (collectSubst decl.typeParams
        inst.arguments).get) with
    | none => exact .of_fills hfills hwalked
    | some target =>
      have hleads : (layoutGraph decls).Leads inst target := by
        refine leads_iff.mpr ⟨decl, hdecl, field, hfield, ?_⟩
        rw [substitute_eq _ (hshallow _ decl hdecl field hfield), hwalked]
      have ⟨arguments, hinst, hargs⟩ := fills_instanceOf hfills hwalked
      apply FiniteLayout.of_contains
      intro inner hin
      have ⟨inst', decl', hinst', hdecl', field', hfield', hinner⟩ := hin
      rw [hinst] at hinst'
      cases hinst'
      rw [hinner]
      refine ih target hleads hdecl' (fun id => ?_) field' hfield'
      exact collectSubst_get_rel (fun _ => FiniteLayout.of_instanceOf_none rfl) hargs id

/-- When the walk from every declaration's generic self finishes, every type has a
finite layout. -/
theorem finiteLayout_of_walked (hshallow : Shallow decls)
    (hwalked : ∀ item decl, decls.lookup item = some decl →
      (layoutGraph decls).Finishes (symbolicSelf item decl)) (ty : Ty) : FiniteLayout decls ty := by
  have hinstance : ∀ ty inst, instanceOf ty = some inst →
      (∀ a ∈ inst.arguments, FiniteLayout decls a) → FiniteLayout decls ty := by
    intro ty inst hinst hargs
    apply FiniteLayout.of_contains
    intro inner hin
    have ⟨inst', decl, hinst', hdecl, field, hfield, hinner⟩ := hin
    rw [hinst] at hinst'
    cases hinst'
    rw [hinner]
    refine finiteLayout_of_finishes hshallow (hwalked _ decl hdecl) hdecl (fun id => ?_)
      field hfield
    have hself : (collectSubst decl.typeParams
        (symbolicSelf inst.declaration decl).arguments).get id = .param id := by
      simp only [symbolicSelf, Subst.get, collectSubst_lookup_map]
      split <;> rfl
    rw [hself]
    rcases @collectSubst_get_mem decl.typeParams inst.arguments id with hmem | hparam
    · exact hargs _ hmem
    · rw [hparam]
      exact FiniteLayout.of_instanceOf_none rfl
  induction ty using Ty.induct_applied with
  | applied item args ih => exact hinstance _ _ rfl ih
  | other ty hother =>
    cases ty with
    | named item => exact hinstance _ ⟨item, []⟩ rfl (by simp)
    | applied item args => exact absurd rfl (hother item args)
    | _ => exact FiniteLayout.of_instanceOf_none rfl

end

/-! ### What the check decides -/

section
variable {records : List HirRecord} {variants : List HirVariant}

theorem mem_of_collectDecls_lookup {entries : List (ItemId × Decl)} {item : ItemId} {decl : Decl}
    (h : (collectDecls entries).lookup item = some decl) : (item, decl) ∈ entries := by
  unfold collectDecls at h
  induction entries using List.reverseRecOn with
  | nil => exact absurd h (by simp)
  | append_singleton entries entry ih =>
    rw [List.foldl_append, List.foldl_cons, List.foldl_nil] at h
    by_cases hitem : item = entry.1
    · subst hitem
      rw [AList.lookup_insert] at h
      cases h
      simp
    · rw [AList.lookup_insert_ne hitem] at h
      exact List.mem_append_left _ (ih h)

theorem collectDecls_lookup_of_mem {entries : List (ItemId × Decl)} {item : ItemId} {decl : Decl}
    (hnodup : (entries.map (·.1)).Nodup) (h : (item, decl) ∈ entries) :
    (collectDecls entries).lookup item = some decl := by
  unfold collectDecls
  induction entries using List.reverseRecOn with
  | nil => exact absurd h (by simp)
  | append_singleton entries entry ih =>
    rw [List.foldl_append, List.foldl_cons, List.foldl_nil]
    rw [List.map_append, List.nodup_append] at hnodup
    rcases List.mem_append.mp h with hin | hlast
    · have hne : item ≠ entry.1 :=
        hnodup.2.2 item (List.mem_map_of_mem hin) entry.1 (by simp)
      rw [AList.lookup_insert_ne hne]
      exact ih hnodup.1 hin
    · rw [← List.mem_singleton.mp hlast]
      exact AList.lookup_insert _

theorem mem_walkStarts {item : ItemId} {decl : Decl}
    (h : (declared records variants).lookup item = some decl) :
    symbolicSelf item decl ∈ walkStarts records variants :=
  List.mem_filterMap.mpr ⟨(item, decl), mem_of_collectDecls_lookup h, by simp [h]⟩

theorem Resolved.shallow (h : Resolved records variants) : Shallow (declared records variants) :=
  fun _ _ hdecl => h _ (mem_of_collectDecls_lookup hdecl)

theorem foldl_reportCycle_eq_nil
    {closings : List (DepthFirst.Closing GenericInstanceKey LayoutEdge)} :
    (closings.foldl reportCycle ([], [])).2 = [] ↔ closings = [] := by
  have hkeeps : ∀ (cs : List (DepthFirst.Closing GenericInstanceKey LayoutEdge)) acc,
      acc.2 ≠ [] → (cs.foldl reportCycle acc).2 ≠ [] := by
    intro cs
    induction cs with
    | nil => exact fun acc h => h
    | cons c cs ih =>
      intro acc h
      apply ih
      have ⟨reported, diagnostics⟩ := acc
      simp only [reportCycle]
      split
      · exact h
      · simp
  cases closings with
  | nil => simp
  | cons c cs => simpa using hkeeps cs _ (by simp [reportCycle])

theorem label_mem_keys {decls : Decls} (inst : GenericInstanceKey)
    (h : (layoutGraph decls).edges inst ≠ []) :
    (layoutGraph decls).label inst ∈ decls.keys.toFinset := by
  have hfound : decls.lookup inst.declaration ≠ none := by
    intro hnone
    exact h (by simp only [layoutGraph, substituteEdges, hnone])
  rw [List.mem_toFinset]
  exact AList.mem_keys.mp (AList.lookup_isSome.mp (Option.isSome_iff_ne_none.mpr hfound))

theorem exists_checkCycles (records : List HirRecord) (variants : List HirVariant) :
    ∃ fuel diagnostics, checkCycles fuel records variants = some diagnostics := by
  have ⟨fuel, s, hs⟩ := DepthFirst.Graph.exists_search
    (@label_mem_keys (declared records variants)) (walkStarts records variants)
  exact ⟨fuel, _, by rw [checkCycles, hs]; rfl⟩

/-- The check reports nothing. -/
def Accepts (records : List HirRecord) (variants : List HirVariant) : Prop :=
  ∃ fuel, checkCycles fuel records variants = some []

/-- The check reports a cycle. -/
def Reports (records : List HirRecord) (variants : List HirVariant) : Prop :=
  ∃ fuel diagnostics, checkCycles fuel records variants = some diagnostics ∧ diagnostics ≠ []

/-- No containment chain from a declaration's generic self meets a declaration twice. -/
def NeverReentered (records : List HirRecord) (variants : List HirVariant) : Prop :=
  ∀ start ∈ walkStarts records variants,
    ¬ (layoutGraph (declared records variants)).Revisits start

theorem checkCycles_mono {n m : ℕ} (hle : n ≤ m) {diagnostics : List CycleDiagnostic}
    (h : checkCycles n records variants = some diagnostics) :
    checkCycles m records variants = some diagnostics := by
  have ⟨s, hs, hreport⟩ := Option.map_eq_some_iff.mp h
  exact Option.map_eq_some_iff.mpr ⟨s, DepthFirst.Graph.search_mono hle hs, hreport⟩

theorem reports_iff_not_accepts : Reports records variants ↔ ¬ Accepts records variants := by
  constructor
  · intro hreports haccepts
    have ⟨n, diagnostics, hn, hne⟩ := hreports
    have ⟨m, hm⟩ := haccepts
    have hn' := checkCycles_mono (Nat.le_max_left n m) hn
    have hm' := checkCycles_mono (Nat.le_max_right n m) hm
    exact hne (Option.some.inj (hn'.symm.trans hm'))
  · intro h
    have ⟨fuel, diagnostics, hfuel⟩ := exists_checkCycles records variants
    exact ⟨fuel, diagnostics, hfuel, fun hnil => h ⟨fuel, hnil ▸ hfuel⟩⟩

theorem Accepts.finiteLayout (hresolved : Resolved records variants)
    (h : Accepts records variants) (ty : Ty) : FiniteLayout (declared records variants) ty := by
  have ⟨_, hfuel⟩ := h
  have ⟨_, hs, hnone⟩ := Option.map_eq_some_iff.mp hfuel
  have hfinishes := DepthFirst.Graph.search_finishes hs (foldl_reportCycle_eq_nil.mp hnone)
  exact finiteLayout_of_walked hresolved.shallow
    (fun _ _ hdecl => hfinishes _ (mem_walkStarts hdecl)) ty

theorem NeverReentered.accepts (h : NeverReentered records variants) :
    Accepts records variants := by
  have ⟨fuel, diagnostics, hfuel⟩ := exists_checkCycles records variants
  have ⟨s, hs, hreport⟩ := Option.map_eq_some_iff.mp hfuel
  have hopen : s.closings = [] := by
    by_contra hne
    have ⟨c, hc⟩ := List.exists_mem_of_ne_nil _ hne
    have ⟨start, hstart, hcloses⟩ := DepthFirst.Graph.search_closes hs c hc
    exact h start hstart hcloses.revisits
  rw [foldl_reportCycle_eq_nil.mpr hopen] at hreport
  exact ⟨fuel, hreport ▸ hfuel⟩

/-- The check ends on every set of declarations, and when it reports nothing every
type built over them has a finite layout. -/
theorem check_cycles_sound (records : List HirRecord) (variants : List HirVariant) :
    (∃ fuel diagnostics, checkCycles fuel records variants = some diagnostics) ∧
      (Resolved records variants → Accepts records variants →
        ∀ ty, FiniteLayout (declared records variants) ty) :=
  ⟨exists_checkCycles records variants, fun hresolved h => h.finiteLayout hresolved⟩

end

/-- `Box[T] { value: T }`, and `Crate[T] { held: Box[T] }` over it. -/
def boxRecord : HirRecord := ⟨⟨0⟩, [⟨0⟩], [("value", .param ⟨0⟩)]⟩
def crateRecord : HirRecord := ⟨⟨1⟩, [⟨1⟩], [("held", .applied ⟨0⟩ [.param ⟨1⟩])]⟩

theorem crate_resolved : Resolved [crateRecord, boxRecord] [] := by
  unfold Resolved
  decide

/-- A crate of crates. -/
theorem check_cycles_sound_crate :
    FiniteLayout (declared [crateRecord, boxRecord] []) (.applied ⟨1⟩ [.applied ⟨1⟩ [.i64]]) :=
  (check_cycles_sound [crateRecord, boxRecord] []).2 crate_resolved ⟨20, by decide +kernel⟩ _

/-- `Holder { Carry(Box[Box[i64]]) }`. -/
def holderVariant : HirVariant :=
  ⟨⟨1⟩, [], [("Carry", [.applied ⟨0⟩ [.applied ⟨0⟩ [.i64]]])]⟩

section
variable {records : List HirRecord} {variants : List HirVariant}

/-- Declarations that no containment chain re-enters are accepted. -/
theorem check_cycles_precise (h : NeverReentered records variants) : Accepts records variants :=
  h.accepts

end

theorem crate_neverReentered : NeverReentered [crateRecord, boxRecord] [] := by
  have hbox : ∀ param b,
      ¬ (layoutGraph (declared [crateRecord, boxRecord] [])).Leads ⟨⟨0⟩, [.param param]⟩ b := by
    rintro param b ⟨edge, hedge, -⟩
    cases hedge
  have hcrate : ∀ b,
      (layoutGraph (declared [crateRecord, boxRecord] [])).Leads ⟨⟨1⟩, [.param ⟨1⟩]⟩ b →
      b = ⟨⟨0⟩, [.param ⟨1⟩]⟩ := by
    rintro b ⟨edge, hedge, htarget⟩
    cases List.mem_singleton.mp hedge
    exact htarget.symm
  intro start hstart hrevisits
  obtain ⟨a, b, hreach, hab, hlabel⟩ := hrevisits
  have hstarts : start = ⟨⟨1⟩, [.param ⟨1⟩]⟩ ∨ start = ⟨⟨0⟩, [.param ⟨0⟩]⟩ := List.mem_pair.mp hstart
  -- Only the crate leads anywhere, and to the box alone.
  have hreached : ∀ a, Relation.ReflTransGen
      (layoutGraph (declared [crateRecord, boxRecord] [])).Leads start a →
      a = ⟨⟨1⟩, [.param ⟨1⟩]⟩ ∨ ∃ param, a = ⟨⟨0⟩, [.param param]⟩ := by
    intro a h
    induction h with
    | refl => exact hstarts.imp_right fun heq => ⟨_, heq⟩
    | tail _ hleads ih =>
      rcases ih with heq | ⟨param, heq⟩
      · subst heq
        exact .inr ⟨_, hcrate _ hleads⟩
      · subst heq
        exact absurd hleads (hbox param _)
  obtain ⟨c, hac, hcb⟩ := Relation.TransGen.head'_iff.mp hab
  rcases hreached a hreach with heq | ⟨param, heq⟩
  · subst heq
    rw [hcrate c hac] at hcb
    rcases Relation.ReflTransGen.cases_head hcb with heq | ⟨d, hleads, _⟩
    · subst heq
      exact absurd hlabel (by decide)
    · exact hbox _ _ hleads
  · subst heq
    exact hbox _ _ hac

theorem check_cycles_precise_crate : Accepts [crateRecord, boxRecord] [] :=
  check_cycles_precise crate_neverReentered

/-- Every type over `Box` and `Holder` has a finite layout, and `Holder` is reported. -/
theorem shrinking_nesting_reported :
    (∀ ty, FiniteLayout (declared [boxRecord] [holderVariant]) ty) ∧
      Reports [boxRecord] [holderVariant] := by
  have hmem : ∀ {item decl}, (declared [boxRecord] [holderVariant]).lookup item = some decl →
      item = ⟨0⟩ ∧ decl = recordDecl boxRecord ∨ item = ⟨1⟩ ∧ decl = variantDecl holderVariant := by
    intro item decl h
    simpa [declarations, boxRecord, holderVariant] using mem_of_collectDecls_lookup h
  have hbox : ∀ ty inst, instanceOf ty = some inst → inst.declaration = ⟨0⟩ →
      (∀ a ∈ inst.arguments, FiniteLayout (declared [boxRecord] [holderVariant]) a) →
      FiniteLayout (declared [boxRecord] [holderVariant]) ty := by
    intro ty inst hinst hitem hargs
    apply FiniteLayout.of_contains
    intro inner hin
    have ⟨inst', decl, hinst', hdecl, field, hfield, hinner⟩ := hin
    rw [hinst] at hinst'
    cases hinst'
    rcases hmem hdecl with ⟨_, heq⟩ | ⟨hother, _⟩
    · have hfield' : field = (.param ⟨0⟩, "value") := by
        simpa [heq, recordDecl, boxRecord] using hfield
      rw [hinner, hfield', Ty.instantiate_param]
      rcases @collectSubst_get_mem decl.typeParams inst.arguments ⟨0⟩ with harg | hparam
      · exact hargs _ harg
      · exact hparam ▸ .of_instanceOf_none rfl
    · exact absurd (hitem.symm.trans hother) (by decide)
  have hdeclared : ∀ ty inst, instanceOf ty = some inst →
      (∀ a ∈ inst.arguments, FiniteLayout (declared [boxRecord] [holderVariant]) a) →
      FiniteLayout (declared [boxRecord] [holderVariant]) ty := by
    intro ty inst hinst hargs
    by_cases hitem : inst.declaration = ⟨0⟩
    · exact hbox ty inst hinst hitem hargs
    · apply FiniteLayout.of_contains
      intro inner hin
      have ⟨inst', decl, hinst', hdecl, field, hfield, hinner⟩ := hin
      rw [hinst] at hinst'
      cases hinst'
      rcases hmem hdecl with ⟨hbox', _⟩ | ⟨_, heq⟩
      · exact absurd hbox' hitem
      · have hfield' : field.1 = .applied ⟨0⟩ [.applied ⟨0⟩ [.i64]] := by
          simp only [heq, variantDecl, holderVariant] at hfield
          rw [List.mem_singleton.mp hfield]
        rw [hinner, hfield', Ty.instantiate_of_closed (by simp [Ty.leaves])]
        refine hbox _ ⟨⟨0⟩, _⟩ rfl rfl fun a ha => ?_
        refine hbox a ⟨⟨0⟩, [.i64]⟩ (by rw [List.mem_singleton.mp ha]; rfl) rfl fun a ha => ?_
        exact .of_instanceOf_none (by rw [List.mem_singleton.mp ha]; rfl)
  constructor
  · intro ty
    induction ty using Ty.induct_applied with
    | applied item args ih => exact hdeclared _ ⟨item, args⟩ rfl ih
    | other ty hother =>
      cases ty with
      | named item => exact hdeclared _ ⟨item, []⟩ rfl (by simp)
      | applied item args => exact absurd rfl (hother item args)
      | _ => exact FiniteLayout.of_instanceOf_none rfl
  · exact ⟨20, [⟨[⟨⟨0⟩, [.applied ⟨0⟩ [.i64]]⟩], ⟨⟨0⟩, [.i64]⟩, "value"⟩], by decide +kernel,
      by simp⟩

/-! ### Declaration order -/

section
variable {records records' : List HirRecord} {variants variants' : List HirVariant}

theorem declared_lookup_perm (hrecords : records.Perm records') (hvariants : variants.Perm variants')
    (hnodup : ((declarations records variants).map (·.1)).Nodup) (item : ItemId) :
    (declared records variants).lookup item = (declared records' variants').lookup item := by
  have hperm : (declarations records variants).Perm (declarations records' variants') :=
    (hrecords.map _).append (hvariants.map _)
  have hnodup' := (hperm.map (·.1)).nodup_iff.mp hnodup
  apply Option.ext
  intro decl
  constructor
  · intro h
    exact collectDecls_lookup_of_mem hnodup' (hperm.mem_iff.mp (mem_of_collectDecls_lookup h))
  · intro h
    exact collectDecls_lookup_of_mem hnodup (hperm.mem_iff.mpr (mem_of_collectDecls_lookup h))

theorem layoutGraph_congr {decls decls' : Decls} (h : ∀ item, decls.lookup item = decls'.lookup item) :
    layoutGraph decls = layoutGraph decls' := by
  have hedges : substituteEdges decls = substituteEdges decls' := by
    funext inst
    simp only [substituteEdges, h]
  rw [layoutGraph, layoutGraph, hedges]

theorem walkStarts_perm (hrecords : records.Perm records') (hvariants : variants.Perm variants')
    (hnodup : ((declarations records variants).map (·.1)).Nodup) :
    (walkStarts records variants).Perm (walkStarts records' variants') := by
  unfold walkStarts
  simp only [declared_lookup_perm hrecords hvariants hnodup]
  exact ((hrecords.map _).append (hvariants.map _)).filterMap _

theorem NeverReentered.perm (hrecords : records.Perm records') (hvariants : variants.Perm variants')
    (hnodup : ((declarations records variants).map (·.1)).Nodup)
    (h : NeverReentered records variants) : NeverReentered records' variants' := by
  intro start hstart
  rw [← layoutGraph_congr (declared_lookup_perm hrecords hvariants hnodup)]
  exact h start ((walkStarts_perm hrecords hvariants hnodup).mem_iff.mpr hstart)

theorem FiniteLayout.congr {decls decls' : Decls}
    (h : ∀ item, decls.lookup item = decls'.lookup item) {ty : Ty}
    (hty : FiniteLayout decls ty) : FiniteLayout decls' ty := by
  have hcontains : Contains decls = Contains decls' := by
    funext outer inner
    simp only [Contains, h]
  unfold FiniteLayout at hty ⊢
  rwa [← hcontains]

theorem Resolved.perm (hrecords : records.Perm records') (hvariants : variants.Perm variants')
    (h : Resolved records variants) : Resolved records' variants' := by
  have hperm : (declarations records variants).Perm (declarations records' variants') :=
    (hrecords.map _).append (hvariants.map _)
  exact fun entry hentry => h entry (hperm.mem_iff.mpr hentry)

/-- The declaration stands on a containment chain, from some declaration's generic
self, between two meetings of one declaration. -/
def Reentering (records : List HirRecord) (variants : List HirVariant) (item : ItemId) : Prop :=
  ∃ start ∈ walkStarts records variants, ∃ a k b : GenericInstanceKey,
    let leads := (layoutGraph (declared records variants)).Leads
    Relation.ReflTransGen leads start a ∧ Relation.ReflTransGen leads a k ∧
      Relation.TransGen leads k b ∧ a.declaration = b.declaration ∧ k.declaration = item

/-- The declaration is a member of a cycle the check reports. -/
def Offends (records : List HirRecord) (variants : List HirVariant) (item : ItemId) : Prop :=
  ∃ fuel diagnostics, checkCycles fuel records variants = some diagnostics ∧
    ∃ d ∈ diagnostics, ∃ k ∈ d.cycle, k.declaration = item

theorem mem_foldl_reportCycle {closings : List (DepthFirst.Closing GenericInstanceKey LayoutEdge)}
    {d : CycleDiagnostic} (h : d ∈ (closings.foldl reportCycle ([], [])).2) :
    ∃ c ∈ closings, cycleDiagnostic c = d := by
  induction closings using List.reverseRecOn with
  | nil => exact absurd h (by simp)
  | append_singleton closings c ih =>
    rw [List.foldl_append, List.foldl_cons, List.foldl_nil] at h
    have hlast : d ∈ (closings.foldl reportCycle ([], [])).2 ∨ d = cycleDiagnostic c := by
      generalize closings.foldl reportCycle ([], []) = acc at h
      simp only [reportCycle] at h
      split at h
      · exact .inl h
      · simpa using h
    rcases hlast with hin | heq
    · have ⟨c', hc', hd⟩ := ih hin
      exact ⟨c', List.mem_append_left _ hc', hd⟩
    · exact ⟨c, by simp, heq.symm⟩

/-- The members of a reported cycle are those of the path from the declaration met
again onwards. -/
theorem mem_cycleDiagnostic {c : DepthFirst.Closing GenericInstanceKey LayoutEdge}
    {k : GenericInstanceKey} (h : k ∈ (cycleDiagnostic c).cycle) :
    ∃ f ∈ c.stack.reverse.drop (c.stack.reverse.findIdx
      fun f => f.node.declaration = c.edge.target.declaration), f.node = k := by
  generalize hslice : c.stack.reverse.drop (c.stack.reverse.findIdx
    fun f => f.node.declaration = c.edge.target.declaration) = slice
  have hcycle : ∃ n, (cycleDiagnostic c).cycle =
      (slice.drop n ++ slice.take n).map (·.node) := by
    simp only [cycleDiagnostic, hslice]
    split
    · exact ⟨_, rfl⟩
    · split <;> exact ⟨_, rfl⟩
  have ⟨n, hn⟩ := hcycle
  have ⟨f, hf, hnode⟩ := List.mem_map.mp (hn ▸ h)
  rcases List.mem_append.mp hf with hf | hf
  · exact ⟨f, List.mem_of_mem_drop hf, hnode⟩
  · exact ⟨f, List.mem_of_mem_take hf, hnode⟩

theorem Offends.reentering {item : ItemId} (h : Offends records variants item) :
    Reentering records variants item := by
  have ⟨fuel, diagnostics, hfuel, d, hd, k, hk, hitem⟩ := h
  have ⟨s, hs, hreport⟩ := Option.map_eq_some_iff.mp hfuel
  rw [← hreport] at hd
  have ⟨c, hc, hcd⟩ := mem_foldl_reportCycle hd
  have ⟨start, hstart, hcloses⟩ := DepthFirst.Graph.search_closes hs c hc
  have ⟨f, hf, hnode⟩ := mem_cycleDiagnostic (hcd ▸ hk)
  have hmet : c.stack.reverse.findIdx (fun f => f.node.declaration = c.edge.target.declaration) <
      c.stack.reverse.length := by
    have ⟨m, hm, hlabel⟩ := hcloses.onPath
    apply List.findIdx_lt_length_of_exists
    exact ⟨m, List.mem_reverse.mpr hm, decide_eq_true hlabel⟩
  have hagain := List.findIdx_getElem (w := hmet)
  have hpath := List.take_append_drop (c.stack.reverse.findIdx
    fun f => f.node.declaration = c.edge.target.declaration) c.stack.reverse
  rw [List.drop_eq_getElem_cons hmet] at hf hpath
  generalize c.stack.reverse[c.stack.reverse.findIdx
    fun f => f.node.declaration = c.edge.target.declaration] = a at hf hpath hagain
  generalize c.stack.reverse.drop (c.stack.reverse.findIdx
    (fun f => f.node.declaration = c.edge.target.declaration) + 1) = above at hf hpath
  generalize c.stack.reverse.take (c.stack.reverse.findIdx
    (fun f => f.node.declaration = c.edge.target.declaration)) = below at hpath
  -- The frame met again stands on the stack below the rest of its cycle.
  have hstack : c.stack = above.reverse ++ a :: below.reverse := by
    rw [← List.reverse_reverse c.stack, ← hpath]
    simp
  have hlinked := hcloses.linked
  rw [hstack] at hlinked
  have hbelow := hlinked.of_append
  refine ⟨start, hstart, a.node, f.node, c.edge.target,
    (hbelow.reaches a List.mem_cons_self).1, ?_, hcloses.leads f ?_, of_decide_eq_true hagain,
    hnode ▸ hitem⟩
  · rcases List.mem_cons.mp hf with heq | hf
    · exact heq ▸ .refl
    · exact hlinked.reaches_above f (List.mem_reverse.mpr hf)
  · rw [hstack]
    rcases List.mem_cons.mp hf with heq | hf
    · simp [heq]
    · simp [hf]

theorem Reentering.perm (hrecords : records.Perm records') (hvariants : variants.Perm variants')
    (hnodup : ((declarations records variants).map (·.1)).Nodup) {item : ItemId}
    (h : Reentering records' variants' item) : Reentering records variants item := by
  have ⟨start, hstart, hchain⟩ := h
  rw [← layoutGraph_congr (declared_lookup_perm hrecords hvariants hnodup)] at hchain
  exact ⟨start, (walkStarts_perm hrecords hvariants hnodup).mem_iff.mpr hstart, hchain⟩

/-- In any order of the declarations a type without a finite layout is reported,
declarations no chain re-enters are accepted, and every member of a reported cycle
stands on a chain that re-enters a declaration. -/
theorem check_cycles_order (hrecords : records.Perm records') (hvariants : variants.Perm variants')
    (hnodup : ((declarations records variants).map (·.1)).Nodup)
    (hresolved : Resolved records variants) :
    ((∃ ty, ¬ FiniteLayout (declared records variants) ty) →
      Reports records variants ∧ Reports records' variants') ∧
    (NeverReentered records variants → Accepts records variants ∧ Accepts records' variants') ∧
    (∀ item, Offends records variants item ∨ Offends records' variants' item →
      Reentering records variants item) := by
  refine ⟨fun hinfinite => ?_, fun hnever => ?_, fun item hoffends => ?_⟩
  · have ⟨ty, hty⟩ := hinfinite
    have hlookup := declared_lookup_perm hrecords hvariants hnodup
    constructor
    · exact reports_iff_not_accepts.mpr fun h => hty (h.finiteLayout hresolved ty)
    · exact reports_iff_not_accepts.mpr fun h =>
        hty (.congr (fun item => (hlookup item).symm)
          (h.finiteLayout (hresolved.perm hrecords hvariants) ty))
  · exact ⟨hnever.accepts, (hnever.perm hrecords hvariants hnodup).accepts⟩
  · rcases hoffends with h | h
    · exact h.reentering
    · exact h.reentering.perm hrecords hvariants hnodup

end

theorem check_cycles_order_crate :
    Accepts [crateRecord, boxRecord] [] ∧ Accepts [boxRecord, crateRecord] [] :=
  (check_cycles_order (.swap _ _ _) (.refl _) (by decide) crate_resolved).2.1 crate_neverReentered

/-- `Inner { boxed: Box[i64] }` and `Outer { boxed: Box[Inner] }`. -/
def innerRecord : HirRecord := ⟨⟨1⟩, [], [("boxed", .applied ⟨0⟩ [.i64])]⟩
def outerRecord : HirRecord := ⟨⟨2⟩, [], [("boxed", .applied ⟨0⟩ [.named ⟨1⟩])]⟩

end Napitia.Typeck
