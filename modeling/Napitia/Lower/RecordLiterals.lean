import Napitia.Lower.Pieces

/-!
# Record literals

Name resolution gives the fields of a literal the places of their declarations and keeps
them as they are written; lowering evaluates them so, and stores them as declared.
-/
namespace Napitia.Lower
open Nir StateT
open Hir (ExprId)
open Hir.Body

/-! ### The names of a literal's fields -/

inductive FieldCode where
  | duplicateFieldInit | inaccessibleField | unknownFieldInConstruction | missingField
  deriving DecidableEq, Repr

structure FieldProblem where
  code : FieldCode
  /-- The field, or the ones that are missing in the order of their declaration. -/
  names : List Symbol
  deriving DecidableEq, Repr

/-- The fields that are written, one after the other. What is written twice, private to
another module or unknown is reported and left out. -/
def resolveFieldInits (declared : List Symbol) (isPrivateImported : Symbol → Bool) :
    List Symbol → List (Symbol × HirExpr) → List HirFieldInit × List FieldProblem
  | _, [] => ([], [])
  | seen, (name, value) :: rest =>
    if name ∈ seen then
      let (resolved, problems) := resolveFieldInits declared isPrivateImported seen rest
      (resolved, ⟨.duplicateFieldInit, [name]⟩ :: problems)
    else
      let (resolved, problems) := resolveFieldInits declared isPrivateImported (name :: seen) rest
      if isPrivateImported name then (resolved, ⟨.inaccessibleField, [name]⟩ :: problems)
      else
        match declared.idxOf? name with
        | some index => (.mk index value :: resolved, problems)
        | none => (resolved, ⟨.unknownFieldInConstruction, [name]⟩ :: problems)

/-- The fields of a literal and what is wrong with them. -/
def resolveRecordLiteral (declared : List Symbol) (isPrivateImported : Symbol → Bool)
    (written : List (Symbol × HirExpr)) : List HirFieldInit × List FieldProblem :=
  let (resolved, problems) := resolveFieldInits declared isPrivateImported [] written
  let missing := declared.filter (· ∉ written.map (·.1))
  (resolved, problems ++ if missing = [] then [] else [⟨.missingField, missing⟩])

section
variable {declared seen : List Symbol} {isPrivateImported : Symbol → Bool}
  {written : List (Symbol × HirExpr)} {inits : List HirFieldInit}

theorem getElem?_of_idxOf? {name : Symbol} {index : ℕ} (h : declared.idxOf? name = some index) :
    declared[index]? = some name := by
  obtain ⟨hlt, hat, -⟩ := List.findIdx?_eq_some_iff_getElem.mp h
  rw [List.getElem?_eq_getElem hlt]
  simpa using hat

/-- Without a problem, every field that is written is kept in its place, under the index of
its name. -/
theorem forall₂_resolveFieldInits
    (h : resolveFieldInits declared isPrivateImported seen written = (inits, [])) :
    List.Forall₂ (fun field init => ∃ index,
      declared.idxOf? field.1 = some index ∧ init = .mk index field.2) written inits := by
  induction written generalizing seen inits with
  | nil =>
    cases h
    exact .nil
  | cons field written ih =>
    obtain ⟨name, value⟩ := field
    rw [resolveFieldInits] at h
    split at h
    · cases h
    · cases hrest : resolveFieldInits declared isPrivateImported (name :: seen) written with
      | mk resolved problems =>
        rw [hrest] at h
        dsimp only at h
        split at h
        · cases h
        · split at h
          · rename_i index hindex
            cases h
            exact .cons ⟨index, hindex, rfl⟩ (ih hrest)
          · cases h

theorem resolveRecordLiteral_eq_nil
    (h : resolveRecordLiteral declared isPrivateImported written = (inits, [])) :
    resolveFieldInits declared isPrivateImported [] written = (inits, []) ∧
      ∀ name ∈ declared, name ∈ written.map (·.1) := by
  unfold resolveRecordLiteral at h
  cases hresolved : resolveFieldInits declared isPrivateImported [] written with
  | mk resolved problems =>
    rw [hresolved] at h
    obtain ⟨rfl, hproblems⟩ := Prod.mk.inj h
    obtain ⟨rfl, hmissing⟩ := List.append_eq_nil_iff.mp hproblems
    refine ⟨rfl, fun name hname => ?_⟩
    by_contra hnot
    split at hmissing
    · rename_i hnone
      have hmem : name ∈ declared.filter (· ∉ written.map (·.1)) :=
        List.mem_filter.mpr ⟨hname, by simpa using hnot⟩
      rw [hnone] at hmem
      cases hmem
    · cases hmissing

end

/-! ### The evaluation of its parts -/

/-- Parts that are each evaluated once, in order, to these values. -/
inductive InOrder : List (Build LoweredExpr) → FnBuilder → List ValueId → FnBuilder → Prop
  | nil {a : FnBuilder} : InOrder [] a [] a
  | cons {x : Build LoweredExpr} {xs : List (Build LoweredExpr)} {a b c : FnBuilder} {v : ValueId}
      {vs : List ValueId} : x.run a = .ok (.value v, b) → InOrder xs b vs c →
      InOrder (x :: xs) a (v :: vs) c

section
variable {B : BodyLowering} {xs : List (Build LoweredExpr)} {a b : FnBuilder}

theorem InOrder.length {vs : List ValueId} (h : InOrder xs a vs b) : vs.length = xs.length := by
  induction h with
  | nil => rfl
  | cons _ _ ih => rw [List.length_cons, List.length_cons, ih]

theorem inOrder_of_collectValues {vs : List ValueId}
    (h : (collectValues xs).run a = .ok (some vs, b)) : InOrder xs a vs b := by
  induction xs generalizing a vs with
  | nil =>
    obtain ⟨heq, rfl⟩ := run_pure_eq_ok.mp h
    cases heq
    exact .nil
  | cons x xs ih =>
    obtain ⟨lowered, c, hx, hrest⟩ := run_bind_eq_ok.mp h
    cases lowered with
    | diverged =>
      obtain ⟨heq, -⟩ := run_pure_eq_ok.mp hrest
      cases heq
    | value v =>
      obtain ⟨values, d, hvalues, hpure⟩ := run_bind_eq_ok.mp hrest
      obtain ⟨heq, rfl⟩ := run_pure_eq_ok.mp hpure
      obtain ⟨others, rfl, rfl⟩ := Option.map_eq_some_iff.mp heq
      exact .cons hx (ih hvalues)

theorem leaves_of_collectValues (h : (collectValues xs).run a = .ok (none, b)) :
    ∃ before x behind vs c, xs = before ++ x :: behind ∧ InOrder before a vs c ∧
      x.run c = .ok (.diverged, b) := by
  induction xs generalizing a with
  | nil =>
    obtain ⟨heq, -⟩ := run_pure_eq_ok.mp h
    cases heq
  | cons x xs ih =>
    obtain ⟨lowered, c, hx, hrest⟩ := run_bind_eq_ok.mp h
    cases lowered with
    | diverged =>
      obtain ⟨-, rfl⟩ := run_pure_eq_ok.mp hrest
      exact ⟨[], x, xs, [], a, rfl, .nil, hx⟩
    | value v =>
      obtain ⟨values, d, hvalues, hpure⟩ := run_bind_eq_ok.mp hrest
      obtain ⟨heq, rfl⟩ := run_pure_eq_ok.mp hpure
      obtain rfl := Option.map_eq_none_iff.mp heq
      obtain ⟨before, y, behind, vs, e, rfl, hbefore, hy⟩ := ih hvalues
      exact ⟨x :: before, y, behind, v :: vs, e, rfl, .cons hx hbefore, hy⟩

/-! ### The record -/

theorem reads_checkIndices_eq_ok {record : ItemId} {count : ℕ} {seen indices : List ℕ}
    (h : (checkFieldIndices record count seen indices).run a = .ok (⟨⟩, b)) :
    b = a ∧ (∀ index ∈ indices, index < count) ∧ (∀ index ∈ indices, index ∉ seen) ∧
      indices.Nodup := by
  induction indices generalizing seen with
  | nil =>
    obtain ⟨-, rfl⟩ := run_pure_eq_ok.mp h
    exact ⟨rfl, by simp, by simp, List.nodup_nil⟩
  | cons index indices ih =>
    rw [checkFieldIndices] at h
    split at h
    · exact absurd h run_throw_ne_ok
    · split at h
      · exact absurd h run_throw_ne_ok
      · rename_i hin hnew
        obtain ⟨hb, hlt, hseen, hnodup⟩ := ih h
        refine ⟨hb, ?_, ?_, List.nodup_cons.mpr ⟨fun hmem => ?_, hnodup⟩⟩
        · exact List.forall_mem_cons.mpr ⟨by omega, hlt⟩
        · exact List.forall_mem_cons.mpr
            ⟨hnew, fun k hk => fun hmem => hseen k hk (List.mem_cons_of_mem _ hmem)⟩
        · exact hseen index hmem List.mem_cons_self

theorem getElem?_ordered {indices : List ℕ} {values : List ValueId} {count : ℕ}
    (hlength : values.length = indices.length) (hnodup : indices.Nodup)
    (hall : ∀ index < count, index ∈ indices) {i index : ℕ} (hi : indices[i]? = some index)
    (hindex : index < count) :
    ((List.range count).filterMap fun index => (indices.zip values).lookup index)[index]? =
      values[i]? := by
  have hlookup : ∀ {i index : ℕ}, indices[i]? = some index →
      (indices.zip values).lookup index = values[i]? := by
    clear hall hi hindex
    induction indices generalizing values with
    | nil => simp
    | cons first indices ih =>
      intro i index hi
      cases values with
      | nil => cases hlength
      | cons value values =>
        obtain ⟨hnot, hnodup⟩ := List.nodup_cons.mp hnodup
        cases i with
        | zero =>
          cases hi
          simp
        | succ i =>
          have hmem : index ∈ indices := List.mem_of_getElem? hi
          have hne : index ≠ first := fun heq => hnot (heq ▸ hmem)
          have hbeq : (index == first) = false := by simpa using hne
          rw [List.zip_cons_cons, List.lookup_cons, hbeq, List.getElem?_cons_succ]
          exact ih (by simpa using hlength) hnodup hi
  have hsome : ∀ k < count, ((indices.zip values).lookup k).isSome := by
    intro k hk
    obtain ⟨j, hj⟩ := List.mem_iff_getElem?.mp (hall k hk)
    rw [hlookup hj]
    have hlt := (List.getElem?_eq_some_iff.mp hj).choose
    rw [List.getElem?_eq_getElem (by omega)]
    rfl
  have hmap : (List.range count).filterMap (fun index => (indices.zip values).lookup index) =
      (List.range count).map fun k => ((indices.zip values).lookup k).getD ⟨0⟩ := by
    rw [← List.filterMap_eq_map]
    apply List.filterMap_congr
    intro k hk
    obtain ⟨v, hv⟩ := Option.isSome_iff_exists.mp (hsome k (List.mem_range.mp hk))
    simp [hv]
  rw [hmap, List.getElem?_map, List.getElem?_range hindex, Option.map_some, hlookup hi]
  have hlt := (List.getElem?_eq_some_iff.mp hi).choose
  rw [List.getElem?_eq_getElem (by omega)]
  rfl

/-- A literal that is lowered has each field of the record once. Its parts are evaluated in
the order they are written in; then one of them has left, or the record is made. -/
theorem run_lowerRecordLiteral {record : ItemId} {e : HirExpr} {fields : List (ℕ × HirExpr)}
    {lowered : LoweredExpr}
    (h : (lowerRecordLiteral B record e fields xs).run a = .ok (lowered, b)) :
    ∃ layout typeArgs, B.module.findRecord record = some layout ∧ (fields.map (·.1)).Nodup ∧
      (∀ index ∈ fields.map (·.1), index < layout.fields.length) ∧
      (∀ index < layout.fields.length, index ∈ fields.map (·.1)) ∧
      let parts := lowerParts B (fields.map fun field => ((layout.fields[field.1]?).map (·.2)).getD
        .unit) (useSubst (layout.typeParams.map (·.1)) typeArgs) (fields.map (·.2)) xs
      (∃ values c ty, InOrder parts a values c ∧ lowered = .value ⟨c.nextValue⟩ ∧
        b = c.define ty (.recordCreate record typeArgs ((List.range layout.fields.length).filterMap
          fun index => ((fields.map (·.1)).zip values).lookup index))) ∨
      (lowered = .diverged ∧ (collectValues parts).run a = .ok (none, b)) := by
  obtain ⟨layout, c, hlayout, hchecked⟩ := run_bind_eq_ok.mp h
  obtain rfl := reads_orFail _ _ hlayout
  have hfound : B.module.findRecord record = some layout := by
    cases hfind : B.module.findRecord record with
    | none =>
      rw [hfind] at hlayout
      exact absurd hlayout run_throw_ne_ok
    | some found =>
      rw [hfind] at hlayout
      obtain ⟨rfl, -⟩ := run_pure_eq_ok.mp hlayout
      rfl
  obtain ⟨_, d, hcheck, hcomplete⟩ := run_bind_eq_ok.mp hchecked
  obtain ⟨rfl, hlt, -, hnodup⟩ := reads_checkIndices_eq_ok hcheck
  split at hcomplete
  · exact absurd hcomplete run_throw_ne_ok
  · rename_i hnone
    obtain ⟨typeArgs, d', hargs, hparts⟩ := run_bind_eq_ok.mp hcomplete
    obtain rfl := reads_resolveCallTypeArgs _ _ _ hargs
    refine ⟨layout, typeArgs, hfound, hnodup, hlt, ?_, ?_⟩
    · intro index hindex
      have hall := List.find?_eq_none.mp hnone index (List.mem_range.mpr hindex)
      simpa using hall
    · intro parts
      obtain ⟨collected, d'', hcollect, hmake⟩ := run_bind_eq_ok.mp hparts
      cases collected with
      | none =>
        obtain ⟨rfl, rfl⟩ := run_pure_eq_ok.mp hmake
        exact .inr ⟨rfl, hcollect⟩
      | some values =>
        obtain ⟨ty, e', hty, hvalue⟩ := run_bind_eq_ok.mp hmake
        obtain rfl := reads_orFail _ _ hty
        refine .inl ⟨values, _, ty, inOrder_of_collectValues hcollect, ?_⟩
        obtain ⟨v, e'', hpush, hpure⟩ := run_bind_eq_ok.mp hvalue
        obtain ⟨rfl, rfl⟩ := run_pure_eq_ok.mp hpure
        cases hpush
        exact ⟨rfl, rfl⟩

theorem lowerFields_eq_map (inits : List HirFieldInit) :
    lowerFields B inits = (fieldValues inits).map fun field => lowerExpr B field.2 := by
  induction inits with
  | nil => rfl
  | cons init inits ih =>
    obtain ⟨index, value⟩ := init
    rw [lowerFields, ih]
    rfl

theorem lowerParts_eq_zipWith (params : List Ty) (subst : Subst) (fields : List (Symbol × HirExpr)) :
    lowerParts B params subst (fields.map (·.2)) (fields.map fun field => lowerExpr B field.2) =
      List.zipWith (fun param field =>
        lowerExprHinted B (substitute param subst) field.2 (lowerExpr B field.2)) params fields := by
  unfold lowerParts
  induction params generalizing fields with
  | nil => rfl
  | cons param params ih =>
    cases fields with
    | nil => rfl
    | cons field fields => simp [ih]

end

/-- The field that is written is evaluated at the type it is declared with, under the
literal's type arguments. -/
def DeclaredHint (layout : RecordLayout) (typeArgs : List Ty) (field : Symbol × HirExpr)
    (hint : Ty) : Prop :=
  ∃ ty, (field.1, ty) ∈ layout.fields ∧
    hint = substitute ty (useSubst (layout.typeParams.map (·.1)) typeArgs)

theorem forall₂_declaredHint {layout : RecordLayout} {typeArgs : List Ty}
    {written : List (Symbol × HirExpr)} {inits : List HirFieldInit}
    (h : List.Forall₂ (fun field init => ∃ index,
      (layout.fields.map (·.1)).idxOf? field.1 = some index ∧ init = .mk index field.2)
      written inits) :
    List.Forall₂ (DeclaredHint layout typeArgs) written
      (((fieldValues inits).map fun field => ((layout.fields[field.1]?).map (·.2)).getD .unit).map
        (substitute · (useSubst (layout.typeParams.map (·.1)) typeArgs))) := by
  induction h with
  | nil => exact .nil
  | cons hfirst _ ih =>
    obtain ⟨index, hidx, rfl⟩ := hfirst
    have hname := getElem?_of_idxOf? hidx
    rw [List.getElem?_map] at hname
    obtain ⟨⟨name, ty⟩, hfield, hsame⟩ := Option.map_eq_some_iff.mp hname
    refine .cons ⟨ty, ?_, ?_⟩ ih
    · rw [← hsame]
      exact List.mem_of_getElem? hfield
    · simp [hfield]

/-- A literal whose fields are written in any order, and whose names are resolved without a
problem, is lowered by evaluating what is written, each field once, in that order and at its
declared type; where one of them leaves, no later one is evaluated. The record that is made
holds in each declared field the value of the expression that is written for its name. -/
theorem record_literal_by_name (B : BodyLowering) (record : ItemId) (layout : RecordLayout)
    (isPrivateImported : Symbol → Bool) (written : List (Symbol × HirExpr))
    (inits : List HirFieldInit) (id : ExprId) (a b : FnBuilder) (lowered : LoweredExpr)
    (hlayout : B.module.findRecord record = some layout)
    (hresolved : resolveRecordLiteral (layout.fields.map (·.1)) isPrivateImported written =
      (inits, []))
    (hrun : (lowerExpr B (.recordLiteral id record inits)).run a = .ok (lowered, b)) :
    ∃ typeArgs hints : List Ty, List.Forall₂ (DeclaredHint layout typeArgs) written hints ∧
      let parts := List.zipWith (fun hint field =>
        lowerExprHinted B hint field.2 (lowerExpr B field.2)) hints written
      (∃ (values : List ValueId) (c : FnBuilder) (ty : Ty) (ordered : List ValueId),
        InOrder parts a values c ∧ lowered = .value ⟨c.nextValue⟩ ∧ b = c.define ty (.recordCreate record typeArgs ordered) ∧
        ∀ (index : ℕ) (name : Symbol), (layout.fields.map (·.1))[index]? = some name →
          ∃ (i : ℕ) (expr : HirExpr) (v : ValueId), written[i]? = some (name, expr) ∧ values[i]? = some v ∧
            ordered[index]? = some v) ∨
      (lowered = .diverged ∧ ∃ before x behind vs c, parts = before ++ x :: behind ∧
        InOrder before a vs c ∧ x.run c = .ok (.diverged, b)) := by
  obtain ⟨hinits, -⟩ := resolveRecordLiteral_eq_nil hresolved
  have hfields := forall₂_resolveFieldInits hinits
  have hvalues : (fieldValues inits).map (·.2) = written.map (·.2) := by
    clear hinits hresolved hrun
    induction hfields with
    | nil => rfl
    | cons hfirst _ ih =>
      obtain ⟨index, -, rfl⟩ := hfirst
      exact congrArg _ ih
  have hlowered : lowerFields B inits = written.map fun field => lowerExpr B field.2 := by
    have hcomp := congrArg (List.map (lowerExpr B)) hvalues
    rw [List.map_map, List.map_map] at hcomp
    rw [lowerFields_eq_map]
    exact hcomp
  have hlength : (fieldValues inits).length = written.length := by
    simpa using congrArg List.length hvalues
  rw [lowerExpr] at hrun
  obtain ⟨layout', typeArgs, hlayout', hnodup, hlt, hall, hparts⟩ := run_lowerRecordLiteral hrun
  rw [hlayout] at hlayout'
  cases hlayout'
  rw [hvalues, hlowered, lowerParts_eq_zipWith] at hparts
  refine ⟨typeArgs, _, forall₂_declaredHint hfields, ?_⟩
  rw [List.zipWith_map_left]
  intro parts
  rcases hparts with ⟨values, c, ty, horder, hvalue, hb⟩ | ⟨hleaves, hcollect⟩
  · refine .inl ⟨values, c, ty, _, horder, hvalue, hb, ?_⟩
    intro index name hname
    have hindex : index < layout.fields.length := by
      simpa using (List.getElem?_eq_some_iff.mp hname).choose
    obtain ⟨i, hi⟩ := List.mem_iff_getElem?.mp (hall index hindex)
    have hinit : ∃ value, inits[i]? = some (.mk index value) := by
      rw [fieldValues, List.map_map, List.getElem?_map] at hi
      obtain ⟨⟨index', value⟩, hmem, heq⟩ := Option.map_eq_some_iff.mp hi
      cases heq
      exact ⟨value, hmem⟩
    obtain ⟨value, hinit⟩ := hinit
    obtain ⟨⟨name', expr⟩, hwritten, index', hidx, heq⟩ := hfields.getElem?_left hinit
    cases heq
    have hsame : name' = name := by
      have hat := getElem?_of_idxOf? hidx
      rw [hname] at hat
      exact (Option.some.inj hat).symm
    subst hsame
    have hcount : values.length = ((fieldValues inits).map (·.1)).length := by
      have hin := horder.length
      simpa [hlength] using hin
    have hat : i < values.length := by
      have hlt' := (List.getElem?_eq_some_iff.mp hi).choose
      omega
    exact ⟨i, _, values[i], hwritten, List.getElem?_eq_getElem hat,
      (getElem?_ordered hcount hnodup hall hi hindex).trans (List.getElem?_eq_getElem hat)⟩
  · exact .inr ⟨hleaves, leaves_of_collectValues hcollect⟩

/-- `record Point { x: char, y: bool }` -/
def pointLayout : RecordLayout := ⟨⟨9⟩, [], [(⟨0⟩, .char), (⟨1⟩, .bool)], false⟩

def pointLowering : BodyLowering :=
  { BodyLowering.blank with
    module := { records := [(⟨0⟩, pointLayout)] }
    exprTypes := fun _ => some (.named ⟨0⟩) }

/-- `Point { y: true, x: 'a' }` -/
def pointWritten : List (Symbol × HirExpr) := [(⟨1⟩, .bool ⟨1⟩ true), (⟨0⟩, .char ⟨2⟩ 'a')]

theorem record_literal_by_name_point :
    ∃ b, (lowerExpr pointLowering (.recordLiteral ⟨0⟩ ⟨0⟩
        [.mk 1 (.bool ⟨1⟩ true), .mk 0 (.char ⟨2⟩ 'a')])).run { returnTy := .unit } =
          .ok (.value ⟨2⟩, b) ∧
      ∃ typeArgs hints : List Ty,
        List.Forall₂ (DeclaredHint pointLayout typeArgs) pointWritten hints ∧
        let parts := List.zipWith (fun hint field =>
          lowerExprHinted pointLowering hint field.2 (lowerExpr pointLowering field.2)) hints
            pointWritten
        (∃ (values : List ValueId) (c : FnBuilder) (ty : Ty) (ordered : List ValueId),
          InOrder parts { returnTy := .unit } values c ∧
          LoweredExpr.value ⟨2⟩ = .value ⟨c.nextValue⟩ ∧
          b = c.define ty (.recordCreate ⟨0⟩ typeArgs ordered) ∧
          ∀ (index : ℕ) (name : Symbol), (pointLayout.fields.map (·.1))[index]? = some name →
            ∃ (i : ℕ) (expr : HirExpr) (v : ValueId), pointWritten[i]? = some (name, expr) ∧
              values[i]? = some v ∧ ordered[index]? = some v) ∨
        (LoweredExpr.value ⟨2⟩ = .diverged ∧ ∃ before x behind vs c,
          parts = before ++ x :: behind ∧ InOrder before { returnTy := .unit } vs c ∧
            x.run c = .ok (.diverged, b)) :=
  ⟨_, rfl, record_literal_by_name pointLowering ⟨0⟩ pointLayout (fun _ => false) pointWritten
    _ ⟨0⟩ _ _ _ rfl rfl rfl⟩

end Napitia.Lower
