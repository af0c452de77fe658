import Napitia.Types

/-!
# What a substitution does to a type

`Ty.instantiate` replaces every parameter of a type at once, at whatever depth,
and `substitute` is that replacement on the types the compiler lets through:
those nested no deeper than its bound. What a type mentions is its `leaves`, and
a replacement is decided by the parameters among them.
-/
namespace Napitia

mutual

/-- The types standing at the ends of a type's applications, from left to right. -/
def Ty.leaves : Ty → List Ty
  | .applied _ args => Ty.leavesAll args
  | ty => [ty]

def Ty.leavesAll : List Ty → List Ty
  | [] => []
  | ty :: tys => Ty.leaves ty ++ Ty.leavesAll tys

end

mutual

/-- Every parameter of a type replaced. -/
def Ty.instantiate (f : TypeParamId → Ty) : Ty → Ty
  | .param id => f id
  | .applied item args => .applied item (Ty.instantiateAll f args)
  | ty => ty

def Ty.instantiateAll (f : TypeParamId → Ty) : List Ty → List Ty
  | [] => []
  | ty :: tys => Ty.instantiate f ty :: Ty.instantiateAll f tys

end

/-- A parameter the substitution does not bind stands for itself. -/
def Subst.get (subst : Subst) (id : TypeParamId) : Ty := (subst.lookup id).getD (.param id)

/-- The pairs of two lists collected into a substitution, the longer list cut
short. -/
def collectSubst (params : List TypeParamId) (arguments : List Ty) : Subst :=
  (params.zip arguments).foldl (fun s p => s.insert p.1 p.2) ∅

/-- Whether applications nest past the depth that remains. -/
def exceedsGenericDepth : ℕ → Ty → Bool
  | 0, _ => true
  | n + 1, .applied _ args => args.any (exceedsGenericDepth n)
  | _ + 1, _ => false

/-- Applications of one declaration nested around a type. -/
def boxes (n : ℕ) (ty : Ty) : Ty := (fun t => .applied ⟨1⟩ [t])^[n] ty

@[simp]
theorem Ty.leavesAll_eq (tys : List Ty) : Ty.leavesAll tys = tys.flatMap Ty.leaves := by
  induction tys with
  | nil => rfl
  | cons ty tys ih => simp [Ty.leavesAll, ih]

@[simp]
theorem Ty.instantiateAll_eq (f : TypeParamId → Ty) (tys : List Ty) :
    Ty.instantiateAll f tys = tys.map (Ty.instantiate f) := by
  induction tys with
  | nil => rfl
  | cons ty tys ih => simp [Ty.instantiateAll, ih]

theorem Ty.induct_leaves {motive : Ty → Prop} (param : ∀ id, motive (.param id))
    (applied : ∀ item args, (∀ a ∈ args, motive a) → motive (.applied item args))
    (leaf : ∀ ty, ty.leaves = [ty] → (∀ f, ty.instantiate f = ty) → (∀ id, ty ≠ .param id) →
      motive ty) : ∀ ty, motive ty
  | .param id => param id
  | .applied item args => applied item args fun a ha =>
      have : sizeOf a < sizeOf args := List.sizeOf_lt_of_mem ha
      Ty.induct_leaves param applied leaf a
  | .var _ | .named _ => leaf _ rfl (fun _ => rfl) (by simp)
  | .i8 | .i16 | .i32 | .i64 | .isize | .u8 | .u16 | .u32 | .u64 | .usize | .f32 | .f64
  | .bool | .char | .str | .unit | .never | .error => leaf _ rfl (fun _ => rfl) (by simp)

theorem Ty.induct_applied {motive : Ty → Prop}
    (applied : ∀ item args, (∀ a ∈ args, motive a) → motive (.applied item args))
    (other : ∀ ty, (∀ item args, ty ≠ .applied item args) → motive ty) (ty : Ty) : motive ty := by
  cases ty with
  | applied item args =>
    apply applied
    intro a ha
    have hsize : sizeOf a < sizeOf args := List.sizeOf_lt_of_mem ha
    exact Ty.induct_applied applied other a
  | _ => exact other _ (by simp)
termination_by sizeOf ty

section
variable {f g : TypeParamId → Ty} {ty : Ty}

@[simp]
theorem Ty.leaves_applied (item : ItemId) (args : List Ty) :
    (Ty.applied item args).leaves = args.flatMap Ty.leaves := Ty.leavesAll_eq args

@[simp]
theorem Ty.leaves_param (id : TypeParamId) : (Ty.param id).leaves = [.param id] := rfl

@[simp]
theorem Ty.instantiate_applied (item : ItemId) (args : List Ty) :
    (Ty.applied item args).instantiate f = .applied item (args.map (Ty.instantiate f)) := by
  rw [Ty.instantiate, Ty.instantiateAll_eq]

@[simp]
theorem Ty.instantiate_param (id : TypeParamId) : (Ty.param id).instantiate f = f id := rfl

/-- What an instantiated type mentions: what its parameters became, and what it
mentioned besides them. -/
theorem Ty.mem_leaves_instantiate {l : Ty} : l ∈ (ty.instantiate f).leaves ↔
    (∃ id, .param id ∈ ty.leaves ∧ l ∈ (f id).leaves) ∨
      (l ∈ ty.leaves ∧ ∀ id, l ≠ .param id) := by
  induction ty using Ty.induct_leaves with
  | param id => aesop
  | applied item args ih =>
    rw [Ty.instantiate_applied, Ty.leaves_applied, Ty.leaves_applied]
    simp only [List.mem_flatMap, List.mem_map, exists_exists_and_eq_and]
    constructor
    · intro h
      have ⟨a, ha, hl⟩ := h
      rcases (ih a ha).mp hl with ⟨id, hid, hf⟩ | ⟨hl, hne⟩
      · exact .inl ⟨id, ⟨a, ha, hid⟩, hf⟩
      · exact .inr ⟨⟨a, ha, hl⟩, hne⟩
    · intro h
      rcases h with ⟨id, ⟨a, ha, hid⟩, hf⟩ | ⟨⟨a, ha, hl⟩, hne⟩
      · exact ⟨a, ha, (ih a ha).mpr (.inl ⟨id, hid, hf⟩)⟩
      · exact ⟨a, ha, (ih a ha).mpr (.inr ⟨hl, hne⟩)⟩
  | leaf ty hleaves hfix hparam =>
    rw [hfix, hleaves]
    have hid : ∀ id, Ty.param id ≠ ty := fun id h => hparam id h.symm
    simp only [List.mem_singleton, hid, false_and, exists_false, false_or]
    constructor
    · intro h
      exact ⟨h, h ▸ hparam⟩
    · exact And.left

theorem Ty.instantiate_congr (h : ∀ id, .param id ∈ ty.leaves → f id = g id) :
    ty.instantiate f = ty.instantiate g := by
  induction ty using Ty.induct_leaves with
  | param id => exact h id (by simp)
  | applied item args ih =>
    rw [Ty.instantiate_applied, Ty.instantiate_applied]
    congr 1
    apply List.map_congr_left
    intro a ha
    apply ih a ha
    intro id hid
    exact h id (by simpa using ⟨a, ha, hid⟩)
  | leaf ty _ hfix _ => rw [hfix, hfix]

theorem Ty.instantiate_self : ty.instantiate .param = ty := by
  induction ty using Ty.induct_leaves with
  | param id => rfl
  | applied item args ih =>
    rw [Ty.instantiate_applied]
    congr 1
    exact (List.map_congr_left ih).trans (List.map_id _)
  | leaf ty _ hfix _ => exact hfix _

theorem Ty.instantiate_of_closed (h : ∀ id, .param id ∉ ty.leaves) : ty.instantiate f = ty :=
  (Ty.instantiate_congr fun id hid => absurd hid (h id)).trans Ty.instantiate_self

theorem substituteAtDepth_eq (subst : Subst) {n : ℕ} (h : exceedsGenericDepth n ty = false) :
    substituteAtDepth subst n ty = ty.instantiate subst.get := by
  induction n generalizing ty with
  | zero => exact absurd h (by simp [exceedsGenericDepth])
  | succ n ih =>
    cases ty with
    | param id => rfl
    | applied item args =>
      rw [Ty.instantiate_applied, substituteAtDepth]
      congr 1
      apply List.map_congr_left
      intro a ha
      apply ih
      have hall : ∀ a ∈ args, exceedsGenericDepth n a = false := by
        simpa [exceedsGenericDepth] using h
      exact hall a ha
    | _ => rfl

theorem substitute_eq (subst : Subst)
    (h : exceedsGenericDepth (Limits.maxGenericDepth + 1) ty = false) :
    substitute ty subst = ty.instantiate subst.get :=
  substituteAtDepth_eq subst h

end

/-! ### Substitutions collected from pairs -/

section
variable {params : List TypeParamId} {arguments : List Ty} {subst : Subst}

theorem checkedSubstitution_eq_some :
    checkedSubstitution params arguments = some subst ↔
      params.length = arguments.length ∧ collectSubst params arguments = subst := by
  unfold checkedSubstitution collectSubst
  split <;> simp_all

theorem foldl_insert_lookup (f : TypeParamId → Ty) (ps : List (TypeParamId × Ty)) (acc : Subst)
    (hf : ∀ p ∈ ps, p.2 = f p.1) (id : TypeParamId) :
    (ps.foldl (fun s p => s.insert p.1 p.2) acc).lookup id =
      if id ∈ ps.map (·.1) then some (f id) else acc.lookup id := by
  induction ps generalizing acc with
  | nil => simp
  | cons p ps ih =>
    rw [List.foldl_cons, ih _ fun q hq => hf q (by simp [hq])]
    by_cases hid : id ∈ ps.map (·.1)
    · simp [hid]
    · by_cases hp : id = p.1
      · subst hp
        simp [hid, hf p (by simp)]
      · simp [hid, hp, AList.lookup_insert_ne hp]

theorem collectSubst_lookup_map (f : TypeParamId → Ty) (id : TypeParamId) :
    (collectSubst params (params.map f)).lookup id = if id ∈ params then some (f id) else none := by
  unfold collectSubst
  have hzip : params.zip (params.map f) = params.map fun p => (p, f p) := by
    induction params with
    | nil => rfl
    | cons p ps ih => simp [ih]
  rw [hzip, foldl_insert_lookup f _ _ (by simp)]
  simp [Function.comp_def]

theorem foldl_insert_lookup_map (g : Ty → Ty) (ps : List (TypeParamId × Ty)) (acc acc' : Subst)
    (hacc : ∀ id, acc'.lookup id = (acc.lookup id).map g) (id : TypeParamId) :
    ((ps.map fun p => (p.1, g p.2)).foldl (fun s p => s.insert p.1 p.2) acc').lookup id =
      ((ps.foldl (fun s p => s.insert p.1 p.2) acc).lookup id).map g := by
  induction ps generalizing acc acc' with
  | nil => exact hacc id
  | cons p ps ih =>
    rw [List.map_cons, List.foldl_cons, List.foldl_cons]
    apply ih
    intro id
    by_cases hp : id = p.1
    · subst hp
      simp
    · simp [AList.lookup_insert_ne hp, hacc]

theorem collectSubst_lookup_comp (g : Ty → Ty) (id : TypeParamId) :
    (collectSubst params (arguments.map g)).lookup id =
      ((collectSubst params arguments).lookup id).map g := by
  unfold collectSubst
  have hzip : params.zip (arguments.map g) = (params.zip arguments).map fun p => (p.1, g p.2) := by
    rw [List.zip_map_right]
    rfl
  rw [hzip]
  exact foldl_insert_lookup_map g _ ∅ ∅ (fun _ => rfl) id

theorem foldl_insert_lookup_mem (ps : List (TypeParamId × Ty)) (acc : Subst) {id : TypeParamId}
    (hid : id ∈ ps.map (·.1)) :
    ∃ ty ∈ ps.map (·.2), (ps.foldl (fun s p => s.insert p.1 p.2) acc).lookup id = some ty := by
  induction ps using List.reverseRecOn with
  | nil => simp at hid
  | append_singleton ps p ih =>
    rw [List.foldl_append, List.foldl_cons, List.foldl_nil]
    by_cases hp : id = p.1
    · subst hp
      exact ⟨p.2, by simp, AList.lookup_insert _⟩
    · have hrest : id ∈ ps.map (·.1) := by simpa [hp] using hid
      have ⟨ty, hty, hlookup⟩ := ih hrest
      exact ⟨ty, by simp_all, by rw [AList.lookup_insert_ne hp, hlookup]⟩

theorem collectSubst_lookup_mem (hlen : params.length = arguments.length) {id : TypeParamId}
    (hid : id ∈ params) :
    ∃ ty ∈ arguments, (collectSubst params arguments).lookup id = some ty := by
  have hfst : (params.zip arguments).map (·.1) = params := List.map_fst_zip hlen.le
  have hsnd : (params.zip arguments).map (·.2) = arguments := List.map_snd_zip hlen.ge
  have ⟨ty, hty, hlookup⟩ := foldl_insert_lookup_mem (params.zip arguments) ∅ (hfst ▸ hid)
  exact ⟨ty, hsnd ▸ hty, hlookup⟩

theorem collectSubst_get_mem (id : TypeParamId) :
    (collectSubst params arguments).get id ∈ arguments ∨
      (collectSubst params arguments).get id = .param id := by
  have hfold : ∀ (ps : List (TypeParamId × Ty)) (acc : Subst),
      (ps.foldl (fun s p => s.insert p.1 p.2) acc).get id ∈ ps.map (·.2) ∨
        (ps.foldl (fun s p => s.insert p.1 p.2) acc).get id = acc.get id := by
    intro ps
    induction ps with
    | nil => exact fun acc => .inr rfl
    | cons p ps ih =>
      intro acc
      rw [List.foldl_cons]
      rcases ih (acc.insert p.1 p.2) with hmem | hacc
      · exact .inl (by simp [hmem])
      · by_cases hp : id = p.1
        · rw [hacc, hp]
          exact .inl (by simp [Subst.get])
        · rw [hacc]
          exact .inr (by simp [Subst.get, AList.lookup_insert_ne hp])
  rcases hfold (params.zip arguments) ∅ with hmem | hnone
  · have ⟨p, hp, heq⟩ := List.mem_map.mp hmem
    exact .inl (heq ▸ (List.of_mem_zip hp).2)
  · exact .inr hnone

theorem collectSubst_get_rel {R : Ty → Ty → Prop} (hself : ∀ id, R (.param id) (.param id))
    {args args' : List Ty} (h : List.Forall₂ R args args') (id : TypeParamId) :
    R ((collectSubst params args).get id) ((collectSubst params args').get id) := by
  have hfold : ∀ (acc acc' : Subst), R (acc.get id) (acc'.get id) →
      R (((params.zip args).foldl (fun s p => s.insert p.1 p.2) acc).get id)
        (((params.zip args').foldl (fun s p => s.insert p.1 p.2) acc').get id) := by
    induction h generalizing params with
    | nil => simp
    | cons hrel _ ih =>
      intro acc acc' hacc
      cases params with
      | nil => exact hacc
      | cons p params =>
        rw [List.zip_cons_cons, List.zip_cons_cons, List.foldl_cons, List.foldl_cons]
        apply ih
        by_cases hp : id = p
        · subst hp
          simpa [Subst.get] using hrel
        · simpa [Subst.get, AList.lookup_insert_ne hp] using hacc
  exact hfold ∅ ∅ (hself id)

end

end Napitia
