import Napitia.Typeck.Unification

/-!
# Most general unifiers

An assignment gives every variable a type: one of its kind where it is unresolved,
and what the table says where it is bound. Whatever makes two types equal is still an
assignment in the context their unification leaves, so it factors through what that
context resolves them to; and the unification succeeds where something makes them
equal within the depth it descends to.
-/
namespace Napitia

mutual

/-- Every variable of a type replaced. -/
def Ty.assign (θ : TyVar → Ty) : Ty → Ty
  | .var v => θ v
  | .applied item args => .applied item (Ty.assignAll θ args)
  | ty => ty

def Ty.assignAll (θ : TyVar → Ty) : List Ty → List Ty
  | [] => []
  | ty :: tys => Ty.assign θ ty :: Ty.assignAll θ tys

end

section
variable {θ : TyVar → Ty} {ty : Ty}

@[simp]
theorem Ty.assignAll_eq (θ : TyVar → Ty) (tys : List Ty) :
    Ty.assignAll θ tys = tys.map (Ty.assign θ) := by
  induction tys with
  | nil => rfl
  | cons ty tys ih => simp [Ty.assignAll, ih]

@[simp]
theorem Ty.assign_applied (item : ItemId) (args : List Ty) :
    (Ty.applied item args).assign θ = .applied item (args.map (Ty.assign θ)) := by
  rw [Ty.assign, Ty.assignAll_eq]

@[simp]
theorem Ty.assign_var (v : TyVar) : (Ty.var v).assign θ = θ v := rfl

theorem Ty.assign_of_end (hvar : ∀ v, ty ≠ .var v)
    (happlied : ∀ item args, ty ≠ .applied item args) :
    ty.assign θ = ty := by
  cases ty with
  | var v => exact absurd rfl (hvar v)
  | applied item args => exact absurd rfl (happlied item args)
  | _ => rfl

theorem Ty.assign_ne_var (hvar : ∀ v, ty ≠ .var v) (w : TyVar) : ty.assign θ ≠ .var w := by
  cases ty with
  | var v => exact absurd rfl (hvar v)
  | applied item args => simp
  | _ => simp [Ty.assign]

theorem Ty.applied_of_assign {item : ItemId} {args : List Ty} (hvar : ∀ v, ty ≠ .var v)
    (h : ty.assign θ = .applied item args) : ∃ args', ty = .applied item args' := by
  cases ty with
  | var v => exact absurd rfl (hvar v)
  | applied item' args' =>
    rw [Ty.assign_applied] at h
    exact ⟨args', by rw [(Ty.applied.inj h).1]⟩
  | _ => simp [Ty.assign] at h

end

namespace Typeck

open TypeContext EStateM

/-- A choice of types over the variables of `target`: of its kind for every
unresolved variable of `ctx`, and what the table says for the others. -/
structure Assigns (ctx target : TypeContext) (θ : TyVar → Ty) : Prop where
  solves : ∀ v ty, ctx.lookup v = some ty → θ v = ty.assign θ
  respects : ∀ v kind, ctx.lookup v = none → ctx.kindOf v = some kind → target.Fits kind (θ v)

/-- An assignment under which two types are one. -/
structure Unifies (ctx target : TypeContext) (θ : TyVar → Ty) (a b : Ty) : Prop where
  assigns : Assigns ctx target θ
  equal : a.assign θ = b.assign θ

section
variable {ctx ctx' target : TypeContext} {θ : TyVar → Ty} {a b ty ty' : Ty} {v : TyVar}

/-! ### Assignments and resolution -/

theorem Assigns.of_resolves (h : Assigns ctx target θ) (hty : Resolves ctx ty ty') :
    ty.assign θ = ty'.assign θ := by
  induction hty with
  | settled _ => rfl
  | hop hlookup _ ih => rw [Ty.assign_var, h.solves _ _ hlookup, ih]

theorem Assigns.resolve (h : Assigns ctx target θ) (hctx : ctx.Ordered) (ty : Ty) :
    (ctx.resolve ty).assign θ = ty.assign θ :=
  (h.of_resolves (resolve_resolves hctx ty)).symm

theorem Assigns.deepResolveAtDepth (h : Assigns ctx target θ) (hctx : ctx.Ordered) (n : ℕ)
    (ty : Ty) :
    (deepResolveAtDepth ctx n ty).assign θ = ty.assign θ := by
  induction n generalizing ty with
  | zero => exact h.resolve hctx ty
  | succ n ih =>
    rw [← h.resolve hctx ty]
    cases hty : ctx.resolve ty with
    | applied item args =>
      rw [deepResolveAtDepth_applied hty, Ty.assign_applied, Ty.assign_applied, List.map_map]
      congr 1
      exact List.map_congr_left fun arg _ => ih arg
    | _ => rw [deepResolveAtDepth_leaf hty (by simp)]

theorem Assigns.fits (h : Assigns ctx target θ) (hctx : ctx.Ordered) {kind : VarKind}
    (hkind : ctx.kindOf v = some kind) : target.Fits kind (θ v) := by
  have hresolves := resolve_resolves hctx (.var v)
  have hfits := hresolves.fits hctx (.inl ⟨v, rfl, hkind⟩)
  rw [← Ty.assign_var (θ := θ) v, h.of_resolves hresolves]
  rcases hfits with ⟨w, hw, hkindw⟩ | hconcrete
  · rw [hw, Ty.assign_var]
    exact h.respects w kind (resolve_settled hctx hw) hkindw
  · rw [Ty.assign_of_end]
    · exact .inr hconcrete
    · intro w hw
      cases kind <;> simp [hw, isInteger] at hconcrete
    · intro item args hargs
      cases kind <;> simp [hargs, isInteger] at hconcrete

theorem TypeContext.Fits.kind_unique {kind kind' : VarKind} (h : target.Fits kind ty)
    (h' : target.Fits kind' ty) : kind = kind' := by
  rcases h with ⟨w, rfl, hkind⟩ | hconcrete
  · rcases h' with ⟨u, hu, hkind'⟩ | hconcrete'
    · rw [Ty.var.inj hu, hkind'] at hkind
      exact (Option.some.inj hkind).symm
    · cases kind' <;> simp [isInteger] at hconcrete'
  · rcases h' with ⟨u, rfl, _⟩ | hconcrete'
    · cases kind <;> simp [isInteger] at hconcrete
    · cases kind with
      | integer =>
        cases kind' with
        | integer => rfl
        | float => rcases hconcrete' with rfl | rfl <;> simp [isInteger] at hconcrete
      | float =>
        cases kind' with
        | integer => rcases hconcrete with rfl | rfl <;> simp [isInteger] at hconcrete'
        | float => rfl

theorem Assigns.binds (h : Assigns ctx target θ) (hbinds : Binds ctx ctx' v ty)
    (heq : θ v = ty.assign θ)
    (hkinds : ∀ u kind, ctx'.kindOf u = some kind → target.Fits kind (θ u)) :
    Assigns ctx' target θ where
  solves u t hu := by
    rw [hbinds.lookup_eq] at hu
    split at hu
    · rename_i huv
      rw [huv, heq, Option.some.inj hu]
    · exact h.solves u t hu
  respects u kind _ hkind := hkinds u kind hkind

theorem TypeContext.Allocated.resolve (hty : ctx.Allocated ty) (h : ctx.Ordered) :
    ctx.Allocated (ctx.resolve ty) := by
  have hresolves := resolve_resolves h ty
  generalize ctx.resolve ty = t at hresolves
  induction hresolves with
  | settled _ => exact hty
  | hop hlookup _ ih => exact ih (h.allocated _ _ hlookup)

theorem TypeContext.Allocated.arg {item : ItemId} {args : List Ty} {arg : Ty}
    (h : ctx.Allocated (.applied item args)) (harg : arg ∈ args) : ctx.Allocated arg :=
  fun v hv => h v (by simpa using ⟨arg, harg, hv⟩)

/-! ### What a unification keeps -/

/-- A context grown by unifying two types, in which whatever made them equal is
still an assignment. -/
structure Extends (ctx ctx' : TypeContext) (a b : Ty) : Prop where
  ordered : ctx'.Ordered
  grows : Grows ctx ctx'
  general : ∀ target θ, Unifies ctx target θ a b → Assigns ctx' target θ

theorem extends_bind (h : ctx.Ordered) (hv : ctx.lookup v = none) (hslot : ctx.Allocated (.var v))
    (hty : ctx.Allocated ty) (hocc : occurs ctx v (Limits.maxGenericDepth + 1) ty = false)
    (hallows : kindAllows ctx v ty = true) : Extends ctx (ctx.bind v ty) (.var v) ty := by
  have hbinds := binds_bind ty hv (hslot v (by simp [Ty.leaves]))
  have hfree := not_reaches_of_occurs h hv hocc
  have hordered := h.binds hbinds hty hfree fun kind hkind =>
    (kindAllows_fits hallows hkind).keeps hbinds.keeps
  refine ⟨hordered, hbinds.grows, fun target θ hunifies => ?_⟩
  apply hunifies.assigns.binds hbinds hunifies.equal
  intro u kind hkind
  exact hunifies.assigns.fits h hkind

theorem extends_merge {va vb : TyVar} {kind : Option VarKind} (h : ctx.Ordered)
    (ha : ctx.lookup va = none) (hb : ctx.lookup vb = none) (hne : va ≠ vb)
    (hslot : ctx.Allocated (.var va)) (hslot' : ctx.Allocated (.var vb))
    (hmerges : Merges (ctx.kindOf va) (ctx.kindOf vb) kind) :
    Extends ctx ((ctx.bind va (.var vb)).setKind vb kind) (.var va) (.var vb) := by
  have hjoins := joins_merge h ha hb hne (hslot va (by simp [Ty.leaves]))
    (hslot' vb (by simp [Ty.leaves])) hmerges
  have hordered := h.binds hjoins.binds hslot' hjoins.free (hjoins.fits hmerges)
  refine ⟨hordered, hjoins.binds.grows, fun target θ hunifies => ?_⟩
  have heq : θ va = θ vb := hunifies.equal
  apply hunifies.assigns.binds hjoins.binds heq
  intro u k hk
  by_cases hu : u = vb
  · rw [hu, hjoins.kindOf_self] at hk
    rw [hu]
    rcases hmerges.origin with horigin | horigin
    · rw [← heq]
      exact hunifies.assigns.fits h (horigin ▸ hk)
    · exact hunifies.assigns.fits h (horigin ▸ hk)
  · rw [hjoins.kindOf_ne u hu] at hk
    exact hunifies.assigns.fits h hk

theorem Extends.symm (h : Extends ctx ctx' a b) : Extends ctx ctx' b a :=
  ⟨h.ordered, h.grows, fun target θ hunifies =>
    h.general target θ ⟨hunifies.assigns, hunifies.equal.symm⟩⟩

theorem extends_refl (h : ctx.Ordered) : Extends ctx ctx a b :=
  ⟨h, .refl _, fun _ _ hunifies => hunifies.assigns⟩

theorem Extends.of_resolve (h : Extends ctx ctx' (ctx.resolve a) (ctx.resolve b))
    (hctx : ctx.Ordered) : Extends ctx ctx' a b := by
  refine ⟨h.ordered, h.grows, fun target θ hunifies => h.general target θ ⟨hunifies.assigns, ?_⟩⟩
  rw [hunifies.assigns.resolve hctx, hunifies.assigns.resolve hctx, hunifies.equal]

theorem extends_forM {pairs : List (Ty × Ty)} {f : Ty × Ty → Unify Unit}
    (hf : ∀ p ∈ pairs, ∀ {ctx ctx'}, ctx.Ordered → ctx.Allocated p.1 → ctx.Allocated p.2 →
      f p ctx = .ok ⟨⟩ ctx' → Extends ctx ctx' p.1 p.2)
    (h : ctx.Ordered) (hslots : ∀ p ∈ pairs, ctx.Allocated p.1 ∧ ctx.Allocated p.2)
    (hrun : pairs.forM f ctx = .ok ⟨⟩ ctx') :
    ctx'.Ordered ∧ Grows ctx ctx' ∧ ∀ target θ, Assigns ctx target θ →
      (∀ p ∈ pairs, p.1.assign θ = p.2.assign θ) → Assigns ctx' target θ := by
  induction pairs generalizing ctx with
  | nil =>
    rw [(pure_eq_ok.mp hrun).2]
    exact ⟨h, .refl _, fun _ _ hassigns _ => hassigns⟩
  | cons p pairs ih =>
    have ⟨_, mid, hone, hrest⟩ := bind_eq_ok.mp hrun
    have ⟨hp, hp'⟩ := hslots p (by simp)
    have hfirst := hf p (by simp) h hp hp' hone
    have ⟨hordered, hgrows, hgeneral⟩ := ih (fun q hq => hf q (by simp [hq])) hfirst.ordered
      (fun q hq => ⟨(hslots q (by simp [hq])).1.grows hfirst.grows,
        (hslots q (by simp [hq])).2.grows hfirst.grows⟩) hrest
    refine ⟨hordered, hfirst.grows.trans hgrows, fun target θ hassigns heq => ?_⟩
    have hmid := hfirst.general target θ ⟨hassigns, heq p (by simp)⟩
    exact hgeneral target θ hmid fun q hq => heq q (by simp [hq])

theorem assign_args {item : ItemId} {aArgs bArgs : List Ty}
    (heq : (Ty.applied item aArgs).assign θ = (Ty.applied item bArgs).assign θ) :
    ∀ p ∈ aArgs.zip bArgs, p.1.assign θ = p.2.assign θ := by
  rw [Ty.assign_applied, Ty.assign_applied] at heq
  have hmap := (Ty.applied.inj heq).2
  intro p hp
  have ⟨i, hi, hpi⟩ := List.mem_iff_getElem.mp hp
  rw [List.length_zip] at hi
  have hget := congrArg (fun l => l[i]?) hmap
  rw [List.getElem_zip] at hpi
  rw [← hpi]
  simpa [List.getElem?_map, List.getElem?_eq_getElem (show i < aArgs.length by omega),
    List.getElem?_eq_getElem (show i < bArgs.length by omega)] using hget

theorem Step.extends {n : ℕ}
    (hbelow : ∀ m, n = m + 1 → ∀ {ctx ctx' a b}, ctx.Ordered → ctx.Allocated a → ctx.Allocated b →
      unifyAtDepth m a b ctx = .ok ⟨⟩ ctx' → Extends ctx ctx' a b)
    (h : ctx.Ordered) (ha : ctx.Allocated a) (hb : ctx.Allocated b)
    (hsa : ∀ v, a = .var v → ctx.lookup v = none) (hsb : ∀ v, b = .var v → ctx.lookup v = none)
    (hstep : Step ctx n a b ctx') : Extends ctx ctx' a b := by
  cases hstep with
  | same => exact extends_refl h
  | absorbed => exact extends_refl h
  | merged hne hmerges => exact extends_merge h (hsa _ rfl) (hsb _ rfl) hne ha hb hmerges
  | left hocc hallows => exact extends_bind h (hsa _ rfl) ha hb hocc hallows
  | right hocc hallows => exact (extends_bind h (hsb _ rfl) hb ha hocc hallows).symm
  | args _ hn hargs =>
    have hslots : ∀ p ∈ List.zip _ _, ctx.Allocated p.1 ∧ ctx.Allocated p.2 := fun p hp =>
      ⟨ha.arg (List.of_mem_zip hp).1, hb.arg (List.of_mem_zip hp).2⟩
    have ⟨hordered, hgrows, hgeneral⟩ := extends_forM (fun p _ => hbelow _ hn) h hslots hargs
    exact ⟨hordered, hgrows, fun target θ hunifies =>
      hgeneral target θ hunifies.assigns (assign_args hunifies.equal)⟩

theorem unifyAtDepth_extends {n : ℕ} (h : ctx.Ordered) (ha : ctx.Allocated a)
    (hb : ctx.Allocated b) (hrun : unifyAtDepth n a b ctx = .ok ⟨⟩ ctx') :
    Extends ctx ctx' a b := by
  induction n generalizing ctx ctx' a b with
  | zero =>
    have hstep := (unifyAtDepth_step hrun).extends (fun m hm => by omega) h (ha.resolve h)
      (hb.resolve h) (fun v => resolve_settled h) (fun v => resolve_settled h)
    exact hstep.of_resolve h
  | succ n ih =>
    have hbelow : ∀ m, n + 1 = m + 1 → ∀ {ctx ctx' a b}, ctx.Ordered → ctx.Allocated a →
        ctx.Allocated b → unifyAtDepth m a b ctx = .ok ⟨⟩ ctx' → Extends ctx ctx' a b := by
      intro m hm
      have hmn : m = n := by omega
      rw [hmn]
      exact fun {_ _ _ _} => ih
    have hstep := (unifyAtDepth_step hrun).extends hbelow h (ha.resolve h)
      (hb.resolve h) (fun v => resolve_settled h) (fun v => resolve_settled h)
    exact hstep.of_resolve h

/-! ### When a unification succeeds -/

theorem exceedsGenericDepth_mono {m n : ℕ} (hmn : m ≤ n) (h : exceedsGenericDepth m ty = false) :
    exceedsGenericDepth n ty = false := by
  induction m generalizing n ty with
  | zero => simp [exceedsGenericDepth] at h
  | succ m ih =>
    cases n with
    | zero => omega
    | succ n =>
      cases ty with
      | applied item args =>
        simp only [exceedsGenericDepth, List.any_eq_false] at h ⊢
        intro arg harg
        simpa using ih (by omega) (by simpa using h arg harg)
      | _ => rfl

theorem exceedsGenericDepth_arg {n : ℕ} {item : ItemId} {args : List Ty} {arg : Ty}
    (h : exceedsGenericDepth (n + 1) (.applied item args) = false) (harg : arg ∈ args) :
    exceedsGenericDepth n arg = false := by
  simp only [exceedsGenericDepth, List.any_eq_false] at h
  simpa using h arg harg

theorem Assigns.size_le_of_occurs (h : Assigns ctx target θ) (hctx : ctx.Ordered) {n : ℕ}
    (hdepth : exceedsGenericDepth n (ty.assign θ) = false) (hocc : occurs ctx v n ty = true) :
    sizeOf (θ v) ≤ sizeOf (ty.assign θ) := by
  induction n generalizing ty with
  | zero => simp [exceedsGenericDepth] at hdepth
  | succ n ih =>
    rw [← h.resolve hctx ty] at hdepth ⊢
    rw [occurs] at hocc
    generalize ctx.resolve ty = t at hdepth hocc ⊢
    cases t with
    | var w =>
      have hwv : w = v := by simpa using hocc
      rw [hwv, Ty.assign_var]
    | applied item args =>
      obtain ⟨arg, harg, hin⟩ := List.any_eq_true.mp hocc
      rw [Ty.assign_applied] at hdepth ⊢
      have hmem := List.mem_map_of_mem (f := Ty.assign θ) harg
      have hle := ih (exceedsGenericDepth_arg hdepth hmem) hin
      have hlt : sizeOf (arg.assign θ) < sizeOf (args.map (Ty.assign θ)) :=
        List.sizeOf_lt_of_mem hmem
      rw [Ty.applied.sizeOf_spec]
      omega
    | _ => simp at hocc

theorem Unifies.not_occurs (h : Unifies ctx target θ (.var v) ty) (hctx : ctx.Ordered)
    (hvar : ∀ w, ty ≠ .var w) {n : ℕ} (hdepth : exceedsGenericDepth n (ty.assign θ) = false) :
    occurs ctx v n ty = false := by
  cases n with
  | zero => simp [exceedsGenericDepth] at hdepth
  | succ n =>
    rw [occurs, resolve_of_settled hctx fun w hw => absurd hw (hvar w)]
    cases ty with
    | var w => exact absurd rfl (hvar w)
    | applied item args =>
      rw [← Bool.not_eq_true]
      intro hocc
      obtain ⟨arg, harg, hin⟩ := List.any_eq_true.mp hocc
      rw [Ty.assign_applied] at hdepth
      have hmem := List.mem_map_of_mem (f := Ty.assign θ) harg
      have hle := h.assigns.size_le_of_occurs hctx (exceedsGenericDepth_arg hdepth hmem) hin
      have hlt : sizeOf (arg.assign θ) < sizeOf (args.map (Ty.assign θ)) :=
        List.sizeOf_lt_of_mem hmem
      have hsame : θ v = .applied item (args.map (Ty.assign θ)) := by
        rw [← Ty.assign_applied]
        exact h.equal
      rw [hsame, Ty.applied.sizeOf_spec] at hle
      omega
    | _ => rfl

theorem Unifies.kindAllows (h : Unifies ctx target θ (.var v) ty) (hctx : ctx.Ordered)
    (hvar : ∀ w, ty ≠ .var w) : kindAllows ctx v ty = true := by
  rw [Typeck.kindAllows]
  cases hkind : ctx.kindOf v with
  | none => rfl
  | some kind =>
    have hfits := h.assigns.fits hctx hkind
    have heq : θ v = ty.assign θ := h.equal
    rw [heq] at hfits
    rcases hfits with ⟨w, hw, _⟩ | hconcrete
    · exact absurd hw (Ty.assign_ne_var hvar w)
    · have happlied : ∀ item args, ty ≠ .applied item args := by
        intro item args hargs
        cases kind <;> simp [hargs, isInteger] at hconcrete
      rw [Ty.assign_of_end hvar happlied] at hconcrete
      cases kind with
      | integer => exact hconcrete
      | float => simpa using hconcrete

theorem bindVar_succeeds {mismatch : Ty × Ty} (h : Unifies ctx target θ (.var v) ty)
    (hctx : ctx.Ordered) (hvar : ∀ w, ty ≠ .var w)
    (hdepth : exceedsGenericDepth (Limits.maxGenericDepth + 1) (ty.assign θ) = false) :
    ∃ ctx', bindVar v ty mismatch ctx = .ok ⟨⟩ ctx' := by
  refine ⟨ctx.bind v ty, ?_⟩
  rw [bindVar, get_bind_eq_ok, h.not_occurs hctx hvar hdepth, if_neg Bool.false_ne_true,
    if_pos (h.kindAllows hctx hvar)]
  rfl

theorem mergeVars_succeeds {va vb : TyVar} (h : Unifies ctx target θ (.var va) (.var vb))
    (hctx : ctx.Ordered) : ∃ ctx', mergeVars va vb a b ctx = .ok ⟨⟩ ctx' := by
  simp only [mergeVars, get_bind_eq_ok]
  cases hka : ctx.kindOf va with
  | none => exact ⟨_, rfl⟩
  | some x =>
    cases hkb : ctx.kindOf vb with
    | none => exact ⟨_, rfl⟩
    | some y =>
      have hx := h.assigns.fits hctx hka
      have hy := h.assigns.fits hctx hkb
      have heq : θ va = θ vb := h.equal
      rw [heq] at hx
      have hsame : x = y := hx.kind_unique hy
      simp only [hsame, ne_eq, not_true_eq_false, if_false]
      exact ⟨_, rfl⟩

theorem succeeds_forM {pairs : List (Ty × Ty)} {f : Ty × Ty → Unify Unit}
    (hf : ∀ p ∈ pairs, ∀ {ctx ctx'}, ctx.Ordered → ctx.Allocated p.1 → ctx.Allocated p.2 →
      f p ctx = .ok ⟨⟩ ctx' → Extends ctx ctx' p.1 p.2)
    (hok : ∀ p ∈ pairs, ∀ {ctx}, ctx.Ordered → ctx.Allocated p.1 → ctx.Allocated p.2 →
      Unifies ctx target θ p.1 p.2 → ∃ ctx', f p ctx = .ok ⟨⟩ ctx')
    (h : ctx.Ordered) (hslots : ∀ p ∈ pairs, ctx.Allocated p.1 ∧ ctx.Allocated p.2)
    (hassigns : Assigns ctx target θ) (heq : ∀ p ∈ pairs, p.1.assign θ = p.2.assign θ) :
    ∃ ctx', pairs.forM f ctx = .ok ⟨⟩ ctx' := by
  induction pairs generalizing ctx with
  | nil => exact ⟨ctx, rfl⟩
  | cons p pairs ih =>
    have ⟨hp, hp'⟩ := hslots p (by simp)
    have hunifies : Unifies ctx target θ p.1 p.2 := ⟨hassigns, heq p (by simp)⟩
    have ⟨mid, hone⟩ := hok p (by simp) h hp hp' hunifies
    have hfirst := hf p (by simp) h hp hp' hone
    have ⟨ctx', hrest⟩ := ih (fun q hq => hf q (by simp [hq])) (fun q hq => hok q (by simp [hq]))
      hfirst.ordered (fun q hq => ⟨(hslots q (by simp [hq])).1.grows hfirst.grows,
        (hslots q (by simp [hq])).2.grows hfirst.grows⟩) (hfirst.general target θ hunifies)
      fun q hq => heq q (by simp [hq])
    exact ⟨ctx', (bind_of_ok hone).trans hrest⟩

/-- The depth left to descend is enough for what the types become, where it is for
their arguments. -/
theorem unifyAtDepth_succeeds_of {n : ℕ} (hn : n ≤ Limits.maxGenericDepth)
    (hbelow : ∀ m, n = m + 1 → ∀ {ctx a b}, ctx.Ordered → ctx.Allocated a → ctx.Allocated b →
      Unifies ctx target θ a b → exceedsGenericDepth (m + 1) (a.assign θ) = false →
      ∃ ctx', unifyAtDepth m a b ctx = .ok ⟨⟩ ctx')
    (h : ctx.Ordered) (ha : ctx.Allocated a) (hb : ctx.Allocated b)
    (hunifies : Unifies ctx target θ a b)
    (hdepth : exceedsGenericDepth (n + 1) (a.assign θ) = false) :
    ∃ ctx', unifyAtDepth n a b ctx = .ok ⟨⟩ ctx' := by
  have hfull : ∀ {ty : Ty}, exceedsGenericDepth (n + 1) ty = false →
      exceedsGenericDepth (Limits.maxGenericDepth + 1) ty = false :=
    fun hty => exceedsGenericDepth_mono (by omega) hty
  have hsa := ha.resolve h
  have hsb := hb.resolve h
  have hresolved : Unifies ctx target θ (ctx.resolve a) (ctx.resolve b) :=
    ⟨hunifies.assigns, by
      rw [hunifies.assigns.resolve h, hunifies.assigns.resolve h, hunifies.equal]⟩
  rw [← hunifies.assigns.resolve h] at hdepth
  simp only [unifyAtDepth.eq_def n, get_bind_eq_ok]
  generalize ctx.resolve a = ra at *
  generalize ctx.resolve b = rb at *
  have hdepth' : exceedsGenericDepth (n + 1) (rb.assign θ) = false := hresolved.equal ▸ hdepth
  by_cases hsame : ra = rb
  · rw [if_pos hsame]
    exact ⟨ctx, rfl⟩
  rw [if_neg hsame]
  split
  · exact ⟨ctx, rfl⟩
  · exact ⟨ctx, rfl⟩
  · exact ⟨ctx, rfl⟩
  · exact ⟨ctx, rfl⟩
  · exact mergeVars_succeeds hresolved h
  · exact bindVar_succeeds hresolved h (by assumption) (hfull hdepth')
  · have hswapped : Unifies ctx target θ (.var _) ra := ⟨hunifies.assigns, hresolved.equal.symm⟩
    exact bindVar_succeeds hswapped h (by assumption) (hfull hdepth)
  · rename_i aItem aArgs bItem bArgs
    have heq := hresolved.equal
    rw [Ty.assign_applied, Ty.assign_applied] at heq
    obtain ⟨hitem, hargs⟩ := Ty.applied.inj heq
    have hlen : aArgs.length = bArgs.length := by simpa using congrArg List.length hargs
    rw [if_neg (by simp [hitem, hlen])]
    cases n with
    | zero =>
      rw [Ty.assign_applied] at hdepth
      have hempty : aArgs = [] := by
        rw [List.eq_nil_iff_forall_not_mem]
        intro arg harg
        have hmem := List.mem_map_of_mem (f := Ty.assign θ) harg
        simpa [exceedsGenericDepth] using exceedsGenericDepth_arg hdepth hmem
      have hempty' : bArgs = [] := List.length_eq_zero_iff.mp (by rw [← hlen, hempty]; rfl)
      exact absurd (by rw [hitem, hempty, hempty']) hsame
    | succ m =>
      rw [hitem] at hresolved
      have hequal := assign_args hresolved.equal
      have hslots : ∀ p ∈ aArgs.zip bArgs, ctx.Allocated p.1 ∧ ctx.Allocated p.2 := fun p hp =>
        ⟨hsa.arg (List.of_mem_zip hp).1, hsb.arg (List.of_mem_zip hp).2⟩
      apply succeeds_forM (fun p _ _ _ => unifyAtDepth_extends) _ h hslots hunifies.assigns hequal
      intro p hp ctx hctx hp1 hp2 hunifies'
      rw [Ty.assign_applied] at hdepth
      exact hbelow m rfl hctx hp1 hp2 hunifies'
        (exceedsGenericDepth_arg hdepth (List.mem_map_of_mem (List.of_mem_zip hp).1))
  · rename_i hvar _ _ hvar' _ hargs
    have heq := hresolved.equal
    by_cases ha' : ∃ item args, ra = .applied item args
    · obtain ⟨item, args, hra⟩ := ha'
      rw [hra, Ty.assign_applied] at heq
      obtain ⟨args', hrb⟩ := Ty.applied_of_assign hvar' heq.symm
      exact (hargs _ _ _ _ hra hrb).elim
    · by_cases hb' : ∃ item args, rb = .applied item args
      · obtain ⟨item, args, hrb⟩ := hb'
        rw [hrb, Ty.assign_applied] at heq
        obtain ⟨args', hra⟩ := Ty.applied_of_assign hvar heq
        exact (hargs _ _ _ _ hra hrb).elim
      · rw [Ty.assign_of_end hvar fun item args hra => ha' ⟨item, args, hra⟩,
          Ty.assign_of_end hvar' fun item args hrb => hb' ⟨item, args, hrb⟩] at heq
        exact absurd heq hsame

theorem unifyAtDepth_succeeds {n : ℕ} (hn : n ≤ Limits.maxGenericDepth) (h : ctx.Ordered)
    (ha : ctx.Allocated a) (hb : ctx.Allocated b) (hunifies : Unifies ctx target θ a b)
    (hdepth : exceedsGenericDepth (n + 1) (a.assign θ) = false) :
    ∃ ctx', unifyAtDepth n a b ctx = .ok ⟨⟩ ctx' := by
  induction n generalizing ctx a b with
  | zero => exact unifyAtDepth_succeeds_of hn (fun m hm => by omega) h ha hb hunifies hdepth
  | succ n ih =>
    apply unifyAtDepth_succeeds_of hn _ h ha hb hunifies hdepth
    intro m hm ctx a b
    have hmn : m = n := by omega
    rw [hmn]
    exact ih (by omega)

end

/-! ### The unifier -/

def freeContext : TypeContext := ⟨[none, none, none], [none, none, none]⟩

theorem freeContext_ordered : freeContext.Ordered := by
  have hlater : Later {} freeContext :=
    ((Relation.ReflTransGen.single (Operation.fresh _ none)).tail (.fresh _ none)).tail
      (.fresh _ none)
  exact (Later.sound hlater sound_empty).1.ordered

theorem freeContext_assigns (θ : TyVar → Ty) : Assigns freeContext freeContext θ where
  solves v ty hv := by
    have hnone : freeContext.lookup v = none := by
      match v with
      | ⟨0⟩ | ⟨1⟩ | ⟨2⟩ | ⟨n + 3⟩ => rfl
    simp [hnone] at hv
  respects v kind _ hkind := by
    have hnone : freeContext.kindOf v = none := by
      match v with
      | ⟨0⟩ | ⟨1⟩ | ⟨2⟩ | ⟨n + 3⟩ => rfl
    simp [hnone] at hkind

section
variable {ctx : TypeContext} {a b : Ty}

/-- Whatever makes two types equal factors through what their unification leaves; and
they unify where something makes them equal within the depth the unification descends
to. -/
theorem unify_most_general {target₀ : TypeContext} {θ₀ : TyVar → Ty} (h : ctx.Ordered)
    (ha : ctx.Allocated a) (hb : ctx.Allocated b) (hunifies : Unifies ctx target₀ θ₀ a b)
    (hdepth : exceedsGenericDepth (Limits.maxGenericDepth + 1) (a.assign θ₀) = false) :
    ∃ ctx', unify a b ctx = .ok ⟨⟩ ctx' ∧ ctx'.Ordered ∧ Grows ctx ctx' ∧
      ∀ target θ, Unifies ctx target θ a b →
        Assigns ctx' target θ ∧ ∀ ty, (deepResolve ctx' ty).assign θ = ty.assign θ := by
  have ⟨ctx', hrun⟩ := unifyAtDepth_succeeds (le_refl _) h ha hb hunifies hdepth
  have hextends := unifyAtDepth_extends h ha hb hrun
  refine ⟨ctx', by rw [unify, hrun], hextends.ordered, hextends.grows, ?_⟩
  intro target θ hunifies'
  have hassigns := hextends.general target θ hunifies'
  exact ⟨hassigns, fun ty => hassigns.deepResolveAtDepth hextends.ordered _ ty⟩

end

/-- A record of two variables against one that nests the second in the first. -/
theorem unify_most_general_nested :
    ∃ ctx', unify (.applied ⟨0⟩ [.var ⟨0⟩, .var ⟨1⟩]) (.applied ⟨0⟩ [boxes 1 (.var ⟨1⟩), .i64])
        freeContext = .ok ⟨⟩ ctx' ∧ ctx'.Ordered ∧ Grows freeContext ctx' ∧
      ∀ target θ, Unifies freeContext target θ (.applied ⟨0⟩ [.var ⟨0⟩, .var ⟨1⟩])
          (.applied ⟨0⟩ [boxes 1 (.var ⟨1⟩), .i64]) →
        Assigns ctx' target θ ∧ ∀ ty, (deepResolve ctx' ty).assign θ = ty.assign θ := by
  have hunifies : Unifies freeContext freeContext
      (fun v => if v = ⟨0⟩ then boxes 1 .i64 else .i64) (.applied ⟨0⟩ [.var ⟨0⟩, .var ⟨1⟩])
      (.applied ⟨0⟩ [boxes 1 (.var ⟨1⟩), .i64]) := ⟨freeContext_assigns _, by decide +kernel⟩
  refine unify_most_general freeContext_ordered ?_ ?_ hunifies (by decide +kernel)
  · intro v hv
    simp [Ty.leaves, freeContext] at hv ⊢
    rcases hv with rfl | rfl <;> decide
  · intro v hv
    simp [Ty.leaves, freeContext, boxes] at hv ⊢
    subst hv
    decide

def nestedLeft : Ty := .applied ⟨0⟩ [.var ⟨0⟩, boxes 40 (.var ⟨0⟩)]

def nestedRight : Ty := .applied ⟨0⟩ [boxes 40 (.var ⟨1⟩), .var ⟨2⟩]

/-- The first variable stands for the nested type of one side. -/
def nestedChoice (v : TyVar) : Ty :=
  if v = ⟨0⟩ then boxes 40 .i64 else if v = ⟨2⟩ then boxes 80 .i64 else .i64

/-- Two types nested no deeper than the bound that one choice makes equal, and that do not
unify: the first arguments bind a variable to a type of forty levels, and the second
arguments then compare one of eighty. -/
theorem unify_misses_unifier :
    freeContext.Ordered ∧ freeContext.Allocated nestedLeft ∧ freeContext.Allocated nestedRight ∧
      exceedsGenericDepth (Limits.maxGenericDepth + 1) (deepResolve freeContext nestedLeft) =
        false ∧
      exceedsGenericDepth (Limits.maxGenericDepth + 1) (deepResolve freeContext nestedRight) =
        false ∧
      Unifies freeContext freeContext nestedChoice nestedLeft nestedRight ∧
      ∀ ctx', unify nestedLeft nestedRight freeContext ≠ .ok ⟨⟩ ctx' := by
  have hleaves : nestedLeft.leaves = [.var ⟨0⟩, .var ⟨0⟩] := by decide +kernel
  have hleaves' : nestedRight.leaves = [.var ⟨1⟩, .var ⟨2⟩] := by decide +kernel
  refine ⟨freeContext_ordered, ?_, ?_, by decide +kernel, by decide +kernel,
    ⟨freeContext_assigns _, by decide +kernel⟩, ?_⟩
  · intro v hv
    rw [hleaves] at hv
    simp_all [freeContext]
  · intro v hv
    rw [hleaves'] at hv
    simp_all [freeContext]
    grind
  · intro ctx' hrun
    have hrefused : (unify nestedLeft nestedRight).run' freeContext = none := by decide +kernel
    delta EStateM.run' EStateM.run at hrefused
    rw [hrun] at hrefused
    cases hrefused

end Typeck

end Napitia
