import Mathlib.Algebra.Order.BigOperators.Group.List
import Mathlib.Algebra.Order.Group.Nat
import Mathlib.Logic.Relation
import Napitia.Typeck.Unify

/-!
# What unification keeps

`Sound` holds of the empty context and of whatever any sequence of operations
makes of it: no variable is reached from itself through the table, and what a
kinded variable is bound to is of its kind. A context only ever grows, and what
two types resolve to in the grown one is decided by what they resolved to
before, so types once unified stay equal.
-/
namespace Napitia.Typeck

namespace TypeContext

/-- A bound variable, and a variable of what it is bound to. -/
def Mentions (ctx : TypeContext) (v w : TyVar) : Prop :=
  ∃ ty, ctx.lookup v = some ty ∧ .var w ∈ ty.leaves

/-- A variable found in a type by following the table. -/
def Reaches (ctx : TypeContext) (ty : Ty) (v : TyVar) : Prop :=
  ∃ w, .var w ∈ ty.leaves ∧ Relation.ReflTransGen ctx.Mentions w v

/-- Where the loop of `resolve` ends. -/
inductive Resolves (ctx : TypeContext) : Ty → Ty → Prop
  | settled {ty : Ty} : (∀ v, ty = .var v → ctx.lookup v = none) → Resolves ctx ty ty
  | hop {v : TyVar} {next ty : Ty} : ctx.lookup v = some next → Resolves ctx next ty →
    Resolves ctx (.var v) ty

/-- What a variable of a kind may be bound to. -/
def Fits (ctx : TypeContext) (kind : VarKind) (ty : Ty) : Prop :=
  (∃ w, ty = .var w ∧ ctx.kindOf w = some kind) ∨
    match kind with
    | .integer => isInteger ty = true
    | .float => ty = .f32 ∨ ty = .f64

/-- Along the table every variable is ranked above those it mentions. -/
def Ranks (ctx : TypeContext) (rank : TyVar → ℕ) : Prop :=
  ∀ v w, ctx.Mentions v w → rank w < rank v

/-- Every variable of a type has a slot in the table. -/
def Allocated (ctx : TypeContext) (ty : Ty) : Prop :=
  ∀ v, .var v ∈ ty.leaves → v.index < ctx.substitutions.length

/-- The table allocates what it mentions, leads nowhere back, and respects the kinds. -/
structure Ordered (ctx : TypeContext) : Prop where
  lengths : ctx.kinds.length = ctx.substitutions.length
  allocated : ∀ v ty, ctx.lookup v = some ty → ctx.Allocated ty
  ranked : ∃ rank, ctx.Ranks rank
  kinded : ∀ v ty kind, ctx.lookup v = some ty → ctx.kindOf v = some kind → ctx.Fits kind ty

structure Sound (ctx : TypeContext) : Prop where
  lengths : ctx.kinds.length = ctx.substitutions.length
  plain : ∀ v ty, ctx.lookup v = some ty → Plain ctx ty
  ranked : ∃ rank, ctx.Ranks rank
  kinded : ∀ v ty kind, ctx.lookup v = some ty → ctx.kindOf v = some kind → ctx.Fits kind ty

theorem Sound.ordered {ctx : TypeContext} (h : ctx.Sound) : ctx.Ordered where
  lengths := h.lengths
  allocated v ty hv := (h.plain v ty hv).allocated
  ranked := h.ranked
  kinded := h.kinded

/-- What is bound stays bound, and to the same type. -/
structure Grows (ctx ctx' : TypeContext) : Prop where
  keeps : ∀ v ty, ctx.lookup v = some ty → ctx'.lookup v = some ty
  length_le : ctx.substitutions.length ≤ ctx'.substitutions.length

theorem Grows.refl (ctx : TypeContext) : Grows ctx ctx := ⟨fun _ _ h => h, le_refl _⟩

theorem Grows.trans {ctx ctx' ctx'' : TypeContext} (h : Grows ctx ctx') (h' : Grows ctx' ctx'') :
    Grows ctx ctx'' :=
  ⟨fun v ty hv => h'.keeps v ty (h.keeps v ty hv), h.length_le.trans h'.length_le⟩

section
variable {ctx ctx' : TypeContext} {ty ty' : Ty} {v : TyVar}

theorem plain_grows (h : Plain ctx ty) (hgrows : Grows ctx ctx') : Plain ctx' ty where
  allocated v hv := (h.allocated v hv).trans_le hgrows.length_le
  noError := h.noError
  noNever := h.noNever

theorem Allocated.grows (h : ctx.Allocated ty) (hgrows : Grows ctx ctx') : ctx'.Allocated ty :=
  fun v hv => (h v hv).trans_le hgrows.length_le

theorem index_lt_of_lookup (h : ctx.lookup v = some ty) :
    v.index < ctx.substitutions.length := by
  by_contra hge
  have hnone : ctx.substitutions[v.index]? = none := List.getElem?_eq_none (by omega)
  simp [lookup, hnone] at h

/-! ### Resolution -/

theorem Resolves.isSettled (h : Resolves ctx ty ty') : ∀ v, ty' = .var v → ctx.lookup v = none := by
  induction h with
  | settled hsettled => exact hsettled
  | hop _ _ ih => exact ih

theorem Resolves.unique {t u : Ty} (ht : Resolves ctx ty t) (hu : Resolves ctx ty u) : t = u := by
  induction ht with
  | settled hsettled =>
    cases hu with
    | settled _ => rfl
    | hop hlookup _ => simp [hsettled _ rfl] at hlookup
  | hop hlookup _ ih =>
    cases hu with
    | settled hsettled => simp [hsettled _ rfl] at hlookup
    | hop hlookup' hrest =>
      rw [hlookup, Option.some.injEq] at hlookup'
      exact ih (hlookup' ▸ hrest)

theorem Resolves.grows {t t' : Ty} (h : Resolves ctx ty t) (hgrows : Grows ctx ctx')
    (h' : Resolves ctx' t t') : Resolves ctx' ty t' := by
  induction h with
  | settled _ => exact h'
  | hop hlookup _ ih => exact .hop (hgrows.keeps _ _ hlookup) (ih h')

theorem resolveFrom_resolves (n : ℕ) (ty : Ty)
    (hsettled : ∀ v, ctx.resolveFrom n ty = .var v → ctx.lookup v = none) :
    Resolves ctx ty (ctx.resolveFrom n ty) := by
  induction n generalizing ty with
  | zero => exact .settled hsettled
  | succ n ih =>
    cases ty with
    | var v =>
      rw [resolveFrom] at hsettled ⊢
      cases hlookup : ctx.lookup v with
      | none =>
        apply Resolves.settled
        intro w hw
        rw [← Ty.var.inj hw, hlookup]
      | some next =>
        simp only [hlookup] at hsettled
        exact .hop hlookup (ih next hsettled)
    | _ => exact .settled (by simp)

/-- The variables a loop has passed are distinct and have slots, so it ends
before it has taken more turns than there are slots. -/
theorem resolveFrom_settled {rank : TyVar → ℕ} (hrank : ctx.Ranks rank) {n : ℕ}
    (passed : List TyVar) (hnodup : (passed.map TyVar.index).Nodup)
    (hslots : ∀ u ∈ passed, u.index < ctx.substitutions.length)
    (habove : ∀ v, ty = .var v → ∀ u ∈ passed, rank v < rank u)
    (hn : ctx.substitutions.length + 1 ≤ n + passed.length) :
    ∀ v, ctx.resolveFrom n ty = .var v → ctx.lookup v = none := by
  induction n generalizing ty passed with
  | zero =>
    have hsub : passed.map TyVar.index ⊆ List.range ctx.substitutions.length := by
      intro i hi
      have ⟨u, hu, heq⟩ := List.mem_map.mp hi
      rw [List.mem_range, ← heq]
      exact hslots u hu
    have hle := (List.Nodup.subperm hnodup hsub).length_le
    rw [List.length_map, List.length_range] at hle
    omega
  | succ n ih =>
    cases ty with
    | var v =>
      rw [resolveFrom]
      cases hlookup : ctx.lookup v with
      | none =>
        intro w hw
        rw [← Ty.var.inj hw, hlookup]
      | some next =>
        have hfresh : v.index ∉ passed.map TyVar.index := by
          intro hmem
          have ⟨u, hu, heq⟩ := List.mem_map.mp hmem
          have hlt := habove v rfl u hu
          have hsame : u = v := by
            cases u
            cases v
            simpa using heq
          rw [hsame] at hlt
          exact absurd hlt (lt_irrefl _)
        apply ih (v :: passed)
        · exact List.nodup_cons.mpr ⟨hfresh, hnodup⟩
        · intro u hu
          cases hu with
          | head => exact index_lt_of_lookup hlookup
          | tail _ hu => exact hslots u hu
        · intro w hw u hu
          have hlt : rank w < rank v := hrank v w ⟨next, hlookup, by simp [hw, Ty.leaves]⟩
          cases hu with
          | head => exact hlt
          | tail _ hu => exact hlt.trans (habove v rfl u hu)
        · rw [List.length_cons]
          omega
    | _ => simp [resolveFrom]

theorem resolve_resolves (h : ctx.Ordered) (ty : Ty) : Resolves ctx ty (ctx.resolve ty) := by
  have ⟨rank, hrank⟩ := h.ranked
  apply resolveFrom_resolves
  exact resolveFrom_settled hrank [] (by simp) (by simp) (by simp) (by simp)

theorem resolve_eq (h : ctx.Ordered) (hty : Resolves ctx ty ty') : ctx.resolve ty = ty' :=
  (resolve_resolves h ty).unique hty

theorem resolve_settled (h : ctx.Ordered) (hv : ctx.resolve ty = .var v) : ctx.lookup v = none :=
  (resolve_resolves h ty).isSettled v hv

theorem resolve_of_settled (h : ctx.Ordered) (hty : ∀ v, ty = .var v → ctx.lookup v = none) :
    ctx.resolve ty = ty :=
  resolve_eq h (.settled hty)

theorem resolve_grows (h : ctx.Ordered) (h' : ctx'.Ordered) (hgrows : Grows ctx ctx') (ty : Ty) :
    ctx'.resolve ty = ctx'.resolve (ctx.resolve ty) :=
  resolve_eq h' ((resolve_resolves h ty).grows hgrows (resolve_resolves h' _))

theorem plain_resolve (hty : Plain ctx ty) (h : ctx.Sound) : Plain ctx (ctx.resolve ty) := by
  have hresolves := resolve_resolves h.ordered ty
  generalize ctx.resolve ty = t at hresolves
  induction hresolves with
  | settled _ => exact hty
  | hop hlookup _ ih => exact ih (h.plain _ _ hlookup)

theorem Resolves.fits (hty : Resolves ctx ty ty') (h : ctx.Ordered) {kind : VarKind}
    (hfits : ctx.Fits kind ty) : ctx.Fits kind ty' := by
  induction hty with
  | settled _ => exact hfits
  | hop hlookup _ ih =>
    rcases hfits with ⟨w, hw, hkind⟩ | hconcrete
    · rw [← Ty.var.inj hw] at hkind
      exact ih (h.kinded _ _ kind hlookup hkind)
    · cases kind <;> simp [isInteger] at hconcrete

/-! ### Deep resolution -/

theorem deepResolveAtDepth_congr {n : ℕ} (h : ctx.resolve ty = ctx.resolve ty') :
    deepResolveAtDepth ctx n ty = deepResolveAtDepth ctx n ty' := by
  cases n <;> rw [deepResolveAtDepth, deepResolveAtDepth, h]

theorem deepResolveAtDepth_applied {n : ℕ} {item : ItemId} {args : List Ty}
    (h : ctx.resolve ty = .applied item args) :
    deepResolveAtDepth ctx (n + 1) ty = .applied item (args.map (deepResolveAtDepth ctx n)) := by
  rw [deepResolveAtDepth, h]

theorem deepResolveAtDepth_leaf {n : ℕ} (h : ctx.resolve ty = ty')
    (hleaf : ∀ item args, ty' ≠ .applied item args) : deepResolveAtDepth ctx n ty = ty' := by
  cases n with
  | zero => rw [deepResolveAtDepth, h]
  | succ n =>
    rw [deepResolveAtDepth, h]
    cases ty' with
    | applied item args => exact absurd rfl (hleaf item args)
    | _ => rfl

theorem deepResolveAtDepth_grows (h : ctx.Ordered) (h' : ctx'.Ordered) (hgrows : Grows ctx ctx')
    (n : ℕ) (ty : Ty) : deepResolveAtDepth ctx' n ty =
      deepResolveAtDepth ctx' n (deepResolveAtDepth ctx n ty) := by
  induction n generalizing ty with
  | zero => exact resolve_grows h h' hgrows ty
  | succ n ih =>
    rw [deepResolveAtDepth_congr (resolve_grows h h' hgrows ty)]
    cases hty : ctx.resolve ty with
    | applied item args =>
      have happlied : ∀ args, ctx'.resolve (.applied item args) = .applied item args :=
        fun args => resolve_of_settled h' (by simp)
      rw [deepResolveAtDepth_applied hty, deepResolveAtDepth_applied (happlied _),
        deepResolveAtDepth_applied (happlied _), List.map_map]
      congr 1
      exact List.map_congr_left fun a _ => ih a
    | _ => rw [deepResolveAtDepth_leaf hty (by simp)]

theorem deepResolveAtDepth_eq_grows (h : ctx.Ordered) (h' : ctx'.Ordered) (hgrows : Grows ctx ctx')
    {n : ℕ} (heq : deepResolveAtDepth ctx n ty = deepResolveAtDepth ctx n ty') :
    deepResolveAtDepth ctx' n ty = deepResolveAtDepth ctx' n ty' := by
  rw [deepResolveAtDepth_grows h h' hgrows, heq, ← deepResolveAtDepth_grows h h' hgrows]

/-! ### Occurrence -/

theorem Resolves.reaches (hty : Resolves ctx ty ty') (hv : ctx.lookup v = none)
    (h : ctx.Reaches ty v) : ctx.Reaches ty' v := by
  induction hty with
  | settled _ => exact h
  | @hop u next t hlookup _ ih =>
    apply ih
    have ⟨w, hw, hreach⟩ := h
    have hwu : w = u := by simpa [Ty.leaves] using hw
    rw [hwu] at hreach
    rcases Relation.ReflTransGen.cases_head hreach with heq | ⟨x, ⟨bound, hbound, hx⟩, hrest⟩
    · rw [heq, hv] at hlookup
      simp at hlookup
    · rw [hlookup, Option.some.injEq] at hbound
      exact ⟨x, hbound ▸ hx, hrest⟩

theorem not_reaches_of_occurs (h : ctx.Ordered) (hv : ctx.lookup v = none) {n : ℕ}
    (hocc : occurs ctx v n ty = false) : ¬ ctx.Reaches ty v := by
  induction n generalizing ty with
  | zero => simp [occurs] at hocc
  | succ n ih =>
    intro hreach
    rw [occurs] at hocc
    have hreach' := (resolve_resolves h ty).reaches hv hreach
    have ⟨w, hw, hpath⟩ := hreach'
    cases hres : ctx.resolve ty with
    | var u =>
      rw [hres] at hocc hw
      have hwu : w = u := by simpa [Ty.leaves] using hw
      rw [hwu] at hpath
      have hu : ctx.lookup u = none := resolve_settled h hres
      rcases Relation.ReflTransGen.cases_head hpath with heq | ⟨x, ⟨bound, hbound, _⟩, _⟩
      · simp [heq] at hocc
      · simp [hu] at hbound
    | applied item args =>
      simp only [hres, List.any_eq_false] at hocc
      rw [hres, Ty.leaves_applied, List.mem_flatMap] at hw
      have ⟨a, ha, hwa⟩ := hw
      exact ih (by simpa using hocc a ha) ⟨w, hwa, hpath⟩
    | _ =>
      rw [hres] at hw
      simp [Ty.leaves] at hw

/-! ### Binding -/

theorem lookup_bind_self (hv : v.index < ctx.substitutions.length) :
    (ctx.bind v ty).lookup v = some ty := by
  simp [lookup, bind, hv]

theorem lookup_bind_ne {u : TyVar} (hne : u ≠ v) : (ctx.bind v ty).lookup u = ctx.lookup u := by
  have hindex : v.index ≠ u.index := by
    intro heq
    cases u
    cases v
    simp_all
  simp [lookup, bind, List.getElem?_set_ne hindex]

/-- A context with one more variable bound, where the kinds of the variables
bound before are as they were. -/
structure Binds (ctx ctx' : TypeContext) (v : TyVar) (ty : Ty) : Prop where
  unbound : ctx.lookup v = none
  slot : v.index < ctx.substitutions.length
  substitutions : ctx'.substitutions = (ctx.bind v ty).substitutions
  kinds : ctx'.kinds.length = ctx.kinds.length
  bound : ∀ u, (u = v ∨ ∃ t, ctx.lookup u = some t) → ctx'.kindOf u = ctx.kindOf u
  keeps : ∀ u kind, ctx.kindOf u = some kind → ctx'.kindOf u = some kind

theorem Binds.lookup_eq (h : Binds ctx ctx' v ty) (u : TyVar) :
    ctx'.lookup u = if u = v then some ty else ctx.lookup u := by
  have hsame : ctx'.lookup u = (ctx.bind v ty).lookup u := by
    rw [lookup, lookup, h.substitutions]
  rw [hsame]
  split
  · rename_i heq
    rw [heq, lookup_bind_self h.slot]
  · rename_i hne
    exact lookup_bind_ne hne

theorem Binds.grows (h : Binds ctx ctx' v ty) : Grows ctx ctx' where
  keeps u t hu := by
    have hne : u ≠ v := by
      intro heq
      rw [heq, h.unbound] at hu
      simp at hu
    rw [h.lookup_eq, if_neg hne, hu]
  length_le := by
    rw [h.substitutions, bind, List.length_set]

theorem Fits.keeps {kind : VarKind} (h : ctx.Fits kind ty)
    (hkeeps : ∀ u kind, ctx.kindOf u = some kind → ctx'.kindOf u = some kind) :
    ctx'.Fits kind ty := by
  rcases h with ⟨w, hw, hkind⟩ | hconcrete
  · exact .inl ⟨w, hw, hkeeps w kind hkind⟩
  · exact .inr hconcrete

/-- A leaf that is a variable stands one above its rank. -/
def height (rank : TyVar → ℕ) : Ty → ℕ
  | .var w => rank w + 1
  | _ => 0

theorem Binds.ranked (h : Binds ctx ctx' v ty) (hranked : ∃ rank, ctx.Ranks rank)
    (hfree : ¬ ctx.Reaches ty v) : ∃ rank, ctx'.Ranks rank := by
  classical
  obtain ⟨rank, hrank⟩ := hranked
  let lift : ℕ := (ty.leaves.map (height rank)).sum
  have hlift : ∀ w, .var w ∈ ty.leaves → rank w < lift := by
    intro w hw
    have hle : height rank (.var w) ≤ lift := List.single_le_sum (by simp) _ (List.mem_map_of_mem hw)
    exact hle
  refine ⟨fun u => if Relation.ReflTransGen ctx.Mentions u v then rank u + lift else rank u, ?_⟩
  intro u w hmentions
  obtain ⟨bound, hbound, hw⟩ := hmentions
  rw [h.lookup_eq] at hbound
  dsimp only
  split at hbound
  · rename_i huv
    have hty : ty = bound := Option.some.inj hbound
    rw [← hty] at hw
    have hnot : ¬ Relation.ReflTransGen ctx.Mentions w v := fun hpath => hfree ⟨w, hw, hpath⟩
    rw [if_neg hnot, if_pos (huv ▸ .refl)]
    have hlt := hlift w hw
    omega
  · have hold : ctx.Mentions u w := ⟨bound, hbound, hw⟩
    have hlt := hrank u w hold
    by_cases hpath : Relation.ReflTransGen ctx.Mentions w v
    · rw [if_pos hpath, if_pos (.head hold hpath)]
      omega
    · rw [if_neg hpath]
      split <;> omega

/-- Binding an unbound variable to a type that fits its kind and does not lead
back to it. -/
theorem Ordered.binds (h : ctx.Ordered) (hbinds : Binds ctx ctx' v ty) (hty : ctx.Allocated ty)
    (hfree : ¬ ctx.Reaches ty v)
    (hfits : ∀ kind, ctx.kindOf v = some kind → ctx'.Fits kind ty) : ctx'.Ordered where
  lengths := by
    rw [hbinds.kinds, hbinds.substitutions, bind, List.length_set]
    exact h.lengths
  allocated u t hu := by
    rw [hbinds.lookup_eq] at hu
    split at hu
    · rw [← Option.some.inj hu]
      exact hty.grows hbinds.grows
    · exact (h.allocated u t hu).grows hbinds.grows
  ranked := hbinds.ranked h.ranked hfree
  kinded u t kind hu hkind := by
    rw [hbinds.lookup_eq] at hu
    split at hu
    · rename_i huv
      rw [hbinds.bound u (.inl huv), huv] at hkind
      exact Option.some.inj hu ▸ hfits kind hkind
    · rw [hbinds.bound u (.inr ⟨t, hu⟩)] at hkind
      exact (h.kinded u t kind hu hkind).keeps hbinds.keeps

theorem Sound.binds (h : ctx.Sound) (hbinds : Binds ctx ctx' v ty) (hty : Plain ctx ty)
    (hfree : ¬ ctx.Reaches ty v)
    (hfits : ∀ kind, ctx.kindOf v = some kind → ctx'.Fits kind ty) : ctx'.Sound := by
  have hordered := h.ordered.binds hbinds hty.allocated hfree hfits
  refine ⟨hordered.lengths, ?_, hordered.ranked, hordered.kinded⟩
  intro u t hu
  rw [hbinds.lookup_eq] at hu
  split at hu
  · rw [← Option.some.inj hu]
    exact plain_grows hty hbinds.grows
  · exact plain_grows (h.plain u t hu) hbinds.grows

theorem Binds.resolve_eq (h : Binds ctx ctx' v ty) (hordered : ctx'.Ordered) :
    ctx'.resolve (.var v) = ctx'.resolve ty := by
  have hlookup : ctx'.lookup v = some ty := by rw [h.lookup_eq, if_pos rfl]
  exact TypeContext.resolve_eq hordered (.hop hlookup (resolve_resolves hordered ty))

end

end TypeContext

open TypeContext EStateM

section
variable {ctx ctx' : TypeContext} {a b : Ty} {v : TyVar}

/-! ### One unification -/

/-- What a unification that succeeds does to the context, and what the types it
was given have become in it, as deep as it descended. -/
structure Unified (ctx ctx' : TypeContext) (n : ℕ) (a b : Ty) : Prop where
  sound : ctx'.Sound
  grows : Grows ctx ctx'
  equal : deepResolveAtDepth ctx' n a = deepResolveAtDepth ctx' n b

theorem plain_arg {ctx : TypeContext} {item : ItemId} {args : List Ty} {arg : Ty}
    (h : Plain ctx (.applied item args)) (harg : arg ∈ args) : Plain ctx arg where
  allocated v hv := h.allocated v (by simpa using ⟨arg, harg, hv⟩)
  noError herror := h.noError (by simpa using ⟨arg, harg, herror⟩)
  noNever hnever := h.noNever (by simpa using ⟨arg, harg, hnever⟩)

theorem kindAllows_fits {kind : VarKind} {ty : Ty} (h : kindAllows ctx v ty = true)
    (hkind : ctx.kindOf v = some kind) : ctx.Fits kind ty := by
  rw [kindAllows, hkind] at h
  cases kind with
  | integer => exact .inr h
  | float => exact .inr (by simpa using h)

theorem kindOf_setKind_self {kind : Option VarKind} (h : v.index < ctx.kinds.length) :
    (ctx.setKind v kind).kindOf v = kind := by
  simp [kindOf, setKind, h]

theorem kindOf_setKind_ne {u : TyVar} {kind : Option VarKind} (hne : u ≠ v) :
    (ctx.setKind v kind).kindOf u = ctx.kindOf u := by
  have hindex : v.index ≠ u.index := by
    intro heq
    cases u
    cases v
    simp_all
  simp [kindOf, setKind, List.getElem?_set_ne hindex]

/-- The kind two merged variables agree on. -/
structure Merges (x y kind : Option VarKind) : Prop where
  left : ∀ k, x = some k → kind = some k
  right : ∀ k, y = some k → kind = some k
  origin : kind = x ∨ kind = y

/-- What unifying two resolved types comes to when it succeeds. -/
inductive Step (ctx : TypeContext) (n : ℕ) : Ty → Ty → TypeContext → Prop
  | same (a : Ty) : Step ctx n a a ctx
  | absorbed {a b : Ty} : a = .error ∨ a = .never ∨ b = .error ∨ b = .never → Step ctx n a b ctx
  | merged {va vb : TyVar} {kind : Option VarKind} : va ≠ vb →
    Merges (ctx.kindOf va) (ctx.kindOf vb) kind →
    Step ctx n (.var va) (.var vb) ((ctx.bind va (.var vb)).setKind vb kind)
  | left {v : TyVar} {ty : Ty} : occurs ctx v (Limits.maxGenericDepth + 1) ty = false →
    kindAllows ctx v ty = true → Step ctx n (.var v) ty (ctx.bind v ty)
  | right {v : TyVar} {ty : Ty} : occurs ctx v (Limits.maxGenericDepth + 1) ty = false →
    kindAllows ctx v ty = true → Step ctx n ty (.var v) (ctx.bind v ty)
  | args {item : ItemId} {aArgs bArgs : List Ty} {m : ℕ} {ctx' : TypeContext} :
    aArgs.length = bArgs.length → n = m + 1 →
    ((aArgs.zip bArgs).forM fun p => unifyAtDepth m p.1 p.2) ctx = .ok ⟨⟩ ctx' →
    Step ctx n (.applied item aArgs) (.applied item bArgs) ctx'

theorem bindVar_eq_ok {ty : Ty} {mismatch : Ty × Ty} (hrun : bindVar v ty mismatch ctx = .ok ⟨⟩ ctx') :
    occurs ctx v (Limits.maxGenericDepth + 1) ty = false ∧ kindAllows ctx v ty = true ∧
      ctx' = ctx.bind v ty := by
  rw [bindVar, get_bind_eq_ok] at hrun
  split at hrun
  · exact absurd hrun throw_ne_ok
  · rename_i hocc
    split at hrun
    · rename_i hallows
      cases hrun
      exact ⟨by simpa using hocc, hallows, rfl⟩
    · exact absurd hrun throw_ne_ok

theorem mergeVars_eq_ok {va vb : TyVar} (hrun : mergeVars va vb a b ctx = .ok ⟨⟩ ctx') :
    ∃ kind, Merges (ctx.kindOf va) (ctx.kindOf vb) kind ∧
      ctx' = (ctx.bind va b).setKind vb kind := by
  rw [mergeVars, get_bind_eq_ok] at hrun
  cases hka : ctx.kindOf va with
  | none =>
    simp only [hka] at hrun
    cases hrun
    exact ⟨_, ⟨by simp, fun _ hk => hk, .inr rfl⟩, rfl⟩
  | some x =>
    cases hkb : ctx.kindOf vb with
    | none =>
      simp only [hka, hkb] at hrun
      cases hrun
      exact ⟨_, ⟨fun _ hk => hk, by simp, .inl rfl⟩, rfl⟩
    | some y =>
      simp only [hka, hkb] at hrun
      split at hrun
      · exact absurd hrun throw_ne_ok
      · rename_i hxy
        have heq : x = y := not_not.mp hxy
        cases hrun
        exact ⟨_, ⟨fun _ hk => hk, fun _ hk => heq ▸ hk, .inl rfl⟩, rfl⟩

theorem unifyAtDepth_step {n : ℕ} (hrun : unifyAtDepth n a b ctx = .ok ⟨⟩ ctx') :
    Step ctx n (ctx.resolve a) (ctx.resolve b) ctx' := by
  rw [unifyAtDepth.eq_def, get_bind_eq_ok] at hrun
  generalize ctx.resolve a = ra at hrun ⊢
  generalize ctx.resolve b = rb at hrun ⊢
  split at hrun
  · rename_i heq
    rw [(pure_eq_ok.mp hrun).2, heq]
    exact .same rb
  · rename_i hne
    split at hrun
    · rw [(pure_eq_ok.mp hrun).2]
      exact .absorbed (.inl rfl)
    · rw [(pure_eq_ok.mp hrun).2]
      exact .absorbed (.inr (.inr (.inl rfl)))
    · rw [(pure_eq_ok.mp hrun).2]
      exact .absorbed (.inr (.inl rfl))
    · rw [(pure_eq_ok.mp hrun).2]
      exact .absorbed (.inr (.inr (.inr rfl)))
    · have ⟨kind, hmerges, hctx⟩ := mergeVars_eq_ok hrun
      rw [hctx]
      exact .merged (fun heq => hne (by rw [heq])) hmerges
    · have ⟨hocc, hallows, hctx⟩ := bindVar_eq_ok hrun
      rw [hctx]
      exact .left hocc hallows
    · have ⟨hocc, hallows, hctx⟩ := bindVar_eq_ok hrun
      rw [hctx]
      exact .right hocc hallows
    · rename_i aItem aArgs bItem bArgs
      split at hrun
      · exact absurd hrun throw_ne_ok
      · rename_i hsame
        have hitem : aItem = bItem := not_not.mp fun hitem => hsame (.inl hitem)
        have hlen : aArgs.length = bArgs.length := not_not.mp fun hlen => hsame (.inr hlen)
        rw [hitem]
        cases n with
        | zero => exact absurd hrun throw_ne_ok
        | succ m => exact .args hlen rfl hrun
    · exact absurd hrun throw_ne_ok

theorem binds_bind (ty : Ty) (hv : ctx.lookup v = none) (hslot : v.index < ctx.substitutions.length) :
    Binds ctx (ctx.bind v ty) v ty :=
  ⟨hv, hslot, rfl, rfl, fun _ _ => rfl, fun _ _ hkind => hkind⟩

/-- One variable bound to another, which takes the kind they agree on. -/
structure Joins (ctx ctx' : TypeContext) (va vb : TyVar) (kind : Option VarKind) : Prop where
  binds : Binds ctx ctx' va (.var vb)
  kindOf_self : ctx'.kindOf vb = kind
  kindOf_ne : ∀ u, u ≠ vb → ctx'.kindOf u = ctx.kindOf u
  free : ¬ ctx.Reaches (.var vb) va

theorem joins_merge {va vb : TyVar} {kind : Option VarKind} (h : ctx.Ordered)
    (ha : ctx.lookup va = none) (hb : ctx.lookup vb = none) (hne : va ≠ vb)
    (hslot : va.index < ctx.substitutions.length) (hslotb : vb.index < ctx.substitutions.length)
    (hmerges : Merges (ctx.kindOf va) (ctx.kindOf vb) kind) :
    Joins ctx ((ctx.bind va (.var vb)).setKind vb kind) va vb kind := by
  have hself : ((ctx.bind va (.var vb)).setKind vb kind).kindOf vb = kind := by
    apply kindOf_setKind_self
    rw [← h.lengths] at hslotb
    exact hslotb
  have hother : ∀ u, u ≠ vb →
      ((ctx.bind va (.var vb)).setKind vb kind).kindOf u = ctx.kindOf u := by
    intro u hu
    rw [kindOf_setKind_ne hu]
    rfl
  refine ⟨⟨ha, hslot, rfl, by simp [setKind, TypeContext.bind], ?_, ?_⟩, hself, hother, ?_⟩
  · intro u hu
    apply hother
    intro heq
    rcases hu with hva | ⟨t, ht⟩
    · exact hne (hva ▸ heq)
    · rw [heq, hb] at ht
      simp at ht
  · intro u k hk
    by_cases hu : u = vb
    · rw [hu, hself]
      exact hmerges.right k (hu ▸ hk)
    · rw [hother u hu, hk]
  · intro hreach
    have ⟨w, hw, hpath⟩ := hreach
    have hwb : w = vb := by simpa [Ty.leaves] using hw
    rw [hwb] at hpath
    rcases Relation.ReflTransGen.cases_head hpath with heq | ⟨x, ⟨bound, hbound, _⟩, _⟩
    · exact hne heq.symm
    · simp [hb] at hbound

theorem Joins.fits {va vb : TyVar} {kind : Option VarKind} (h : Joins ctx ctx' va vb kind)
    (hmerges : Merges (ctx.kindOf va) (ctx.kindOf vb) kind) :
    ∀ k, ctx.kindOf va = some k → ctx'.Fits k (.var vb) :=
  fun k hk => .inl ⟨vb, rfl, by rw [h.kindOf_self, hmerges.left k hk]⟩

theorem sound_bind {ty : Ty} (h : ctx.Sound) (hv : ctx.lookup v = none)
    (hslot : v.index < ctx.substitutions.length) (hty : Plain ctx ty)
    (hocc : occurs ctx v (Limits.maxGenericDepth + 1) ty = false)
    (hallows : kindAllows ctx v ty = true) :
    (ctx.bind v ty).Sound ∧ Grows ctx (ctx.bind v ty) ∧
      (ctx.bind v ty).resolve (.var v) = (ctx.bind v ty).resolve ty := by
  have hbinds := binds_bind ty hv hslot
  have hfree := not_reaches_of_occurs h.ordered hv hocc
  have hsound := h.binds hbinds hty hfree fun kind hkind =>
    (kindAllows_fits hallows hkind).keeps hbinds.keeps
  exact ⟨hsound, hbinds.grows, hbinds.resolve_eq hsound.ordered⟩

theorem sound_merge {va vb : TyVar} {kind : Option VarKind} (h : ctx.Sound)
    (ha : ctx.lookup va = none) (hb : ctx.lookup vb = none) (hne : va ≠ vb)
    (hplain : Plain ctx (.var va)) (hplain' : Plain ctx (.var vb))
    (hmerges : Merges (ctx.kindOf va) (ctx.kindOf vb) kind)
    (hset : ctx' = (ctx.bind va (.var vb)).setKind vb kind) :
    ctx'.Sound ∧ Grows ctx ctx' ∧ ctx'.resolve (.var va) = ctx'.resolve (.var vb) := by
  have hjoins := joins_merge h.ordered ha hb hne (hplain.allocated va (by simp [Ty.leaves]))
    (hplain'.allocated vb (by simp [Ty.leaves])) hmerges
  rw [← hset] at hjoins
  have hsound := h.binds hjoins.binds hplain' hjoins.free (hjoins.fits hmerges)
  exact ⟨hsound, hjoins.binds.grows, hjoins.binds.resolve_eq hsound.ordered⟩

theorem unified_forM {n : ℕ} {pairs : List (Ty × Ty)} {f : Ty × Ty → Unify Unit}
    (hf : ∀ p ∈ pairs, ∀ {ctx ctx'}, ctx.Sound → Plain ctx p.1 → Plain ctx p.2 →
      f p ctx = .ok ⟨⟩ ctx' → Unified ctx ctx' n p.1 p.2)
    (h : ctx.Sound) (hplain : ∀ p ∈ pairs, Plain ctx p.1 ∧ Plain ctx p.2)
    (hrun : pairs.forM f ctx = .ok ⟨⟩ ctx') :
    ctx'.Sound ∧ Grows ctx ctx' ∧ ∀ p ∈ pairs,
      deepResolveAtDepth ctx' n p.1 = deepResolveAtDepth ctx' n p.2 := by
  induction pairs generalizing ctx with
  | nil =>
    have heq := (pure_eq_ok.mp hrun).2
    rw [heq]
    exact ⟨h, .refl _, by simp⟩
  | cons p pairs ih =>
    have ⟨_, mid, hone, hrest⟩ := bind_eq_ok.mp hrun
    have ⟨hp, hp'⟩ := hplain p (by simp)
    have hunified := hf p (by simp) h hp hp' hone
    have hplain' : ∀ q ∈ pairs, Plain mid q.1 ∧ Plain mid q.2 := by
      intro q hq
      have ⟨hq1, hq2⟩ := hplain q (by simp [hq])
      exact ⟨plain_grows hq1 hunified.grows, plain_grows hq2 hunified.grows⟩
    have ⟨hsound, hgrows, hall⟩ := ih (fun q hq => hf q (by simp [hq])) hunified.sound hplain' hrest
    refine ⟨hsound, hunified.grows.trans hgrows, ?_⟩
    intro q hq
    cases hq with
    | head => exact deepResolveAtDepth_eq_grows hunified.sound.ordered hsound.ordered hgrows hunified.equal
    | tail _ hq => exact hall q hq

theorem unified_of_resolve {n : ℕ} (h : ctx.Sound)
    (hspec : ctx'.Sound ∧ Grows ctx ctx' ∧
      ctx'.resolve (ctx.resolve a) = ctx'.resolve (ctx.resolve b)) : Unified ctx ctx' n a b := by
  have ⟨hsound, hgrows, heq⟩ := hspec
  refine ⟨hsound, hgrows, ?_⟩
  apply deepResolveAtDepth_congr
  rw [resolve_grows h.ordered hsound.ordered hgrows a,
    resolve_grows h.ordered hsound.ordered hgrows b, heq]

/-- What a unification that succeeds came to: types that resolve alike, or two
applications of one declaration whose arguments unify. -/
theorem unifyAtDepth_inv {n : ℕ} (h : ctx.Sound) (ha : Plain ctx a) (hb : Plain ctx b)
    (hrun : unifyAtDepth n a b ctx = .ok ⟨⟩ ctx') :
    (ctx'.Sound ∧ Grows ctx ctx' ∧ ctx'.resolve (ctx.resolve a) = ctx'.resolve (ctx.resolve b)) ∨
      ∃ item aArgs bArgs m, ctx.resolve a = .applied item aArgs ∧
        ctx.resolve b = .applied item bArgs ∧ aArgs.length = bArgs.length ∧ n = m + 1 ∧
        ((aArgs.zip bArgs).forM fun p => unifyAtDepth m p.1 p.2) ctx = .ok ⟨⟩ ctx' := by
  have hstep := unifyAtDepth_step hrun
  have hpa := plain_resolve ha h
  have hpb := plain_resolve hb h
  have hsa : ∀ v, ctx.resolve a = .var v → ctx.lookup v = none :=
    fun v => resolve_settled h.ordered
  have hsb : ∀ v, ctx.resolve b = .var v → ctx.lookup v = none :=
    fun v => resolve_settled h.ordered
  have hslot : ∀ {v}, Plain ctx (.var v) → v.index < ctx.substitutions.length :=
    fun hplain => hplain.allocated _ (by simp [Ty.leaves])
  generalize ctx.resolve a = ra at hstep hpa hsa ⊢
  generalize ctx.resolve b = rb at hstep hpb hsb ⊢
  cases hstep with
  | same => exact .inl ⟨h, .refl _, rfl⟩
  | absorbed habsorbed =>
    rcases habsorbed with heq | heq | heq | heq
    · exact absurd (by simp [heq, Ty.leaves]) hpa.noError
    · exact absurd (by simp [heq, Ty.leaves]) hpa.noNever
    · exact absurd (by simp [heq, Ty.leaves]) hpb.noError
    · exact absurd (by simp [heq, Ty.leaves]) hpb.noNever
  | merged hne hmerges =>
    exact .inl (sound_merge h (hsa _ rfl) (hsb _ rfl) hne hpa hpb hmerges rfl)
  | left hocc hallows => exact .inl (sound_bind h (hsa _ rfl) (hslot hpa) hpb hocc hallows)
  | right hocc hallows =>
    have ⟨hsound, hgrows, heq⟩ := sound_bind h (hsb _ rfl) (hslot hpb) hpa hocc hallows
    exact .inl ⟨hsound, hgrows, heq.symm⟩
  | args hlen hn hargs => exact .inr ⟨_, _, _, _, rfl, rfl, hlen, hn, hargs⟩

/-- Types that unify are equal from then on, at every depth the two agree to be
resolved to. -/
theorem unifyAtDepth_spec {n : ℕ} (h : ctx.Sound) (ha : Plain ctx a) (hb : Plain ctx b)
    (hrun : unifyAtDepth n a b ctx = .ok ⟨⟩ ctx') : Unified ctx ctx' n a b := by
  induction n generalizing ctx ctx' a b with
  | zero =>
    rcases unifyAtDepth_inv h ha hb hrun with hspec | ⟨_, _, _, m, _, _, _, hm, _⟩
    · exact unified_of_resolve h hspec
    · omega
  | succ n ih =>
    rcases unifyAtDepth_inv h ha hb hrun with hspec | ⟨item, aArgs, bArgs, m, hra, hrb, hlen, hm, hargs⟩
    · exact unified_of_resolve h hspec
    · have hnm : m = n := by omega
      rw [hnm] at hargs
      have hplain : ∀ p ∈ aArgs.zip bArgs, Plain ctx p.1 ∧ Plain ctx p.2 := by
        intro p hp
        have hpair := List.of_mem_zip hp
        exact ⟨plain_arg (hra ▸ plain_resolve ha h) hpair.1,
          plain_arg (hrb ▸ plain_resolve hb h) hpair.2⟩
      have ⟨hsound, hgrows, hall⟩ := unified_forM (fun p _ _ _ => ih) h hplain hargs
      refine ⟨hsound, hgrows, ?_⟩
      have happlied : ∀ {ty args}, ctx.resolve ty = .applied item args →
          ctx'.resolve ty = .applied item args := by
        intro ty args hty
        rw [resolve_grows h.ordered hsound.ordered hgrows, hty,
          resolve_of_settled hsound.ordered (by simp)]
      rw [deepResolveAtDepth_applied (happlied hra), deepResolveAtDepth_applied (happlied hrb)]
      congr 1
      apply List.ext_getElem (by simpa using hlen)
      intro i hi hi'
      rw [List.length_map] at hi hi'
      rw [List.getElem_map, List.getElem_map]
      apply hall (aArgs[i], bArgs[i])
      rw [List.mem_iff_getElem]
      exact ⟨i, by simp [hi, hi'], by simp⟩

/-! ### Runs -/

theorem lookup_fresh (kind : Option VarKind) (v : TyVar) :
    (ctx.freshVarWithKind kind).2.lookup v = ctx.lookup v := by
  simp only [freshVarWithKind, lookup, List.getElem?_append, List.getElem?_singleton]
  split
  · rfl
  · rename_i hge
    rw [List.getElem?_eq_none (by omega)]
    split <;> rfl

theorem kindOf_fresh (h : ctx.Sound) (kind : Option VarKind) (hv : v.index < ctx.substitutions.length) :
    (ctx.freshVarWithKind kind).2.kindOf v = ctx.kindOf v := by
  rw [← h.lengths] at hv
  simp only [freshVarWithKind, kindOf, List.getElem?_append, hv, if_true]

theorem grows_fresh (kind : Option VarKind) : Grows ctx (ctx.freshVarWithKind kind).2 where
  keeps v ty hv := by rw [lookup_fresh, hv]
  length_le := by simp [freshVarWithKind]

theorem sound_fresh (h : ctx.Sound) (kind : Option VarKind) :
    (ctx.freshVarWithKind kind).2.Sound where
  lengths := by simp [freshVarWithKind, h.lengths]
  plain v ty hv := by
    rw [lookup_fresh] at hv
    exact plain_grows (h.plain v ty hv) (grows_fresh kind)
  ranked := by
    have ⟨rank, hrank⟩ := h.ranked
    refine ⟨rank, fun v w hmentions => hrank v w ?_⟩
    have ⟨bound, hbound, hw⟩ := hmentions
    rw [lookup_fresh] at hbound
    exact ⟨bound, hbound, hw⟩
  kinded v ty k hv hk := by
    rw [lookup_fresh] at hv
    rw [kindOf_fresh h kind (index_lt_of_lookup hv)] at hk
    rcases h.kinded v ty k hv hk with ⟨w, hw, hkind⟩ | hconcrete
    · have hslot := (h.plain v ty hv).allocated w (by simp [hw, Ty.leaves])
      exact .inl ⟨w, hw, by rw [kindOf_fresh h kind hslot, hkind]⟩
    · exact .inr hconcrete

theorem sound_empty : TypeContext.Sound {} where
  lengths := rfl
  plain v ty hv := by simp [lookup] at hv
  ranked := ⟨fun _ => 0, fun v w hmentions => by
    have ⟨bound, hbound, _⟩ := hmentions
    simp [lookup] at hbound⟩
  kinded v ty kind hv := by simp [lookup] at hv

theorem unify_spec (h : ctx.Sound) (ha : Plain ctx a) (hb : Plain ctx b)
    (hrun : unify a b ctx = .ok ⟨⟩ ctx') : Unified ctx ctx' Limits.maxGenericDepth a b := by
  rw [unify] at hrun
  split at hrun
  · rename_i hok
    cases hrun
    exact unifyAtDepth_spec h ha hb hok
  · simp at hrun

theorem unify_refused {mismatch : Ty × Ty} (hrun : unify a b ctx = .error mismatch ctx') :
    ctx' = ctx := by
  rw [unify] at hrun
  split at hrun
  · simp at hrun
  · cases hrun
    rfl

theorem Operation.sound (hop : Operation ctx ctx') (h : ctx.Sound) :
    ctx'.Sound ∧ Grows ctx ctx' := by
  cases hop with
  | fresh kind => exact ⟨sound_fresh h kind, grows_fresh kind⟩
  | unified ha hb hrun =>
    have hunified := unify_spec h ha hb hrun
    exact ⟨hunified.sound, hunified.grows⟩
  | refused _ _ hrun =>
    rw [unify_refused hrun]
    exact ⟨h, .refl _⟩

theorem Later.sound (hlater : Later ctx ctx') (h : ctx.Sound) : ctx'.Sound ∧ Grows ctx ctx' := by
  induction hlater with
  | refl => exact ⟨h, .refl _⟩
  | tail _ hop ih =>
    have ⟨hmid, hgrows⟩ := ih
    have ⟨hsound, hgrows'⟩ := hop.sound hmid
    exact ⟨hsound, hgrows.trans hgrows'⟩

theorem mentions_wellFounded (h : ctx.Sound) : WellFounded fun w v => ctx.Mentions v w := by
  have ⟨rank, hrank⟩ := h.ranked
  exact Subrelation.wf (fun hmentions => hrank _ _ hmentions) (measure rank).wf

theorem resolve_fits (h : ctx.Sound) {kind : VarKind} (hv : ctx.kindOf v = some kind) :
    ctx.Fits kind (ctx.resolve (.var v)) :=
  (resolve_resolves h.ordered _).fits h.ordered (.inl ⟨v, rfl, hv⟩)

/-- In every context that a sequence of operations makes of the empty one the
table is acyclic and resolution ends, integer-kinded variables resolve to
integer-kinded variables or integer types, two types that unify resolve alike in
whatever the context becomes, and a unification that fails changes nothing that
can be resolved. -/
theorem unification_invariant (hreach : Later {} ctx) :
    (WellFounded fun w v => ctx.Mentions v w) ∧
      (∀ ty v, ctx.resolve ty = .var v → ctx.lookup v = none) ∧
      (∀ v, ctx.kindOf v = some .integer →
        (∃ w, ctx.resolve (.var v) = .var w ∧ ctx.kindOf w = some .integer) ∨
          isInteger (ctx.resolve (.var v)) = true) ∧
      (∀ a b ctx', Plain ctx a → Plain ctx b → unify a b ctx = .ok ⟨⟩ ctx' →
        ∀ later, Later ctx' later → deepResolve later a = deepResolve later b) ∧
      ∀ a b mismatch ctx', unify a b ctx = .error mismatch ctx' →
        ∀ ty, ctx'.resolve ty = ctx.resolve ty ∧ deepResolve ctx' ty = deepResolve ctx ty := by
  have hsound := (Later.sound hreach sound_empty).1
  refine ⟨mentions_wellFounded hsound, fun ty v => resolve_settled hsound.ordered, ?_, ?_, ?_⟩
  · intro v hv
    exact resolve_fits hsound hv
  · intro a b ctx' ha hb hrun later hlater
    have hunified := unify_spec hsound ha hb hrun
    have ⟨hsound', hgrows⟩ := Later.sound hlater hunified.sound
    exact deepResolveAtDepth_eq_grows hunified.sound.ordered hsound'.ordered hgrows hunified.equal
  · intro a b mismatch ctx' hrun ty
    rw [unify_refused hrun]
    exact ⟨rfl, rfl⟩

end

/-- An integer literal's variable, unified with `i64`. -/
def literalContext : TypeContext := ⟨[some .i64], [some .integer]⟩

theorem literalContext_later : Later {} literalContext := by
  have hfresh : Operation {} (TypeContext.freshVarWithKind (some .integer) {}).2 := .fresh _ _
  have hplain : Plain (TypeContext.freshVarWithKind (some .integer) {}).2 (.var ⟨0⟩) := by
    constructor <;> simp [Ty.leaves, freshVarWithKind]
  have hplain' : Plain (TypeContext.freshVarWithKind (some .integer) {}).2 .i64 := by
    constructor <;> simp [Ty.leaves]
  have hrun : unify (.var ⟨0⟩) .i64 (TypeContext.freshVarWithKind (some .integer) {}).2 =
      .ok ⟨⟩ literalContext := by
    rw [unify, unifyAtDepth]
    with_unfolding_all rfl
  exact (Relation.ReflTransGen.single hfresh).tail (.unified hplain hplain' hrun)

theorem unification_invariant_literal :
    (∃ w, literalContext.resolve (.var ⟨0⟩) = .var w ∧ literalContext.kindOf w = some .integer) ∨
      isInteger (literalContext.resolve (.var ⟨0⟩)) = true :=
  (unification_invariant literalContext_later).2.2.1 ⟨0⟩ rfl

end Napitia.Typeck
