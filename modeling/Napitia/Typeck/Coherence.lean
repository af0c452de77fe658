import Napitia.Lib.Walk
import Napitia.Typeck.Capability

/-!
# Coherence of registered extensions

Two heads that match one requirement are made equal by what the two matches
bind, and the unifier that judges a pair never calls such heads disjoint. So
where the overlap check reports nothing at most one extension answers a
requirement, and which one it is does not depend on the order of declaration.
-/
namespace Napitia.Typeck

/-! ### What a match binds -/

/-- Every binding of the first is one of the second. -/
def Retains (subst subst' : Subst) : Prop :=
  ∀ id ty, subst.lookup id = some ty → subst'.lookup id = some ty

theorem Retains.refl (subst : Subst) : Retains subst subst := fun _ _ h => h

theorem Retains.trans {s t u : Subst} (hst : Retains s t) (htu : Retains t u) : Retains s u :=
  fun id ty h => htu id ty (hst id ty h)

theorem retains_insert {subst : Subst} {id : TypeParamId} {ty : Ty} (h : subst.lookup id = none) :
    Retains subst (subst.insert id ty) := by
  intro id' ty' h'
  have hne : id' ≠ id := by
    rintro rfl
    simp [h] at h'
  rw [AList.lookup_insert_ne hne, h']

/-- A pattern that the bindings carry to a type, every parameter of it bound. -/
def Matched (subst : Subst) (pattern ty : Ty) : Prop :=
  (∀ id, .param id ∈ pattern.leaves → (subst.lookup id).isSome) ∧
    pattern.instantiate subst.get = ty

theorem Matched.retains {subst subst' : Subst} {pattern ty : Ty} (h : Matched subst pattern ty)
    (hretains : Retains subst subst') : Matched subst' pattern ty := by
  have hbound : ∀ id, .param id ∈ pattern.leaves →
      ∃ bound, subst.lookup id = some bound ∧ subst'.lookup id = some bound := by
    intro id hid
    have ⟨bound, hlookup⟩ := Option.isSome_iff_exists.mp (h.1 id hid)
    exact ⟨bound, hlookup, hretains id bound hlookup⟩
  constructor
  · intro id hid
    have ⟨bound, _, hlookup⟩ := hbound id hid
    simp [hlookup]
  · rw [← h.2]
    apply Ty.instantiate_congr
    intro id hid
    have ⟨bound, hlookup, hlookup'⟩ := hbound id hid
    simp [Subst.get, hlookup, hlookup']

theorem foldlM_matched {step : Subst → Ty × Ty → Option Subst} {pairs : List (Ty × Ty)}
    {subst subst' : Subst}
    (hstep : ∀ p ∈ pairs, ∀ s s', step s p = some s' → Retains s s' ∧ Matched s' p.1 p.2)
    (h : pairs.foldlM step subst = some subst') :
    Retains subst subst' ∧ ∀ p ∈ pairs, Matched subst' p.1 p.2 := by
  induction pairs generalizing subst with
  | nil =>
    obtain rfl : subst = subst' := by simpa using h
    exact ⟨.refl _, by simp⟩
  | cons p pairs ih =>
    rw [List.foldlM_cons] at h
    have ⟨mid, hone, hrest⟩ := Option.bind_eq_some_iff.mp h
    have ⟨hretains, hmatched⟩ := hstep p (by simp) subst mid hone
    have ⟨hretains', hall⟩ := ih (fun q hq => hstep q (by simp [hq])) hrest
    refine ⟨hretains.trans hretains', ?_⟩
    intro q hq
    cases hq with
    | head => exact hmatched.retains hretains'
    | tail _ hq => exact hall q hq

theorem map_instantiate_of_matched {subst : Subst} {patterns tys : List Ty}
    (hlen : patterns.length = tys.length)
    (h : ∀ p ∈ patterns.zip tys, Matched subst p.1 p.2) :
    patterns.map (Ty.instantiate subst.get) = tys := by
  induction patterns generalizing tys with
  | nil => exact (List.length_eq_zero_iff.mp hlen.symm).symm
  | cons pattern patterns ih =>
    cases tys with
    | nil => exact absurd hlen (by simp)
    | cons ty tys =>
      have hlen' : patterns.length = tys.length := by simpa using hlen
      rw [List.map_cons, (h (pattern, ty) List.mem_cons_self).2,
        ih hlen' fun p hp => h p (List.mem_cons_of_mem _ hp)]

theorem exists_mem_zip {α β : Type} {as : List α} {bs : List β} (hlen : as.length = bs.length)
    {a : α} (ha : a ∈ as) : ∃ b, (a, b) ∈ as.zip bs := by
  induction as generalizing bs with
  | nil => exact absurd ha List.not_mem_nil
  | cons first as ih =>
    cases bs with
    | nil => exact absurd hlen (by simp)
    | cons b bs =>
      rcases List.mem_cons.mp ha with heq | hmem
      · exact ⟨b, heq ▸ List.mem_cons_self⟩
      · have hlen' : as.length = bs.length := by simpa using hlen
        have ⟨partner, hpartner⟩ := ih hlen' hmem
        exact ⟨partner, List.mem_cons_of_mem _ hpartner⟩

theorem matchOne_matched {n : ℕ} {pattern ty : Ty} {subst subst' : Subst}
    (h : matchOne n pattern ty subst = some subst') :
    Retains subst subst' ∧ Matched subst' pattern ty := by
  induction n generalizing pattern ty subst subst' with
  | zero => simp [matchOne] at h
  | succ n ih =>
    have hrigid : pattern.leaves = [pattern] → (∀ id, pattern ≠ .param id) →
        (∀ f, pattern.instantiate f = pattern) →
        (if pattern = ty then some subst else none) = some subst' →
        Retains subst subst' ∧ Matched subst' pattern ty := by
      intro hleaves hparam hfix h
      split at h
      · rename_i heq
        obtain rfl : subst = subst' := by simpa using h
        refine ⟨.refl _, ?_, by rw [hfix, heq]⟩
        intro id hid
        rw [hleaves, List.mem_singleton] at hid
        exact absurd hid.symm (hparam id)
      · simp at h
    cases pattern with
    | param id =>
      simp only [matchOne] at h
      cases hlookup : subst.lookup id with
      | none =>
        simp only [hlookup, Option.some.injEq] at h
        subst h
        exact ⟨retains_insert hlookup, by simp [Matched, Subst.get]⟩
      | some existing =>
        simp only [hlookup] at h
        split at h
        · rename_i heq
          obtain rfl : subst = subst' := by simpa using h
          exact ⟨.refl _, by simp [Matched, Subst.get, hlookup, heq]⟩
        · simp at h
    | applied item args =>
      cases ty with
      | applied item' args' =>
        simp only [matchOne] at h
        split at h
        · rename_i hsame
          obtain ⟨hretains, hall⟩ := foldlM_matched (fun p _ s s' hs => ih hs) h
          refine ⟨hretains, ?_, ?_⟩
          · intro id hid
            rw [Ty.leaves_applied, List.mem_flatMap] at hid
            obtain ⟨a, ha, hid⟩ := hid
            obtain ⟨_, hmem⟩ := exists_mem_zip hsame.2 ha
            exact (hall _ hmem).1 id hid
          · rw [Ty.instantiate_applied, hsame.1, map_instantiate_of_matched hsame.2 hall]
        · simp at h
      | _ => simp [matchOne] at h
    | _ => exact hrigid rfl (by simp) (fun _ => rfl) (by simpa only [matchOne] using h)

theorem matchExtendHead_instantiate {pattern concrete : List Ty} {subst : Subst}
    (h : matchExtendHead pattern concrete = some subst) :
    pattern.map (Ty.instantiate subst.get) = concrete := by
  unfold matchExtendHead at h
  split at h
  · rename_i hlen
    have ⟨_, hall⟩ := foldlM_matched (fun p _ s s' hs => matchOne_matched hs) h
    exact map_instantiate_of_matched hlen hall
  · simp at h

/-! ### The unifier finds every unifier -/

section
variable {free : List TypeParamId} {θ : TypeParamId → Ty} {subst subst' : Subst}

/-- An instantiation that makes every binding an equation, where only free
parameters are bound and only they are moved. -/
structure Solves (free : List TypeParamId) (θ : TypeParamId → Ty) (subst : Subst) : Prop where
  solves : ∀ id ty, subst.lookup id = some ty → θ id = ty.instantiate θ
  binds : ∀ id ty, subst.lookup id = some ty → id ∈ free

theorem Solves.insert {id : TypeParamId} {ty : Ty} (h : Solves free θ subst) (hid : id ∈ free)
    (heq : θ id = ty.instantiate θ) : Solves free θ (subst.insert id ty) := by
  have hcases : ∀ id' ty', (subst.insert id ty).lookup id' = some ty' →
      (id' = id ∧ ty' = ty) ∨ subst.lookup id' = some ty' := by
    intro id' ty' h'
    by_cases hne : id' = id
    · subst hne
      exact .inl ⟨rfl, by simpa using h'.symm⟩
    · exact .inr (by rwa [AList.lookup_insert_ne hne] at h')
  constructor
  · intro id' ty' h'
    rcases hcases id' ty' h' with ⟨rfl, rfl⟩ | hold
    · exact heq
    · exact h.solves id' ty' hold
  · intro id' ty' h'
    rcases hcases id' ty' h' with ⟨rfl, rfl⟩ | hold
    · exact hid
    · exact h.binds id' ty' hold

theorem resolveHeadFrom_instantiate (h : Solves free θ subst) (n : ℕ) (ty : Ty) :
    (resolveHeadFrom subst n ty).instantiate θ = ty.instantiate θ := by
  induction n generalizing ty with
  | zero => rfl
  | succ n ih =>
    cases ty with
    | param id =>
      rw [resolveHeadFrom]
      cases hlookup : subst.lookup id with
      | none => rfl
      | some next =>
        dsimp only
        rw [ih, Ty.instantiate_param, h.solves id next hlookup]
    | _ => rfl

theorem resolveHead_instantiate (h : Solves free θ subst) (ty : Ty) :
    (resolveHead subst ty).instantiate θ = ty.instantiate θ :=
  resolveHeadFrom_instantiate h _ ty

theorem resolveHead_of_not_bound {ty : Ty} (h : ∀ id, ty = .param id → subst.lookup id = none) :
    resolveHead subst ty = ty := by
  unfold resolveHead
  cases ty with
  | param id => simp [resolveHeadFrom, h id rfl]
  | _ => rfl

theorem sizeOf_lt_applied (θ : TypeParamId → Ty) (item : ItemId) {args : List Ty} {a : Ty}
    (ha : a ∈ args) :
    sizeOf (a.instantiate θ) < sizeOf ((Ty.applied item args).instantiate θ) := by
  rw [Ty.instantiate_applied, Ty.applied.sizeOf_spec]
  have hmem : a.instantiate θ ∈ args.map (Ty.instantiate θ) := List.mem_map_of_mem ha
  have hlt := List.sizeOf_lt_of_mem hmem
  omega

theorem anyM_eq_ok {σ α : Type} {p : α → StateT σ (Except Unit) Bool} {l : List α} {k k' : σ}
    (h : (l.anyM p).run k = .ok (true, k')) : ∃ a ∈ l, ∃ u u', (p a).run u = .ok (true, u') := by
  induction l generalizing k with
  | nil =>
    have hpure := StateT.run_pure_eq_ok.mp h
    exact absurd hpure.1 (by simp)
  | cons a l ih =>
    rw [List.anyM] at h
    have ⟨found, u, hone, hrest⟩ := StateT.run_bind_eq_ok.mp h
    cases found with
    | true => exact ⟨a, by simp, k, u, hone⟩
    | false =>
      have ⟨b, hb, hp⟩ := ih hrest
      exact ⟨b, by simp [hb], hp⟩

/-- A parameter found in a type is what the type resolves to, or strictly
smaller than it in every solution. -/
theorem occursInHead_lt (h : Solves free θ subst) {var : TypeParamId} {n k k' : ℕ} {ty : Ty}
    (hocc : (occursInHead subst var free n ty).run k = .ok (true, k')) :
    resolveHead subst ty = .param var ∨ sizeOf (θ var) < sizeOf (ty.instantiate θ) := by
  induction n generalizing ty k k' with
  | zero => exact absurd hocc StateT.run_throw_ne_ok
  | succ n ih =>
    rw [occursInHead] at hocc
    have ⟨_, u, _, hocc⟩ := StateT.run_bind_eq_ok.mp hocc
    cases hres : resolveHead subst ty with
    | param id =>
      simp only [hres] at hocc
      have hpure := StateT.run_pure_eq_ok.mp hocc
      have hid : id = var := by
        have htrue := hpure.1
        simp only [Bool.and_eq_true, decide_eq_true_eq] at htrue
        exact htrue.2
      exact .inl (by rw [hid])
    | applied item args =>
      simp only [hres] at hocc
      have ⟨a, ha, v, v', hfound⟩ := anyM_eq_ok hocc
      have hlt := sizeOf_lt_applied θ item ha
      rw [← hres, resolveHead_instantiate h] at hlt
      rcases ih hfound with hvar | hless
      · have heq := resolveHead_instantiate h a
        rw [hvar, Ty.instantiate_param] at heq
        exact .inr (by rw [heq]; exact hlt)
      · exact .inr (hless.trans hlt)
    | _ =>
      rw [hres] at hocc
      exact absurd (StateT.run_pure_eq_ok.mp hocc).1 (by simp)

theorem bindHead_complete (h : Solves free θ subst) {n k k' : ℕ} {id : TypeParamId} {ty : Ty}
    {r : Option Subst} (hid : id ∈ free) (heq : θ id = ty.instantiate θ)
    (hty : ∀ id', ty = .param id' → id' ∉ free)
    (hrun : (bindHead subst free n id ty).run k = .ok (r, k')) :
    ∃ subst', r = some subst' ∧ Solves free θ subst' := by
  unfold bindHead at hrun
  have ⟨found, u, hocc, hrun⟩ := StateT.run_bind_eq_ok.mp hrun
  cases found with
  | true =>
    have hself : resolveHead subst ty = ty := by
      apply resolveHead_of_not_bound
      intro id' hid'
      apply Option.eq_none_iff_forall_ne_some.mpr
      intro bound hbound
      exact hty id' hid' (h.binds id' bound hbound)
    rcases occursInHead_lt h hocc with hvar | hless
    · rw [hself] at hvar
      exact absurd hid (hty id hvar)
    · rw [heq] at hless
      exact absurd hless (lt_irrefl _)
  | false =>
    have hpure := StateT.run_pure_eq_ok.mp hrun
    exact ⟨_, hpure.1.symm, h.insert hid heq⟩

theorem unifyEach_complete {unify : Subst → Ty → Ty → Unifying (Option Subst)}
    {pairs : List (Ty × Ty)} {k k' : ℕ} {r : Option Subst}
    (hunify : ∀ p ∈ pairs, ∀ s k k' r, Solves free θ s →
      (unify s p.1 p.2).run k = .ok (r, k') → ∃ s', r = some s' ∧ Solves free θ s')
    (h : Solves free θ subst) (hrun : (unifyEach unify pairs subst).run k = .ok (r, k')) :
    ∃ subst', r = some subst' ∧ Solves free θ subst' := by
  induction pairs generalizing subst k with
  | nil => exact ⟨subst, (StateT.run_pure_eq_ok.mp hrun).1.symm, h⟩
  | cons p pairs ih =>
    rw [unifyEach] at hrun
    have ⟨one, u, hone, hrest⟩ := StateT.run_bind_eq_ok.mp hrun
    have ⟨mid, hmid, hsolves⟩ := hunify p (by simp) subst k u one h hone
    subst hmid
    exact ih (fun q hq => hunify q (by simp [hq])) hsolves hrest

theorem unifyHeadArgs_complete (hrigid : ∀ id, id ∉ free → θ id = .param id) {n k k' : ℕ}
    {a b : Ty} {r : Option Subst} (h : Solves free θ subst)
    (hab : a.instantiate θ = b.instantiate θ)
    (hrun : (unifyHeadArgs free n subst a b).run k = .ok (r, k')) :
    ∃ subst', r = some subst' ∧ Solves free θ subst' := by
  induction n generalizing subst a b k k' r with
  | zero => exact absurd hrun StateT.run_throw_ne_ok
  | succ n ih =>
    rw [unifyHeadArgs] at hrun
    obtain ⟨_, u, _, hrun⟩ := StateT.run_bind_eq_ok.mp hrun
    have heq : (resolveHead subst a).instantiate θ = (resolveHead subst b).instantiate θ := by
      rw [resolveHead_instantiate h, resolveHead_instantiate h, hab]
    generalize resolveHead subst a = ra at heq hrun
    generalize resolveHead subst b = rb at heq hrun
    have hsame : ∀ {c : Ty}, c = rb → (StateT.run (pure (if c = rb then some subst else none) :
        Unifying (Option Subst)) u = .ok (r, k')) → ∃ subst', r = some subst' ∧
        Solves free θ subst' := by
      intro c hc hpure
      rw [if_pos hc] at hpure
      exact ⟨subst, (StateT.run_pure_eq_ok.mp hpure).1.symm, h⟩
    cases ra with
    | param ia =>
      by_cases hia : ia ∈ free
      · cases rb with
        | param ib =>
          by_cases hib : ib ∈ free
          · dsimp only at hrun
            rw [if_pos ⟨hia, hib⟩] at hrun
            split at hrun
            · exact ⟨subst, (StateT.run_pure_eq_ok.mp hrun).1.symm, h⟩
            · exact ⟨_, (StateT.run_pure_eq_ok.mp hrun).1.symm, h.insert hia heq⟩
          · dsimp only at hrun
            rw [if_neg (fun hboth => hib hboth.2), if_pos hia] at hrun
            exact bindHead_complete h hia heq (fun id' hid' => Ty.param.inj hid' ▸ hib) hrun
        | _ =>
          dsimp only at hrun
          rw [if_pos hia] at hrun
          exact bindHead_complete h hia heq (by simp) hrun
      · rw [Ty.instantiate_param, hrigid ia hia] at heq
        cases rb with
        | param ib =>
          by_cases hib : ib ∈ free
          · dsimp only at hrun
            rw [if_neg (fun hboth => hia hboth.1), if_neg hia, if_pos hib] at hrun
            have hib' : θ ib = (Ty.param ia).instantiate θ := by
              rw [Ty.instantiate_param, hrigid ia hia]
              exact heq.symm
            exact bindHead_complete h hib hib' (fun id' hid' => Ty.param.inj hid' ▸ hia) hrun
          · dsimp only at hrun
            rw [if_neg (fun hboth => hia hboth.1), if_neg hia, if_neg hib] at hrun
            rw [Ty.instantiate_param, hrigid ib hib] at heq
            exact hsame heq hrun
        | applied pb bargs =>
          rw [Ty.instantiate_applied] at heq
          exact absurd heq (by simp)
        | _ => exact absurd heq (by simp [Ty.instantiate])
    | applied pa aargs =>
      cases rb with
      | param ib =>
        by_cases hib : ib ∈ free
        · dsimp only at hrun
          rw [if_pos hib] at hrun
          exact bindHead_complete h hib heq.symm (by simp) hrun
        · rw [Ty.instantiate_param, hrigid ib hib, Ty.instantiate_applied] at heq
          exact absurd heq (by simp)
      | applied pb bargs =>
        rw [Ty.instantiate_applied, Ty.instantiate_applied] at heq
        obtain ⟨hitem, hargs⟩ := Ty.applied.inj heq
        have hlen : aargs.length = bargs.length := by simpa using congrArg List.length hargs
        dsimp only at hrun
        rw [if_neg (by simp [hitem, hlen])] at hrun
        apply unifyEach_complete ?_ h hrun
        intro p hp s j j' r' hs hone
        obtain ⟨i, hi, hget⟩ := List.mem_iff_getElem.mp hp
        have hpair : p.1.instantiate θ = p.2.instantiate θ := by
          have hcong := congrArg (·[i]?) hargs
          rw [List.length_zip] at hi
          simp only [List.getElem_zip] at hget
          simpa [← hget, List.getElem?_eq_getElem (show i < aargs.length by omega),
            List.getElem?_eq_getElem (show i < bargs.length by omega)] using hcong
        exact ih hs hpair hone
      | _ =>
        rw [Ty.instantiate_applied] at heq
        exact absurd heq (by simp [Ty.instantiate])
    | _ =>
      cases rb with
      | param ib =>
        by_cases hib : ib ∈ free
        · dsimp only at hrun
          rw [if_pos hib] at hrun
          exact bindHead_complete h hib heq.symm (by simp) hrun
        · rw [Ty.instantiate_param, hrigid ib hib] at heq
          exact absurd heq (by simp [Ty.instantiate])
      | applied pb bargs =>
        rw [Ty.instantiate_applied] at heq
        exact absurd heq (by simp [Ty.instantiate])
      | _ => exact hsame heq hrun

end

/-! ### At most one extension answers -/

/-- What registration is handed: a type parameter belongs to one declaration,
and a head mentions only those of its own. -/
structure Declared (accepted : List ExtendInfo) : Prop where
  mentions : ∀ e ∈ accepted, ∀ ty ∈ e.protocolArguments, ∀ id, .param id ∈ ty.leaves →
    id ∈ e.typeParams
  apart : accepted.Pairwise fun x y => ∀ id ∈ x.typeParams, id ∉ y.typeParams

theorem headsCanOverlap_ne_disjoint {aArgs bArgs arguments : List Ty}
    {aParams bParams : List TypeParamId} {σ τ : Subst}
    (ha : ∀ ty ∈ aArgs, ∀ id, .param id ∈ ty.leaves → id ∈ aParams)
    (hb : ∀ ty ∈ bArgs, ∀ id, .param id ∈ ty.leaves → id ∈ bParams)
    (hapart : ∀ id ∈ aParams, id ∉ bParams)
    (hσ : matchExtendHead aArgs arguments = some σ)
    (hτ : matchExtendHead bArgs arguments = some τ) :
    headsCanOverlap aArgs aParams bArgs bParams ≠ .disjoint := by
  let θ : TypeParamId → Ty := fun id =>
    if id ∈ aParams then σ.get id else if id ∈ bParams then τ.get id else .param id
  have hθa : aArgs.map (Ty.instantiate θ) = arguments := by
    rw [← matchExtendHead_instantiate hσ]
    apply List.map_congr_left
    intro ty hty
    apply Ty.instantiate_congr
    intro id hid
    simp [θ, ha ty hty id hid]
  have hθb : bArgs.map (Ty.instantiate θ) = arguments := by
    rw [← matchExtendHead_instantiate hτ]
    apply List.map_congr_left
    intro ty hty
    apply Ty.instantiate_congr
    intro id hid
    have hinb := hb ty hty id hid
    have hnota : id ∉ aParams := fun hina => hapart id hina hinb
    simp [θ, hinb, hnota]
  have hlen : aArgs.length = bArgs.length := by
    have hboth := congrArg List.length (hθa.trans hθb.symm)
    simpa using hboth
  have hrigid : ∀ id, id ∉ aParams ++ bParams → θ id = .param id := by
    intro id hid
    rw [List.mem_append, not_or] at hid
    simp [θ, hid.1, hid.2]
  have hnone : Solves (aParams ++ bParams) θ ∅ := by
    constructor <;> simp
  unfold headsCanOverlap
  rw [if_neg (by simp [hlen])]
  cases hrun : (unifyEach (unifyHeadArgs (aParams ++ bParams)
      (Limits.maxGenericDepth + 1)) (aArgs.zip bArgs) ∅).run 0 with
  | error _ => simp
  | ok r =>
    have ⟨result, steps⟩ := r
    have hunify := unifyEach_complete (fun p hp s k k' r (hs : Solves _ θ s) hone => by
      have ⟨i, hi, hget⟩ := List.mem_iff_getElem.mp hp
      have hpair : p.1.instantiate θ = p.2.instantiate θ := by
        have hcong := congrArg (·[i]?) (hθa.trans hθb.symm)
        rw [List.length_zip] at hi
        simp only [List.getElem_zip] at hget
        simpa [← hget, List.getElem?_eq_getElem (show i < aArgs.length by omega),
          List.getElem?_eq_getElem (show i < bArgs.length by omega)] using hcong
      exact unifyHeadArgs_complete hrigid hs hpair hone) hnone hrun
    have ⟨subst', hsome, _⟩ := hunify
    subst hsome
    simp

theorem pairwise_of_pairsOf {α : Type} {R : α → α → Prop} {l : List α}
    (h : ∀ p ∈ pairsOf l, R p.1 p.2) : l.Pairwise R := by
  induction l with
  | nil => exact .nil
  | cons a l ih =>
    apply List.Pairwise.cons
    · intro b hb
      exact h (a, b) (by simp [pairsOf, hb])
    · exact ih fun p hp => h p (by simp [pairsOf, hp])

theorem disjoint_of_checked {accepted : List ExtendInfo}
    (h : (checkExtendOverlaps accepted).2 = []) (protocol : ItemId) :
    (accepted.filter (·.protocol = protocol)).Pairwise fun x y =>
      headsCanOverlap x.protocolArguments x.typeParams y.protocolArguments y.typeParams =
        .disjoint := by
  have hfst : (accepted.zipIdx.filter (·.1.protocol = protocol)).map (·.1) =
      accepted.filter (·.protocol = protocol) := by
    change (accepted.zipIdx.filter ((fun e : ExtendInfo => decide (e.protocol = protocol)) ∘
      Prod.fst)).map Prod.fst = _
    rw [← List.filter_map, List.zipIdx_map_fst]
  rw [← hfst, List.pairwise_map]
  by_cases hmem : protocol ∈ extendedProtocols accepted
  · apply pairwise_of_pairsOf
    intro p hp
    have hjudged : (judgePair p.1 p.2).2 = [] := by
      rw [checkExtendOverlaps] at h
      dsimp only at h
      rw [List.flatMap_eq_nil_iff] at h
      apply h
      rw [List.mem_flatMap]
      exact ⟨protocol, hmem, List.mem_map_of_mem hp⟩
    rw [judgePair] at hjudged
    split at hjudged
    · assumption
    · simp at hjudged
    · simp at hjudged
  · have hempty : accepted.zipIdx.filter (·.1.protocol = protocol) = [] := by
      rw [List.filter_eq_nil_iff]
      intro x hx hprotocol
      apply hmem
      have hx' : x.1 ∈ accepted := List.fst_mem_of_mem_zipIdx hx
      simp only [extendedProtocols, List.mem_map, List.mem_mergeSort, List.mem_dedup]
      exact ⟨x.1.protocol.index, ⟨x.1, hx', rfl⟩, by simpa using hprotocol⟩
    rw [hempty]
    exact .nil

theorem registeredExtends_of_checked {accepted : List ExtendInfo}
    (h : (checkExtendOverlaps accepted).2 = []) : registeredExtends accepted = accepted := by
  have hnone : (checkExtendOverlaps accepted).1 = [] := by
    rw [checkExtendOverlaps] at h ⊢
    dsimp only at h ⊢
    rw [List.flatMap_eq_nil_iff] at h ⊢
    intro judged hjudged
    have hcodes := h judged hjudged
    rw [List.mem_flatMap] at hjudged
    have ⟨_, _, hpair⟩ := hjudged
    have ⟨p, _, hp⟩ := List.mem_map.mp hpair
    subst hp
    rw [judgePair] at hcodes ⊢
    split at hcodes
    · rfl
    · simp at hcodes
    · simp at hcodes
  unfold registeredExtends
  rw [hnone]
  simp [List.zipIdx_map_fst]

theorem answers_length_le_one {accepted : List ExtendInfo} (hdecl : Declared accepted)
    (hchecked : (checkExtendOverlaps accepted).2 = []) (requirement : CapabilityRequirement) :
    (accepted.filter (answers requirement)).length ≤ 1 := by
  have hsub : (accepted.filter (answers requirement)).Sublist
      (accepted.filter (·.protocol = requirement.protocol)) := by
    apply List.monotone_filter_right
    intro e he
    simp only [answers, Bool.and_eq_true] at he
    exact he.1
  have hdisjoint := (disjoint_of_checked hchecked requirement.protocol).sublist hsub
  have hapart := hdecl.apart.sublist (List.filter_sublist (p := answers requirement))
  have hmem : ∀ e ∈ accepted.filter (answers requirement), e ∈ accepted ∧
      ∃ σ, matchExtendHead e.protocolArguments requirement.arguments = some σ := by
    intro e he
    have ⟨hin, hans⟩ := List.mem_filter.mp he
    simp only [answers, Bool.and_eq_true] at hans
    exact ⟨hin, Option.isSome_iff_exists.mp hans.2⟩
  generalize accepted.filter (answers requirement) = found at hdisjoint hapart hmem
  cases found with
  | nil => simp
  | cons x rest =>
    cases rest with
    | nil => simp
    | cons y rest =>
      exfalso
      have ⟨hx, σ, hσ⟩ := hmem x (by simp)
      have ⟨hy, τ, hτ⟩ := hmem y (by simp)
      have hxy := List.rel_of_pairwise_cons hdisjoint (List.mem_cons_self ..)
      have hapartxy := List.rel_of_pairwise_cons hapart (List.mem_cons_self ..)
      exact headsCanOverlap_ne_disjoint (hdecl.mentions x hx) (hdecl.mentions y hy) hapartxy hσ hτ hxy

/-! ### Order -/

theorem eq_of_perm_of_length_le_one {α : Type} {l l' : List α} (h : l'.Perm l)
    (hlen : l.length ≤ 1) : l' = l := by
  cases l with
  | nil => exact List.perm_nil.mp h
  | cons a l =>
    have hnil : l = [] := by simpa using hlen
    rw [hnil] at h ⊢
    exact List.perm_singleton.mp h

section
variable {accepted reordered : List ExtendInfo} (hdecl : Declared accepted)
  (hchecked : (checkExtendOverlaps accepted).2 = [])

include hdecl hchecked

theorem selectExtension_perm (hperm : reordered.Perm accepted)
    (resolve : CapabilityRequirement → Solver (Option Evidence))
    (requirement : CapabilityRequirement) :
    selectExtension reordered resolve requirement = selectExtension accepted resolve requirement := by
  unfold selectExtension
  rw [eq_of_perm_of_length_le_one (hperm.filter _)
    (answers_length_le_one hdecl hchecked requirement)]

theorem resolveConcrete_perm (hperm : reordered.Perm accepted) (n : ℕ) :
    resolveConcrete reordered n = resolveConcrete accepted n := by
  induction n with
  | zero =>
    funext path requirement
    rw [resolveConcrete, resolveConcrete]
  | succ n ih =>
    funext path requirement
    rw [resolveConcrete, resolveConcrete, ih]
    simp only [selectExtension_perm hdecl hchecked hperm]

/-- What a step of the solver keeps out of its diagnostics. -/
def Unambiguous {α : Type} (x : Solver α) : Prop :=
  ∀ s, .ambiguousCapability ∉ s.diagnostics → .ambiguousCapability ∉ (x.run s).2.diagnostics

omit hdecl hchecked in
theorem Unambiguous.bind {α β : Type} {x : Solver α} {f : α → Solver β} (hx : Unambiguous x)
    (hf : ∀ a, Unambiguous (f a)) : Unambiguous (x >>= f) :=
  fun s hs => hf _ _ (hx s hs)

omit hdecl hchecked in
theorem unambiguous_pure {α : Type} (a : α) : Unambiguous (pure a : Solver α) := fun _ hs => hs

omit hdecl hchecked in
theorem unambiguous_get : Unambiguous (get : Solver SolverState) := fun _ hs => hs

omit hdecl hchecked in
theorem unambiguous_modify {f : SolverState → SolverState}
    (h : ∀ s, (f s).diagnostics = s.diagnostics) : Unambiguous (modify f : Solver PUnit) := by
  intro s hs
  change _ ∉ (f s).diagnostics
  rw [h s]
  exact hs

omit hdecl hchecked in
theorem unambiguous_report {α : Type} {code : CapabilityCode} (h : code ≠ .ambiguousCapability) :
    Unambiguous (report code : Solver (Option α)) := by
  intro s hs hmem
  rcases List.mem_append.mp hmem with hold | hnew
  · exact hs hold
  · exact h (List.mem_singleton.mp hnew).symm

omit hdecl hchecked in
theorem unambiguous_resolveEach {resolve : CapabilityRequirement → Solver (Option Evidence)}
    (h : ∀ r, Unambiguous (resolve r)) (rs : List CapabilityRequirement) :
    Unambiguous (resolveEach resolve rs) := by
  induction rs with
  | nil => exact unambiguous_pure _
  | cons r rs ih =>
    apply (h r).bind
    intro first
    cases first with
    | none => exact unambiguous_pure _
    | some evidence =>
      apply ih.bind
      intro rest
      cases rest with
      | none => exact unambiguous_pure _
      | some rest => exact unambiguous_pure _

theorem unambiguous_selectExtension
    {resolve : CapabilityRequirement → Solver (Option Evidence)}
    (h : ∀ r, Unambiguous (resolve r)) (requirement : CapabilityRequirement) :
    Unambiguous (selectExtension accepted resolve requirement) := by
  have hlen := answers_length_le_one hdecl hchecked requirement
  unfold selectExtension
  cases hfound : accepted.filter (answers requirement) with
  | nil => exact unambiguous_report (by simp)
  | cons e rest =>
    cases rest with
    | nil =>
      dsimp only
      split
      · exact unambiguous_pure _
      · apply (unambiguous_resolveEach h _).bind
        intro nested
        cases nested with
        | none => exact unambiguous_pure _
        | some nested => exact unambiguous_pure _
    | cons e' rest =>
      rw [hfound] at hlen
      simp at hlen

theorem unambiguous_resolveConcrete (n : ℕ) (path : List CapabilityRequirement)
    (requirement : CapabilityRequirement) :
    Unambiguous (resolveConcrete accepted n path requirement) := by
  induction n generalizing path requirement with
  | zero =>
    rw [resolveConcrete]
    apply unambiguous_get.bind
    intro s
    split
    · exact unambiguous_pure _
    · split
      · exact unambiguous_report (by simp)
      · exact unambiguous_report (by simp)
  | succ n ih =>
    rw [resolveConcrete]
    apply unambiguous_get.bind
    intro s
    split
    · exact unambiguous_pure _
    · split
      · exact unambiguous_report (by simp)
      · refine Unambiguous.bind (unambiguous_modify fun _ => ?_) fun _ => ?_
        · rfl
        apply unambiguous_get.bind
        intro s
        split
        · exact unambiguous_report (by simp)
        · apply (unambiguous_selectExtension hdecl hchecked (ih _) requirement).bind
          intro outcome
          cases outcome with
          | none => exact unambiguous_pure _
          | some evidence =>
            refine Unambiguous.bind (unambiguous_modify fun _ => ?_) fun _ => unambiguous_pure _
            rfl

/-- Registered extensions are coherent: where the overlap check reports nothing,
none is excluded, at most one answers a requirement, resolution never finds two,
and it does the same whichever order they were declared in. -/
theorem extensions_coherent :
    registeredExtends accepted = accepted ∧
      (∀ requirement, (accepted.filter (answers requirement)).length ≤ 1) ∧
      (∀ requirement ownRequirements s, .ambiguousCapability ∉ s.diagnostics →
        .ambiguousCapability ∉
          ((resolveRequirement accepted requirement ownRequirements).run s).2.diagnostics) ∧
      ∀ reordered, reordered.Perm accepted → ∀ requirement ownRequirements,
        resolveRequirement reordered requirement ownRequirements =
          resolveRequirement accepted requirement ownRequirements := by
  refine ⟨registeredExtends_of_checked hchecked, answers_length_le_one hdecl hchecked, ?_, ?_⟩
  · intro requirement ownRequirements
    change Unambiguous (resolveRequirement accepted requirement ownRequirements)
    unfold resolveRequirement
    split
    · exact unambiguous_pure _
    · split
      · exact unambiguous_report (by simp)
      · refine Unambiguous.bind (unambiguous_modify fun _ => ?_) fun _ =>
          unambiguous_resolveConcrete hdecl hchecked _ _ _
        rfl
  · intro reordered hperm requirement ownRequirements
    unfold resolveRequirement
    rw [resolveConcrete_perm hdecl hchecked hperm]

end

/-- `extend P[i64]`, and `extend[T] P[Box[T]]` for `T` that has `P`. -/
def boxExtensions : List ExtendInfo :=
  [⟨⟨1⟩, [], ⟨0⟩, [.i64], []⟩,
    ⟨⟨2⟩, [⟨0⟩], ⟨0⟩, [.applied ⟨3⟩ [.param ⟨0⟩]], [⟨⟨0⟩, [.param ⟨0⟩]⟩]⟩]

theorem boxExtensions_coherent :
    (∀ requirement, (boxExtensions.filter (answers requirement)).length ≤ 1) ∧
      ∀ requirement ownRequirements,
        resolveRequirement boxExtensions.reverse requirement ownRequirements =
          resolveRequirement boxExtensions requirement ownRequirements := by
  have hdecl : Declared boxExtensions := by
    constructor
    · simp [boxExtensions, Ty.leaves]
    · simp [boxExtensions]
  have hchecked : (checkExtendOverlaps boxExtensions).2 = [] := by decide +kernel
  have hcoherent := extensions_coherent hdecl hchecked
  exact ⟨hcoherent.2.1, hcoherent.2.2.2 _ (List.reverse_perm _)⟩

end Napitia.Typeck
