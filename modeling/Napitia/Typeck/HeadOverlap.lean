import Napitia.Lib.Ranks
import Napitia.Typeck.Evidence

/-!
# Heads that overlap

The substitution two heads are unified by leads nowhere back, so it has a solution in
which no parameter is left, and heads that are found to overlap are both matched by one
list of arguments without parameters. Unifying the heads the other way round goes
through the same steps under a renaming of the parameters.
-/
namespace Napitia.Typeck

open Ranks

/-- A bound parameter, and a parameter of what it is bound to. -/
def HeadMentions (subst : Subst) (v w : TypeParamId) : Prop :=
  ∃ ty, subst.lookup v = some ty ∧ .param w ∈ ty.leaves

def HeadReaches (subst : Subst) (ty : Ty) (v : TypeParamId) : Prop :=
  ∃ w, .param w ∈ ty.leaves ∧ Relation.ReflTransGen (HeadMentions subst) w v

/-- Only free parameters are bound, and none leads back to itself. -/
structure HeadOrdered (free : List TypeParamId) (subst : Subst) : Prop where
  binds : ∀ id ty, subst.lookup id = some ty → id ∈ free
  ranked : ∃ rank : TypeParamId → ℕ, ∀ v w, HeadMentions subst v w → rank w < rank v

/-- Where following a type through the substitution ends. -/
inductive HeadResolves (subst : Subst) : Ty → Ty → Prop
  | settled {ty : Ty} : (∀ id, ty = .param id → subst.lookup id = none) → HeadResolves subst ty ty
  | hop {id : TypeParamId} {next ty : Ty} : subst.lookup id = some next →
    HeadResolves subst next ty → HeadResolves subst (.param id) ty

section
variable {free : List TypeParamId} {subst subst' : Subst} {ty ty' : Ty} {id : TypeParamId}

/-! ### Resolution -/

/-- The next type a loop of `resolveHead` goes on with. -/
def nextHead (subst : Subst) : Ty → Option Ty
  | .param id => subst.lookup id
  | _ => none

theorem resolveHeadFrom_eq_follow (n : ℕ) (ty : Ty) :
    resolveHeadFrom subst n ty = follow (nextHead subst) n ty := by
  induction n generalizing ty with
  | zero => rfl
  | succ n ih =>
    cases ty with
    | param id =>
      rw [resolveHeadFrom, follow, nextHead]
      cases subst.lookup id with
      | none => rfl
      | some next => exact ih next
    | _ => rfl

theorem nextHead_eq_none (h : nextHead subst ty = none) :
    ∀ id, ty = .param id → subst.lookup id = none := by
  intro id hid
  rwa [hid] at h

theorem follow_resolves (n : ℕ) (ty : Ty)
    (hsettled : nextHead subst (follow (nextHead subst) n ty) = none) :
    HeadResolves subst ty (follow (nextHead subst) n ty) := by
  induction n generalizing ty with
  | zero => exact .settled (nextHead_eq_none hsettled)
  | succ n ih =>
    rw [follow] at hsettled ⊢
    cases hnext : nextHead subst ty with
    | none => exact .settled (nextHead_eq_none hnext)
    | some next =>
      rw [hnext] at hsettled
      cases ty with
      | param id => exact .hop hnext (ih next hsettled)
      | _ => cases hnext

theorem resolveHead_resolves (h : HeadOrdered free subst) (ty : Ty) :
    HeadResolves subst ty (resolveHead subst ty) := by
  obtain ⟨rank, hrank⟩ := h.ranked
  rw [resolveHead, resolveHeadFrom_eq_follow]
  apply follow_resolves
  let height : Ty → ℕ := fun
    | .param id => rank id + 1
    | _ => 0
  have hdown : ∀ t t', nextHead subst t = some t' → height t' < height t := by
    intro t t' hnext
    cases t with
    | param id =>
      cases t' with
      | param id' => exact Nat.succ_lt_succ (hrank id id' ⟨_, hnext, by simp⟩)
      | _ => exact Nat.succ_pos _
    | _ => cases hnext
  have hstops : ∀ t t', nextHead subst t = some t' → t ∈ subst.keys.map Ty.param := by
    intro t t' hnext
    cases t with
    | param id =>
      have hkey : id ∈ subst := AList.lookup_isSome.mp (by simp only [nextHead] at hnext; simp [hnext])
      exact List.mem_map_of_mem (AList.mem_keys.mp hkey)
    | _ => cases hnext
  exact follow_settled hdown hstops (by simp) ty

theorem HeadResolves.isSettled (h : HeadResolves subst ty ty') :
    ∀ id, ty' = .param id → subst.lookup id = none := by
  induction h with
  | settled hsettled => exact hsettled
  | hop _ _ ih => exact ih

theorem HeadResolves.unique {t u : Ty} (ht : HeadResolves subst ty t)
    (hu : HeadResolves subst ty u) : t = u := by
  induction ht with
  | settled hsettled =>
    cases hu with
    | settled _ => rfl
    | hop hlookup _ => simp [hsettled _ rfl] at hlookup
  | hop hlookup _ ih =>
    cases hu with
    | settled hsettled => simp [hsettled _ rfl] at hlookup
    | hop hlookup' hrest =>
      rw [hlookup, Option.some.injEq] at hlookup'
      exact ih (hlookup' ▸ hrest)

theorem resolveHead_eq (h : HeadOrdered free subst) (hty : HeadResolves subst ty ty') :
    resolveHead subst ty = ty' :=
  (resolveHead_resolves h ty).unique hty

theorem HeadResolves.reaches (hty : HeadResolves subst ty ty') (hid : subst.lookup id = none)
    (h : HeadReaches subst ty id) : HeadReaches subst ty' id := by
  induction hty with
  | settled _ => exact h
  | @hop u next t hlookup _ ih =>
    apply ih
    have ⟨w, hw, hreach⟩ := h
    have hwu : w = u := by simpa using hw
    rw [hwu] at hreach
    rcases Relation.ReflTransGen.cases_head hreach with heq | ⟨x, ⟨bound, hbound, hx⟩, hrest⟩
    · rw [heq, hid] at hlookup
      simp at hlookup
    · rw [hlookup, Option.some.injEq] at hbound
      exact ⟨x, hbound ▸ hx, hrest⟩

/-! ### Binding -/

theorem anyM_eq_false {σ α : Type} {p : α → StateT σ (Except Unit) Bool} {l : List α} {k k' : σ}
    (h : (l.anyM p).run k = .ok (false, k')) : ∀ a ∈ l, ∃ u u', (p a).run u = .ok (false, u') := by
  induction l generalizing k with
  | nil => simp
  | cons a l ih =>
    rw [List.anyM] at h
    obtain ⟨found, u, hone, hrest⟩ := StateT.run_bind_eq_ok.mp h
    cases found with
    | true => exact absurd (StateT.run_pure_eq_ok.mp hrest).1 (by simp)
    | false =>
      intro b hb
      cases hb with
      | head => exact ⟨k, u, hone⟩
      | tail _ hb => exact ih hrest b hb

/-- What the occurs check lets through does not lead back to the parameter, and the check
has walked all of it. -/
theorem occursInHead_eq_false (h : HeadOrdered free subst) (hid : subst.lookup id = none)
    (hfree : id ∈ free) {n k k' : ℕ}
    (hocc : (occursInHead subst id free n ty).run k = .ok (false, k')) :
    ¬ HeadReaches subst ty id ∧ exceedsGenericDepth n ty = false := by
  induction n generalizing ty k k' with
  | zero => exact absurd hocc StateT.run_throw_ne_ok
  | succ n ih =>
    rw [occursInHead] at hocc
    obtain ⟨_, u, _, hocc⟩ := StateT.run_bind_eq_ok.mp hocc
    have hresolves := resolveHead_resolves h ty
    have hargs : ∀ item args, resolveHead subst ty = .applied item args →
        ∀ a ∈ args, ¬ HeadReaches subst a id ∧ exceedsGenericDepth n a = false := by
      intro item args hres a ha
      simp only [hres] at hocc
      obtain ⟨v, v', hone⟩ := anyM_eq_false hocc a ha
      exact ih hone
    constructor
    · intro hreach
      obtain ⟨w, hw, hpath⟩ := hresolves.reaches hid hreach
      cases hres : resolveHead subst ty with
      | param u =>
        rw [hres] at hw hresolves
        have hwu : w = u := by simpa using hw
        rw [hwu] at hpath
        have hu := hresolves.isSettled u rfl
        rcases Relation.ReflTransGen.cases_head hpath with heq | ⟨x, ⟨bound, hbound, _⟩, _⟩
        · simp only [hres] at hocc
          have hfound := (StateT.run_pure_eq_ok.mp hocc).1
          simp [heq, hfree] at hfound
        · simp [hu] at hbound
      | applied item args =>
        rw [hres, Ty.leaves_applied, List.mem_flatMap] at hw
        obtain ⟨a, ha, hwa⟩ := hw
        exact (hargs item args hres a ha).1 ⟨w, hwa, hpath⟩
      | _ =>
        rw [hres] at hw
        simp [Ty.leaves] at hw
    · cases ty with
      | applied item args =>
        have hres : resolveHead subst (.applied item args) = .applied item args :=
          resolveHead_of_not_bound (by simp)
        simp only [exceedsGenericDepth, List.any_eq_false]
        intro a ha
        simpa using (hargs item args hres a ha).2
      | _ => rfl

theorem lookup_insert_cases {u : TypeParamId} {t : Ty}
    (h : (subst.insert id ty).lookup u = some t) : (u = id ∧ t = ty) ∨ subst.lookup u = some t := by
  by_cases hu : u = id
  · rw [hu, AList.lookup_insert] at h
    exact .inl ⟨hu, (Option.some.inj h).symm⟩
  · rw [AList.lookup_insert_ne hu] at h
    exact .inr h

/-- The parameters of a type, from left to right. -/
def headParams (ty : Ty) : List TypeParamId :=
  ty.leaves.filterMap fun
    | .param id => some id
    | _ => none

theorem mem_headParams : id ∈ headParams ty ↔ .param id ∈ ty.leaves := by
  rw [headParams, List.mem_filterMap]
  constructor
  · intro h
    have ⟨leaf, hleaf, heq⟩ := h
    cases leaf <;> simp_all
  · intro h
    exact ⟨_, h, rfl⟩

theorem HeadOrdered.insert (h : HeadOrdered free subst) (hid : id ∈ free)
    (hfree : ¬ HeadReaches subst ty id) : HeadOrdered free (subst.insert id ty) where
  binds u t hu := by
    rcases lookup_insert_cases hu with ⟨heq, _⟩ | hold
    · exact heq ▸ hid
    · exact h.binds u t hold
  ranked := by
    apply exists_rank_insert h.ranked (headParams ty) (v := id)
    · intro u w hmentions
      have ⟨t, ht, hw⟩ := hmentions
      rcases lookup_insert_cases ht with ⟨heq, hty⟩ | hold
      · exact .inl ⟨heq, mem_headParams.mpr (hty ▸ hw)⟩
      · exact .inr ⟨t, hold, hw⟩
    · intro w hw hpath
      exact hfree ⟨w, mem_headParams.mp hw, hpath⟩

/-! ### What unifying two heads comes to -/

/-- What a unification that succeeds makes of the substitution, and of the two types it was
given: every solution of what is bound now makes them equal, and the walk went through
both. -/
structure HeadsUnify (free : List TypeParamId) (subst subst' : Subst) (n : ℕ) (a b : Ty) : Prop where
  ordered : HeadOrdered free subst'
  keeps : ∀ id ty, subst.lookup id = some ty → subst'.lookup id = some ty
  equal : ∀ θ, Solves free θ subst' → a.instantiate θ = b.instantiate θ
  left : exceedsGenericDepth n a = false
  right : exceedsGenericDepth n b = false

theorem Solves.of_keeps {θ : TypeParamId → Ty} (h : Solves free θ subst')
    (hkeeps : ∀ id ty, subst.lookup id = some ty → subst'.lookup id = some ty) :
    Solves free θ subst :=
  ⟨fun id ty hid => h.solves id ty (hkeeps id ty hid),
    fun id ty hid => h.binds id ty (hkeeps id ty hid)⟩

theorem exceedsGenericDepth_of_resolveHead {n : ℕ}
    (h : exceedsGenericDepth (n + 1) (resolveHead subst ty) = false) :
    exceedsGenericDepth (n + 1) ty = false := by
  cases ty with
  | applied item args =>
    rw [resolveHead_of_not_bound (by simp)] at h
    exact h
  | _ => rfl

section
variable {a b : Ty} {n k k' : ℕ}

theorem HeadsUnify.symm (h : HeadsUnify free subst subst' n a b) :
    HeadsUnify free subst subst' n b a :=
  ⟨h.ordered, h.keeps, fun θ hθ => (h.equal θ hθ).symm, h.right, h.left⟩

theorem headsUnify_refl (h : HeadOrdered free subst)
    (hdepth : exceedsGenericDepth n a = false) : HeadsUnify free subst subst n a a :=
  ⟨h, fun _ _ hid => hid, fun _ _ => rfl, hdepth, hdepth⟩

theorem headsUnify_insert (h : HeadOrdered free subst) (hunbound : subst.lookup id = none)
    (hid : id ∈ free) (hreach : ¬ HeadReaches subst ty id)
    (hdepth : exceedsGenericDepth (n + 1) ty = false) :
    HeadsUnify free subst (subst.insert id ty) (n + 1) (.param id) ty where
  ordered := h.insert hid hreach
  keeps u t hu := by
    have hne : u ≠ id := by
      intro heq
      rw [heq, hunbound] at hu
      cases hu
    rw [AList.lookup_insert_ne hne, hu]
  equal θ hθ := hθ.solves id ty (AList.lookup_insert _)
  left := rfl
  right := hdepth

theorem exceedsGenericDepth_succ (h : exceedsGenericDepth n ty = false) :
    exceedsGenericDepth (n + 1) ty = false := by
  induction n generalizing ty with
  | zero => simp [exceedsGenericDepth] at h
  | succ n ih =>
    cases ty with
    | applied item args =>
      simp only [exceedsGenericDepth, List.any_eq_false] at h ⊢
      intro arg harg
      simpa [exceedsGenericDepth] using ih (by simpa using h arg harg)
    | _ => rfl

theorem not_reaches_of_settled {u v : TypeParamId} (hu : subst.lookup u = none) (hne : u ≠ v) :
    ¬ HeadReaches subst (.param u) v := by
  intro hreach
  have ⟨w, hw, hpath⟩ := hreach
  have hwu : w = u := by simpa using hw
  rw [hwu] at hpath
  rcases Relation.ReflTransGen.cases_head hpath with heq | ⟨x, ⟨bound, hbound, _⟩, _⟩
  · exact hne heq
  · simp [hu] at hbound

theorem rigid_sound (h : HeadOrdered free subst)
    (hflat : ∀ pa aargs pb bargs, a = .applied pa aargs → b = .applied pb bargs → False)
    (hrun : StateT.run (pure (if a = b then some subst else none) : Unifying (Option Subst)) k =
      .ok (some subst', k')) : HeadsUnify free subst subst' (n + 1) a b := by
  have hsome := (StateT.run_pure_eq_ok.mp hrun).1
  split at hsome
  · rename_i heq
    rw [← Option.some.inj hsome, ← heq]
    apply headsUnify_refl h
    cases a with
    | applied item args => exact (hflat item args item args rfl heq.symm).elim
    | _ => rfl
  · cases hsome

theorem bindHead_sound (h : HeadOrdered free subst) (hunbound : subst.lookup id = none)
    (hid : id ∈ free) (hrun : (bindHead subst free n id ty).run k = .ok (some subst', k')) :
    HeadsUnify free subst subst' (n + 1) (.param id) ty := by
  unfold bindHead at hrun
  have ⟨found, u, hocc, hrun⟩ := StateT.run_bind_eq_ok.mp hrun
  cases found with
  | true => cases (StateT.run_pure_eq_ok.mp hrun).1
  | false =>
    have hsubst := Option.some.inj (StateT.run_pure_eq_ok.mp hrun).1
    have ⟨hreach, hdepth⟩ := occursInHead_eq_false h hunbound hid hocc
    rw [← hsubst]
    exact headsUnify_insert h hunbound hid hreach (exceedsGenericDepth_succ hdepth)

theorem unifyEach_sound {unify : Subst → Ty → Ty → Unifying (Option Subst)}
    {pairs : List (Ty × Ty)}
    (hunify : ∀ p ∈ pairs, ∀ {s s' k k'}, HeadOrdered free s →
      (unify s p.1 p.2).run k = .ok (some s', k') → HeadsUnify free s s' n p.1 p.2)
    (h : HeadOrdered free subst)
    (hrun : (unifyEach unify pairs subst).run k = .ok (some subst', k')) :
    HeadOrdered free subst' ∧ (∀ id ty, subst.lookup id = some ty → subst'.lookup id = some ty) ∧
      ∀ p ∈ pairs, (∀ θ, Solves free θ subst' → p.1.instantiate θ = p.2.instantiate θ) ∧
        exceedsGenericDepth n p.1 = false ∧ exceedsGenericDepth n p.2 = false := by
  induction pairs generalizing subst k with
  | nil =>
    have hsubst := Option.some.inj (StateT.run_pure_eq_ok.mp hrun).1
    rw [← hsubst]
    exact ⟨h, fun _ _ hid => hid, by simp⟩
  | cons p pairs ih =>
    rw [unifyEach] at hrun
    obtain ⟨one, u, hone, hrest⟩ := StateT.run_bind_eq_ok.mp hrun
    cases one with
    | none => cases (StateT.run_pure_eq_ok.mp hrest).1
    | some mid =>
      have hfirst := hunify p (by simp) h hone
      obtain ⟨hordered, hkeeps, hall⟩ := ih (fun q hq => hunify q (by simp [hq])) hfirst.ordered hrest
      refine ⟨hordered, fun id ty hid => hkeeps id ty (hfirst.keeps id ty hid), ?_⟩
      intro q hq
      cases hq with
      | head =>
        exact ⟨fun θ hθ => hfirst.equal θ (hθ.of_keeps hkeeps), hfirst.left, hfirst.right⟩
      | tail _ hq => exact hall q hq

theorem zip_equal {aArgs bArgs : List Ty} {θ : TypeParamId → Ty} (hlen : aArgs.length = bArgs.length)
    (h : ∀ p ∈ aArgs.zip bArgs, p.1.instantiate θ = p.2.instantiate θ) :
    aArgs.map (Ty.instantiate θ) = bArgs.map (Ty.instantiate θ) := by
  induction aArgs generalizing bArgs with
  | nil =>
    obtain rfl := List.length_eq_zero_iff.mp hlen.symm
    rfl
  | cons a aArgs ih =>
    cases bArgs with
    | nil => simp at hlen
    | cons b bArgs =>
      rw [List.map_cons, List.map_cons, h (a, b) (by simp),
        ih (by simpa using hlen) fun p hp => h p (by simp [hp])]

theorem unifyHeadArgs_sound (h : HeadOrdered free subst)
    (hrun : (unifyHeadArgs free n subst a b).run k = .ok (some subst', k')) :
    HeadsUnify free subst subst' n a b := by
  induction n generalizing subst subst' a b k k' with
  | zero => exact absurd hrun StateT.run_throw_ne_ok
  | succ n ih =>
    rw [unifyHeadArgs] at hrun
    obtain ⟨_, u, _, hrun⟩ := StateT.run_bind_eq_ok.mp hrun
    have hsettled : ∀ {t id}, resolveHead subst t = .param id → subst.lookup id = none :=
      fun {t id} ht => (resolveHead_resolves h t).isSettled id ht
    suffices hresolved : HeadsUnify free subst subst' (n + 1) (resolveHead subst a)
        (resolveHead subst b) by
      refine ⟨hresolved.ordered, hresolved.keeps, fun θ hθ => ?_,
        exceedsGenericDepth_of_resolveHead hresolved.left,
        exceedsGenericDepth_of_resolveHead hresolved.right⟩
      have hbefore := hθ.of_keeps hresolved.keeps
      rw [← resolveHead_instantiate hbefore a, ← resolveHead_instantiate hbefore b,
        hresolved.equal θ hθ]
    have hsettledA : ∀ id, resolveHead subst a = .param id → subst.lookup id = none :=
      fun id => hsettled
    have hsettledB : ∀ id, resolveHead subst b = .param id → subst.lookup id = none :=
      fun id => hsettled
    generalize resolveHead subst a = ra at hrun hsettledA ⊢
    generalize resolveHead subst b = rb at hrun hsettledB ⊢
    dsimp only at hrun
    split at hrun
    · rename_i ia ib
      split at hrun
      · rename_i hfree
        split at hrun
        · rename_i hsame
          rw [← Option.some.inj (StateT.run_pure_eq_ok.mp hrun).1, hsame]
          exact headsUnify_refl h rfl
        · rename_i hne
          rw [← Option.some.inj (StateT.run_pure_eq_ok.mp hrun).1]
          refine headsUnify_insert h (hsettledA ia rfl) hfree.1 ?_ rfl
          exact not_reaches_of_settled (hsettledB ib rfl) (Ne.symm hne)
      · split at hrun
        · exact bindHead_sound h (hsettledA ia rfl) ‹_› hrun
        · split at hrun
          · exact (bindHead_sound h (hsettledB ib rfl) ‹_› hrun).symm
          · exact rigid_sound h (by simp) hrun
    · split at hrun
      · exact bindHead_sound h (hsettledA _ rfl) ‹_› hrun
      · exact rigid_sound h (by simp) hrun
    · split at hrun
      · exact (bindHead_sound h (hsettledB _ rfl) ‹_› hrun).symm
      · exact rigid_sound h (by simp) hrun
    · rename_i pa aargs pb bargs
      split at hrun
      · cases (StateT.run_pure_eq_ok.mp hrun).1
      · rename_i hsame
        have hitem : pa = pb := not_not.mp fun hitem => hsame (.inl hitem)
        have hlen : aargs.length = bargs.length := not_not.mp fun hlen => hsame (.inr hlen)
        obtain ⟨hordered, hkeeps, hall⟩ := unifyEach_sound (fun p _ => ih) h hrun
        have hleft : ∀ t ∈ aargs, exceedsGenericDepth n t = false := by
          intro t ht
          obtain ⟨t', hmem⟩ := exists_mem_zip hlen ht
          exact (hall _ hmem).2.1
        have hright : ∀ t ∈ bargs, exceedsGenericDepth n t = false := by
          intro t ht
          have hsecond : t ∈ (aargs.zip bargs).map Prod.snd := by rwa [List.map_snd_zip hlen.ge]
          obtain ⟨p, hp, heq⟩ := List.mem_map.mp hsecond
          exact heq ▸ (hall p hp).2.2
        refine ⟨hordered, hkeeps, fun θ hθ => ?_, ?_, ?_⟩
        · rw [Ty.instantiate_applied, Ty.instantiate_applied, hitem,
            zip_equal hlen fun p hp => (hall p hp).1 θ hθ]
        · simpa [exceedsGenericDepth] using hleft
        · simpa [exceedsGenericDepth] using hright
    · rename_i hargs
      exact rigid_sound h hargs hrun

end

/-! ### Arguments both heads match -/

/-- No parameter is left in the type. -/
def Ground (ty : Ty) : Prop := ∀ id, .param id ∉ ty.leaves

theorem exists_ground_solution (h : HeadOrdered free subst) :
    ∃ θ, Solves free θ subst ∧ ∀ id, Ground (θ id) := by
  let step (id : TypeParamId) (θ : TypeParamId → Ty) : Ty :=
    ((subst.lookup id).map fun ty => ty.instantiate θ).getD .i64
  have hstep : ∀ id θ θ', (∀ w, HeadMentions subst id w → θ w = θ' w) → step id θ = step id θ' := by
    intro id θ θ' hsame
    dsimp only [step]
    cases hid : subst.lookup id with
    | none => rfl
    | some ty => exact Ty.instantiate_congr fun w hw => hsame w ⟨ty, hid, hw⟩
  have : Inhabited Ty := ⟨.i64⟩
  obtain ⟨θ, hθ⟩ := exists_solution h.ranked step hstep
  refine ⟨θ, ⟨fun id ty hid => ?_, h.binds⟩, ?_⟩
  · rw [hθ id]
    simp only [step, hid]
    rfl
  · obtain ⟨rank, hrank⟩ := h.ranked
    have hground : ∀ n id, rank id < n → Ground (θ id) := by
      intro n
      induction n with
      | zero => intro id hlt; omega
      | succ n ih =>
        intro id hlt leaf
        rw [hθ id]
        dsimp only [step]
        cases hid : subst.lookup id with
        | none => simp [Ty.leaves]
        | some ty =>
          intro hleaf
          rcases Ty.mem_leaves_instantiate.mp hleaf with ⟨w, hw, hin⟩ | ⟨_, hne⟩
          · have hbelow := hrank id w ⟨ty, hid, hw⟩
            exact ih w (by omega) leaf hin
          · exact hne leaf rfl
    exact fun id => hground _ id (Nat.lt_succ_self _)

theorem Ground.instantiate {θ : TypeParamId → Ty} (h : ∀ id, Ground (θ id)) (ty : Ty) :
    Ground (ty.instantiate θ) := by
  intro leaf hleaf
  rcases Ty.mem_leaves_instantiate.mp hleaf with ⟨w, _, hin⟩ | ⟨_, hne⟩
  · exact h w leaf hin
  · exact hne leaf rfl

theorem headOrdered_empty : HeadOrdered free ∅ where
  binds id ty hid := by simp at hid
  ranked := ⟨fun _ => 0, fun v w hmentions => by
    have ⟨ty, hty, _⟩ := hmentions
    simp at hty⟩

theorem exists_matched_of_overlap {aArgs bArgs : List Ty} {aParams bParams : List TypeParamId}
    (h : headsCanOverlap aArgs aParams bArgs bParams = .overlap) :
    ∃ arguments, (∀ ty ∈ arguments, Ground ty) ∧ (matchExtendHead aArgs arguments).isSome ∧
      (matchExtendHead bArgs arguments).isSome := by
  unfold headsCanOverlap at h
  split at h
  · cases h
  · rename_i hlen
    have hlength : aArgs.length = bArgs.length := not_not.mp hlen
    split at h
    · rename_i subst k hrun
      have ⟨hordered, _, hall⟩ := unifyEach_sound (fun p _ => unifyHeadArgs_sound)
        headOrdered_empty hrun
      obtain ⟨θ, hθ, hground⟩ := exists_ground_solution hordered
      have hequal : aArgs.map (Ty.instantiate θ) = bArgs.map (Ty.instantiate θ) :=
        zip_equal hlength fun p hp => (hall p hp).1 θ hθ
      refine ⟨aArgs.map (Ty.instantiate θ), ?_, ?_, ?_⟩
      · intro ty hty
        have ⟨t, _, heq⟩ := List.mem_map.mp hty
        exact heq ▸ Ground.instantiate hground t
      · have hdepth : ∀ a ∈ aArgs, exceedsGenericDepth (Limits.maxGenericDepth + 1) a = false := by
          intro a ha
          have ⟨b, hmem⟩ := exists_mem_zip hlength ha
          exact (hall _ hmem).2.1
        have ⟨σ, hσ, _⟩ := matchExtendHead_complete (f := θ) hdepth
        rw [hσ, Option.isSome_some]
      · have hdepth : ∀ b ∈ bArgs, exceedsGenericDepth (Limits.maxGenericDepth + 1) b = false := by
          intro b hb
          have hsecond : b ∈ (aArgs.zip bArgs).map Prod.snd := by rwa [List.map_snd_zip hlength.ge]
          have ⟨p, hp, heq⟩ := List.mem_map.mp hsecond
          exact heq ▸ (hall p hp).2.2
        have ⟨σ, hσ, _⟩ := matchExtendHead_complete (f := θ) hdepth
        rw [hequal, hσ, Option.isSome_some]
    · cases h
    · cases h

end

end Napitia.Typeck
