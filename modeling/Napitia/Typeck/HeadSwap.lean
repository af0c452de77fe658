import Napitia.Typeck.HeadOverlap

/-!
# Heads the other way round

Unifying two heads in either order goes through the same steps. The substitutions the two
runs have reached need not be the same, as two parameters that are made one are bound in
the order they are met; but everything resolves to the same in both, up to a renaming of
the parameters that are left.
-/
namespace Napitia.Typeck

/-- Types that resolve alike in two substitutions, at every level, up to a renaming. -/
inductive Twins (π : TypeParamId → TypeParamId) (s t : Subst) : Ty → Ty → Prop
  | param {u w : Ty} {id : TypeParamId} : HeadResolves s u (.param id) →
    HeadResolves t w (.param (π id)) → Twins π s t u w
  | applied {u w : Ty} {item : ItemId} {us ws : List Ty} : HeadResolves s u (.applied item us) →
    HeadResolves t w (.applied item ws) → us.length = ws.length →
    (∀ p ∈ us.zip ws, Twins π s t p.1 p.2) → Twins π s t u w
  | leaf {u w ty : Ty} : HeadResolves s u ty → HeadResolves t w ty → (∀ id, ty ≠ .param id) →
    (∀ item args, ty ≠ .applied item args) → Twins π s t u w

/-- Two substitutions in which every type resolves alike. -/
structure Twin (free : List TypeParamId) (π : TypeParamId → TypeParamId) (s t : Subst) : Prop where
  left : HeadOrdered free s
  right : HeadOrdered free t
  injective : Function.Injective π
  among : ∀ id, π id ∈ free ↔ id ∈ free
  fixes : ∀ id, id ∉ free → π id = id
  same : ∀ ty, Twins π s t ty ty

section
variable {free : List TypeParamId} {π π' : TypeParamId → TypeParamId} {s s' t t' : Subst}
variable {u v w ty : Ty} {x y : TypeParamId}

/-! ### Resolution past a binding -/

theorem HeadResolves.insert_of_ne (h : HeadResolves s u v) (hx : s.lookup x = none)
    (hne : v ≠ .param x) : HeadResolves (s.insert x ty) u v := by
  induction h with
  | settled hsettled =>
    apply HeadResolves.settled
    intro id hid
    have hidx : id ≠ x := fun heq => hne (by rw [hid, heq])
    rw [AList.lookup_insert_ne hidx, hsettled id hid]
  | @hop id next v hlookup _ ih =>
    have hidx : id ≠ x := by
      intro heq
      rw [heq, hx] at hlookup
      cases hlookup
    exact .hop (by rw [AList.lookup_insert_ne hidx, hlookup]) (ih hne)

theorem HeadResolves.insert_self (h : HeadResolves s u (.param x)) (hx : s.lookup x = none)
    (hty : HeadResolves (s.insert x ty) ty v) : HeadResolves (s.insert x ty) u v := by
  generalize hp : Ty.param x = p at h
  induction h with
  | settled hsettled =>
    rw [← hp]
    exact .hop (AList.lookup_insert _) hty
  | @hop id next p' hlookup _ ih =>
    have hidx : id ≠ x := by
      intro heq
      rw [heq, hx] at hlookup
      cases hlookup
    exact .hop (by rw [AList.lookup_insert_ne hidx, hlookup]) (ih hp)

theorem HeadResolves.reaches_of (h : HeadResolves s u v) (hreach : HeadReaches s v x) :
    HeadReaches s u x := by
  induction h with
  | settled _ => exact hreach
  | @hop id next v hlookup _ ih =>
    have ⟨w, hw, hpath⟩ := ih hreach
    exact ⟨id, by simp, .head ⟨next, hlookup, hw⟩ hpath⟩

theorem Twins.of_resolves {u' w' : Ty} (h : Twins π s t u w)
    (hu : ∀ v, HeadResolves s u v → HeadResolves s u' v)
    (hw : ∀ v, HeadResolves t w v → HeadResolves t w' v) : Twins π s t u' w' := by
  cases h with
  | param hu' hw' => exact .param (hu _ hu') (hw _ hw')
  | applied hu' hw' hlen hall => exact .applied (hu _ hu') (hw _ hw') hlen hall
  | leaf hu' hw' hparam happlied => exact .leaf (hu _ hu') (hw _ hw') hparam happlied

theorem Twins.insert_free {ty' : Ty} (h : Twins π s t u w) (hπ : Function.Injective π)
    (hx : s.lookup x = none) (hx' : t.lookup (π x) = none) (hreach : ¬ HeadReaches s u x) :
    Twins π (s.insert x ty) (t.insert (π x) ty') u w := by
  induction h with
  | @param u w id hu hw =>
    have hne : id ≠ x := by
      intro heq
      exact hreach (hu.reaches_of ⟨id, by simp, heq ▸ .refl⟩)
    exact .param (hu.insert_of_ne hx (by simpa using hne))
      (hw.insert_of_ne hx' (by simpa using hπ.ne hne))
  | @applied u w item us ws hu hw hlen _ ih =>
    refine .applied (hu.insert_of_ne hx (by simp)) (hw.insert_of_ne hx' (by simp)) hlen ?_
    intro p hp
    apply ih p hp
    intro hin
    have ⟨q, hq, hpath⟩ := hin
    exact hreach (hu.reaches_of ⟨q, by simpa using ⟨p.1, (List.of_mem_zip hp).1, hq⟩, hpath⟩)
  | leaf hu hw hparam happlied =>
    exact .leaf (hu.insert_of_ne hx (hparam x)) (hw.insert_of_ne hx' (hparam (π x))) hparam happlied

theorem Twins.insert {ty' : Ty} (h : Twins π s t u w) (hπ : Function.Injective π)
    (hx : s.lookup x = none) (hx' : t.lookup (π x) = none)
    (hty : Twins π (s.insert x ty) (t.insert (π x) ty') ty ty') :
    Twins π (s.insert x ty) (t.insert (π x) ty') u w := by
  induction h with
  | @param u w id hu hw =>
    by_cases hid : id = x
    · subst hid
      exact hty.of_resolves (fun v hv => hu.insert_self hx hv) fun v hv => hw.insert_self hx' hv
    · exact .param (hu.insert_of_ne hx (by simpa using hid))
        (hw.insert_of_ne hx' (by simpa using hπ.ne hid))
  | applied hu hw hlen _ ih =>
    exact .applied (hu.insert_of_ne hx (by simp)) (hw.insert_of_ne hx' (by simp)) hlen ih
  | leaf hu hw hparam happlied =>
    exact .leaf (hu.insert_of_ne hx (hparam x)) (hw.insert_of_ne hx' (hparam (π x))) hparam happlied

/-- One parameter bound to another, and the other way round, after which the second stands
for what the first stood for. -/
theorem Twins.insert_param (h : Twins π s t u w) (hπ : Function.Injective π) (hxy : x ≠ y)
    (hx : s.lookup x = none) (hy : s.lookup y = none) (hx' : t.lookup (π x) = none)
    (hy' : t.lookup (π y) = none) :
    Twins (π ∘ Equiv.swap x y) (s.insert x (.param y)) (t.insert (π y) (.param (π x))) u w := by
  have hyx : HeadResolves (s.insert x (.param y)) (.param y) (.param y) := by
    apply HeadResolves.settled
    intro id hid
    rw [← Ty.param.inj hid, AList.lookup_insert_ne hxy.symm, hy]
  have hxy' : HeadResolves (t.insert (π y) (.param (π x))) (.param (π x)) (.param (π x)) := by
    apply HeadResolves.settled
    intro id hid
    rw [← Ty.param.inj hid, AList.lookup_insert_ne (hπ.ne hxy), hx']
  induction h with
  | @param u w id hu hw =>
    by_cases hidx : id = x
    · subst hidx
      refine .param (hu.insert_self hx hyx) ?_
      simpa using hw.insert_of_ne hy' (by simpa using hπ.ne hxy)
    · by_cases hidy : id = y
      · subst hidy
        refine .param (hu.insert_of_ne hx (by simpa using hidx)) ?_
        simpa using hw.insert_self hy' hxy'
      · refine .param (hu.insert_of_ne hx (by simpa using hidx)) ?_
        simpa [Equiv.swap_apply_of_ne_of_ne hidx hidy] using
          hw.insert_of_ne hy' (by simpa using hπ.ne hidy)
  | applied hu hw hlen _ ih =>
    exact .applied (hu.insert_of_ne hx (by simp)) (hw.insert_of_ne hy' (by simp)) hlen ih
  | leaf hu hw hparam happlied =>
    exact .leaf (hu.insert_of_ne hx (hparam x)) (hw.insert_of_ne hy' (hparam (π y))) hparam happlied

/-! ### One run and the other -/

/-- The heads two twins resolve to. -/
inductive TwinHeads (free : List TypeParamId) (π : TypeParamId → TypeParamId) (s t : Subst) :
    Ty → Ty → Prop
  | param {id : TypeParamId} : id ∈ free → s.lookup id = none → t.lookup (π id) = none →
    TwinHeads free π s t (.param id) (.param (π id))
  | applied {item : ItemId} {us ws : List Ty} : us.length = ws.length →
    (∀ p ∈ us.zip ws, Twins π s t p.1 p.2) →
    TwinHeads free π s t (.applied item us) (.applied item ws)
  | rigid {ty : Ty} : (∀ id, ty = .param id → id ∉ free) → (∀ item args, ty ≠ .applied item args) →
    TwinHeads free π s t ty ty

theorem Twins.heads (h : Twins π s t u w) (htwin : Twin free π s t) :
    TwinHeads free π s t (resolveHead s u) (resolveHead t w) := by
  cases h with
  | @param _ _ id hu hw =>
    rw [resolveHead_eq htwin.left hu, resolveHead_eq htwin.right hw]
    by_cases hid : id ∈ free
    · exact .param hid (hu.isSettled id rfl) (hw.isSettled (π id) rfl)
    · rw [htwin.fixes id hid]
      exact .rigid (fun id' heq => Ty.param.inj heq ▸ hid) (by simp)
  | applied hu hw hlen hall =>
    rw [resolveHead_eq htwin.left hu, resolveHead_eq htwin.right hw]
    exact .applied hlen hall
  | leaf hu hw hparam happlied =>
    rw [resolveHead_eq htwin.left hu, resolveHead_eq htwin.right hw]
    exact .rigid (fun id heq => absurd heq (hparam id)) happlied

theorem twins_resolveHead (h : Twins π s t u w) (htwin : Twin free π s t) :
    Twins π s t (resolveHead s u) (resolveHead t w) := by
  have hself : ∀ {r : Subst} {v v' : Ty}, HeadOrdered free r → HeadResolves r v v' →
      HeadResolves r (resolveHead r v) v' := by
    intro r v v' hordered hv
    rw [resolveHead_eq hordered hv]
    exact .settled hv.isSettled
  exact h.of_resolves (fun v hv => hself htwin.left hv) fun v hv => hself htwin.right hv

theorem anyM_mirrored {us ws : List Ty} {p q : Ty → Unifying Bool} (hlen : us.length = ws.length)
    (h : ∀ r ∈ us.zip ws, ∀ k, (p r.1).run k = (q r.2).run k) (k : ℕ) :
    (us.anyM p).run k = (ws.anyM q).run k := by
  induction us generalizing ws k with
  | nil =>
    obtain rfl := List.length_eq_zero_iff.mp hlen.symm
    rfl
  | cons u us ih =>
    cases ws with
    | nil => simp at hlen
    | cons w ws =>
      rw [List.anyM, List.anyM, StateT.run_bind, StateT.run_bind, h (u, w) (by simp) k]
      congr 1
      funext r
      cases r.1 with
      | true => rfl
      | false => exact ih (by simpa using hlen) (fun r hr => h r (by simp [hr])) r.2

theorem occursInHead_mirrored (htwin : Twin free π s t) (h : Twins π s t u w) (n k : ℕ) :
    (occursInHead s x free n u).run k = (occursInHead t (π x) free n w).run k := by
  induction n generalizing u w k with
  | zero => rfl
  | succ n ih =>
    rw [occursInHead, occursInHead, StateT.run_bind, StateT.run_bind]
    congr 1
    funext r
    have hheads := h.heads htwin
    generalize resolveHead s u = ru at hheads
    generalize resolveHead t w = rw at hheads
    cases hheads with
    | @param id hid =>
      have hfree : π id ∈ free := (htwin.among id).mpr hid
      have hsame : (id = x) = (π id = π x) := propext htwin.injective.eq_iff.symm
      simp only [hid, hfree, hsame]
    | applied hlen hall => exact anyM_mirrored hlen (fun p hp k => ih (hall p hp) k) r.2
    | rigid hparam happlied =>
      cases ru with
      | param id => simp [hparam id rfl]
      | applied item args => exact absurd rfl (happlied item args)
      | _ => rfl

/-- How the two runs end: both stop, both refuse, or both go on with twins, after as many
steps. -/
inductive Mirrored (free : List TypeParamId) (π : TypeParamId → TypeParamId) (s t : Subst) :
    Except Unit (Option Subst × ℕ) → Except Unit (Option Subst × ℕ) → Prop
  | stopped (e : Unit) : Mirrored free π s t (.error e) (.error e)
  | refused (k : ℕ) : Mirrored free π s t (.ok (none, k)) (.ok (none, k))
  | unified {π' : TypeParamId → TypeParamId} {s' t' : Subst} (k : ℕ) : Twin free π' s' t' →
    (∀ u w, Twins π s t u w → Twins π' s' t' u w) →
    Mirrored free π s t (.ok (some s', k)) (.ok (some t', k))

theorem Mirrored.of_keeps {r r' : Except Unit (Option Subst × ℕ)} (h : Mirrored free π' s' t' r r')
    (hkeeps : ∀ u w, Twins π s t u w → Twins π' s' t' u w) : Mirrored free π s t r r' := by
  cases h with
  | stopped e => exact .stopped e
  | refused k => exact .refused k
  | unified k htwin hkeeps' => exact .unified k htwin fun u w h => hkeeps' u w (hkeeps u w h)

theorem bindHead_mirrored {ty' : Ty} (htwin : Twin free π s t) (hty : Twins π s t ty ty')
    (hid : x ∈ free) (hx : s.lookup x = none) (hx' : t.lookup (π x) = none) (n k : ℕ) :
    Mirrored free π s t ((bindHead s free n x ty).run k) ((bindHead t free n (π x) ty').run k) := by
  unfold bindHead
  rw [StateT.run_bind, StateT.run_bind, ← occursInHead_mirrored htwin hty n k]
  cases hocc : (occursInHead s x free n ty).run k with
  | error e => exact .stopped e
  | ok r =>
    have ⟨found, k'⟩ := r
    cases found with
    | true => exact .refused k'
    | false =>
      have hfree : π x ∈ free := (htwin.among x).mpr hid
      have hocc' := hocc
      rw [occursInHead_mirrored htwin hty] at hocc'
      have hreach := (occursInHead_eq_false htwin.left hx hid hocc).1
      have hreach' := (occursInHead_eq_false htwin.right hx' hfree hocc').1
      have hkeeps : ∀ u w, Twins π s t u w → Twins π (s.insert x ty) (t.insert (π x) ty') u w :=
        fun u w h => h.insert htwin.injective hx hx' (hty.insert_free htwin.injective hx hx' hreach)
      exact .unified k' ⟨htwin.left.insert hid hreach, htwin.right.insert hfree hreach',
        htwin.injective, htwin.among, htwin.fixes, fun u => hkeeps u u (htwin.same u)⟩ hkeeps

theorem unifyEach_mirrored {unify : Subst → Ty → Ty → Unifying (Option Subst)}
    {pairs pairs' : List (Ty × Ty)}
    (hunify : ∀ {π s t a b a' b'} k, Twin free π s t → Twins π s t a a' → Twins π s t b b' →
      Mirrored free π s t ((unify s a b).run k) ((unify t b' a').run k))
    (htwin : Twin free π s t) (hlen : pairs.length = pairs'.length)
    (hpairs : ∀ r ∈ pairs.zip pairs', Twins π s t r.1.1 r.2.2 ∧ Twins π s t r.1.2 r.2.1) (k : ℕ) :
    Mirrored free π s t ((unifyEach unify pairs s).run k) ((unifyEach unify pairs' t).run k) := by
  induction pairs generalizing pairs' π s t k with
  | nil =>
    obtain rfl := List.length_eq_zero_iff.mp hlen.symm
    exact .unified k htwin fun _ _ h => h
  | cons p pairs ih =>
    cases pairs' with
    | nil => simp at hlen
    | cons q pairs' =>
      rw [unifyEach, unifyEach, StateT.run_bind, StateT.run_bind]
      obtain ⟨hp, hp'⟩ := hpairs (p, q) (by simp)
      have hone := hunify k htwin hp hp'
      generalize (unify s p.1 p.2).run k = r at hone
      generalize (unify t q.1 q.2).run k = r' at hone
      cases hone with
      | stopped e => exact .stopped e
      | refused k => exact .refused k
      | unified k htwin' hkeeps =>
        have hrest := ih htwin' (by simpa using hlen) (fun r hr => by
          obtain ⟨hr1, hr2⟩ := hpairs r (by simp [hr])
          exact ⟨hkeeps _ _ hr1, hkeeps _ _ hr2⟩) k
        exact hrest.of_keeps hkeeps

/-! ### One step -/

/-- What unifying two heads does once they are resolved. -/
def unifyHeads (free : List TypeParamId) (n : ℕ) (subst : Subst) (ra rb : Ty) :
    Unifying (Option Subst) :=
  match ra, rb with
  | .param ia, .param ib =>
    if ia ∈ free ∧ ib ∈ free then
      if ia = ib then pure (some subst) else pure (some (subst.insert ia rb))
    else if ia ∈ free then bindHead subst free n ia rb
    else if ib ∈ free then bindHead subst free n ib ra
    else pure (if ra = rb then some subst else none)
  | .param ia, _ =>
    if ia ∈ free then bindHead subst free n ia rb
    else pure (if ra = rb then some subst else none)
  | _, .param ib =>
    if ib ∈ free then bindHead subst free n ib ra
    else pure (if ra = rb then some subst else none)
  | .applied pa aargs, .applied pb bargs =>
    if pa ≠ pb ∨ aargs.length ≠ bargs.length then pure none
    else unifyEach (unifyHeadArgs free n) (aargs.zip bargs) subst
  | _, _ => pure (if ra = rb then some subst else none)

theorem unifyHeadArgs_succ (n : ℕ) (a b : Ty) : unifyHeadArgs free (n + 1) s a b =
    countStep >>= fun _ => unifyHeads free n s (resolveHead s a) (resolveHead s b) := rfl

theorem unifyHeads_left (n : ℕ) (hx : x ∈ free) (hv : ∀ id, v = .param id → id ∉ free) :
    unifyHeads free n s (.param x) v = bindHead s free n x v := by
  unfold unifyHeads
  cases v with
  | param id => simp [hx, hv id rfl]
  | _ => simp [hx]

theorem unifyHeads_right (n : ℕ) (hx : x ∈ free) (hv : ∀ id, v = .param id → id ∉ free) :
    unifyHeads free n s v (.param x) = bindHead s free n x v := by
  unfold unifyHeads
  cases v with
  | param id => simp [hx, hv id rfl]
  | _ => simp [hx]

theorem unifyHeads_rigid (n : ℕ) (hu : ∀ id, u = .param id → id ∉ free)
    (hv : ∀ id, v = .param id → id ∉ free)
    (happlied : ∀ pa aargs pb bargs, u = .applied pa aargs → v = .applied pb bargs → False) :
    unifyHeads free n s u v = pure (if u = v then some s else none) := by
  unfold unifyHeads
  split
  · simp [hu _ rfl, hv _ rfl]
  · simp [hu _ rfl]
  · simp [hv _ rfl]
  · exact (happlied _ _ _ _ rfl rfl).elim
  · rfl

theorem rigid_mirrored (htwin : Twin free π s t) {c d : Prop} [Decidable c] [Decidable d]
    (hcd : c ↔ d) (k : ℕ) : Mirrored free π s t
      ((pure (if c then some s else none) : Unifying (Option Subst)).run k)
      ((pure (if d then some t else none) : Unifying (Option Subst)).run k) := by
  by_cases hc : c
  · rw [if_pos hc, if_pos (hcd.mp hc)]
    exact .unified k htwin fun _ _ h => h
  · rw [if_neg hc, if_neg fun hd => hc (hcd.mpr hd)]
    exact .refused k

theorem params_mirrored (htwin : Twin free π s t) (hx : x ∈ free) (hy : y ∈ free)
    (hsx : s.lookup x = none) (hsy : s.lookup y = none) (htx : t.lookup (π x) = none)
    (hty : t.lookup (π y) = none) (n k : ℕ) : Mirrored free π s t
      ((unifyHeads free n s (.param x) (.param y)).run k)
      ((unifyHeads free n t (.param (π y)) (.param (π x))).run k) := by
  have hx' := (htwin.among x).mpr hx
  have hy' := (htwin.among y).mpr hy
  by_cases hxy : x = y
  · subst hxy
    simp only [unifyHeads, hx, hx', and_self, if_true]
    exact .unified k htwin fun _ _ h => h
  · have hxy' : π y ≠ π x := htwin.injective.ne (Ne.symm hxy)
    simp only [unifyHeads, hx, hy, hx', hy', and_self, if_true, if_neg hxy, if_neg hxy']
    have hkeeps : ∀ u w, Twins π s t u w → Twins (π ∘ Equiv.swap x y)
        (s.insert x (.param y)) (t.insert (π y) (.param (π x))) u w :=
      fun u w h => h.insert_param htwin.injective hxy hsx hsy htx hty
    refine .unified k ⟨?_, ?_, ?_, ?_, ?_, fun u => hkeeps u u (htwin.same u)⟩ hkeeps
    · exact htwin.left.insert hx (not_reaches_of_settled hsy (Ne.symm hxy))
    · exact htwin.right.insert hy' (not_reaches_of_settled htx (Ne.symm hxy'))
    · exact htwin.injective.comp (Equiv.injective _)
    · intro id
      rw [Function.comp_apply, htwin.among]
      by_cases hidx : id = x
      · rw [hidx, Equiv.swap_apply_left]
        exact iff_of_true hy hx
      · by_cases hidy : id = y
        · rw [hidy, Equiv.swap_apply_right]
          exact iff_of_true hx hy
        · rw [Equiv.swap_apply_of_ne_of_ne hidx hidy]
    · intro id hid
      have hidx : id ≠ x := fun heq => hid (heq ▸ hx)
      have hidy : id ≠ y := fun heq => hid (heq ▸ hy)
      rw [Function.comp_apply, Equiv.swap_apply_of_ne_of_ne hidx hidy, htwin.fixes id hid]

theorem unifyHeads_mirrored {n : ℕ} {u' v' : Ty}
    (hbelow : ∀ {π s t a b a' b'} k, Twin free π s t → Twins π s t a a' → Twins π s t b b' →
      Mirrored free π s t ((unifyHeadArgs free n s a b).run k)
        ((unifyHeadArgs free n t b' a').run k))
    (htwin : Twin free π s t) (hu : Twins π s t u u') (hv : Twins π s t v v')
    (hu' : TwinHeads free π s t u u') (hv' : TwinHeads free π s t v v') (k : ℕ) :
    Mirrored free π s t ((unifyHeads free n s u v).run k) ((unifyHeads free n t v' u').run k) := by
  cases hu' with
  | @param x hx hsx htx =>
    have hx' := (htwin.among x).mpr hx
    cases hv' with
    | param hy hsy hty => exact params_mirrored htwin hx hy hsx hsy htx hty n k
    | applied =>
      rw [unifyHeads_left n hx (by simp), unifyHeads_right n hx' (by simp)]
      exact bindHead_mirrored htwin hv hx hsx htx n k
    | rigid hfree happlied =>
      rw [unifyHeads_left n hx hfree, unifyHeads_right n hx' hfree]
      exact bindHead_mirrored htwin hv hx hsx htx n k
  | @applied item us us' hlen hall =>
    cases hv' with
    | @param y hy hsy hty =>
      have hy' := (htwin.among y).mpr hy
      rw [unifyHeads_right n hy (by simp), unifyHeads_left n hy' (by simp)]
      exact bindHead_mirrored htwin hu hy hsy hty n k
    | @applied item' vs vs' hlen' hall' =>
      simp only [unifyHeads]
      by_cases hsame : item ≠ item' ∨ us.length ≠ vs.length
      · rw [if_pos hsame, if_pos (by rw [← hlen, ← hlen']; tauto)]
        exact .refused k
      · rw [if_neg hsame, if_neg (by rw [← hlen, ← hlen']; tauto)]
        have hvs : us.length = vs.length := not_not.mp fun hne => hsame (.inr hne)
        refine unifyEach_mirrored hbelow htwin (by simp [hlen, hlen', min_comm]) ?_ k
        intro r hr
        have ⟨i, hi, hget⟩ := List.mem_iff_getElem.mp hr
        simp only [List.length_zip] at hi
        have hall1 := hall (us[i], us'[i]) (List.mem_iff_getElem.mpr ⟨i, by simp; omega, by simp⟩)
        have hall2 := hall' (vs[i], vs'[i]) (List.mem_iff_getElem.mpr ⟨i, by simp; omega, by simp⟩)
        rw [← hget]
        simp only [List.getElem_zip]
        exact ⟨hall1, hall2⟩
    | rigid hfree happlied =>
      rw [unifyHeads_rigid n (by simp) hfree fun _ _ pb bargs _ hv => happlied pb bargs hv,
        unifyHeads_rigid n hfree (by simp) fun pa aargs _ _ hv _ => happlied pa aargs hv]
      exact rigid_mirrored htwin (iff_of_false (fun h => happlied _ _ h.symm) (happlied _ _)) k
  | rigid hfree happlied =>
    cases hv' with
    | @param y hy hsy hty =>
      have hy' := (htwin.among y).mpr hy
      rw [unifyHeads_right n hy hfree, unifyHeads_left n hy' hfree]
      exact bindHead_mirrored htwin hu hy hsy hty n k
    | applied =>
      rw [unifyHeads_rigid n hfree (by simp) fun pa aargs _ _ hu _ => happlied pa aargs hu,
        unifyHeads_rigid n (by simp) hfree fun _ _ pb bargs _ hu => happlied pb bargs hu]
      exact rigid_mirrored htwin (iff_of_false (happlied _ _) fun h => happlied _ _ h.symm) k
    | rigid hfree' happlied' =>
      rw [unifyHeads_rigid n hfree hfree' fun pa aargs _ _ hu _ => happlied pa aargs hu,
        unifyHeads_rigid n hfree' hfree fun _ _ pb bargs _ hu => happlied pb bargs hu]
      exact rigid_mirrored htwin eq_comm k

theorem unifyHeadArgs_mirrored {a b a' b' : Ty} (n k : ℕ) (htwin : Twin free π s t)
    (ha : Twins π s t a a') (hb : Twins π s t b b') :
    Mirrored free π s t ((unifyHeadArgs free n s a b).run k)
      ((unifyHeadArgs free n t b' a').run k) := by
  induction n generalizing π s t a b a' b' k with
  | zero => exact .stopped ()
  | succ n ih =>
    rw [unifyHeadArgs_succ, unifyHeadArgs_succ, StateT.run_bind, StateT.run_bind]
    cases countStep.run k with
    | error e => exact .stopped e
    | ok r =>
      exact unifyHeads_mirrored (fun k htwin ha hb => ih k htwin ha hb) htwin
        (twins_resolveHead ha htwin) (twins_resolveHead hb htwin) (ha.heads htwin)
        (hb.heads htwin) r.2

/-! ### Both orders -/

theorem occursInHead_congr {free' : List TypeParamId} (hfree : ∀ id, id ∈ free ↔ id ∈ free')
    (n : ℕ) (ty : Ty) : occursInHead s x free n ty = occursInHead s x free' n ty := by
  induction n generalizing ty with
  | zero => rfl
  | succ n ih =>
    have hsame : occursInHead s x free n = occursInHead s x free' n := funext ih
    simp only [occursInHead, hfree, hsame]

theorem unifyHeadArgs_congr {free' : List TypeParamId} (hfree : ∀ id, id ∈ free ↔ id ∈ free')
    (n : ℕ) : unifyHeadArgs free n = unifyHeadArgs free' n := by
  induction n with
  | zero => rfl
  | succ n ih =>
    funext s a b
    have hbind : ∀ id ty, bindHead s free n id ty = bindHead s free' n id ty := by
      intro id ty
      rw [bindHead, bindHead, occursInHead_congr hfree]
    simp only [unifyHeadArgs, hfree, hbind, ih]

theorem twins_empty (ty : Ty) : Twins id ∅ ∅ ty ty := by
  have hself : ∀ t, HeadResolves ∅ t t := fun t => .settled (by simp)
  induction ty using Ty.induct_applied with
  | applied item args ih =>
    refine .applied (hself _) (hself _) rfl ?_
    intro p hp
    have ⟨i, hi, hget⟩ := List.mem_iff_getElem.mp hp
    rw [List.getElem_zip] at hget
    rw [← hget]
    exact ih _ (List.getElem_mem _)
  | other ty happlied =>
    by_cases hparam : ∃ id, ty = .param id
    · have ⟨id, hid⟩ := hparam
      rw [hid]
      exact .param (hself _) (hself _)
    · exact .leaf (hself _) (hself _) (fun id hid => hparam ⟨id, hid⟩) happlied

theorem twin_empty (free : List TypeParamId) : Twin free id ∅ ∅ where
  left := headOrdered_empty
  right := headOrdered_empty
  injective := Function.injective_id
  among _ := Iff.rfl
  fixes _ _ := rfl
  same := twins_empty

theorem headsCanOverlap_comm (aArgs bArgs : List Ty) (aParams bParams : List TypeParamId) :
    headsCanOverlap aArgs aParams bArgs bParams = headsCanOverlap bArgs bParams aArgs aParams := by
  unfold headsCanOverlap
  by_cases hlen : aArgs.length = bArgs.length
  · have hfree : ∀ id, id ∈ bParams ++ aParams ↔ id ∈ aParams ++ bParams := by
      simp [or_comm]
    rw [if_neg (not_not.mpr hlen), if_neg (not_not.mpr hlen.symm), unifyHeadArgs_congr hfree]
    have hpairs : ∀ r ∈ (aArgs.zip bArgs).zip (bArgs.zip aArgs),
        Twins id ∅ ∅ r.1.1 r.2.2 ∧ Twins id ∅ ∅ r.1.2 r.2.1 := by
      intro r hr
      have ⟨i, hi, hget⟩ := List.mem_iff_getElem.mp hr
      rw [← hget]
      simp only [List.getElem_zip]
      exact ⟨twins_empty _, twins_empty _⟩
    have hmirrored := unifyEach_mirrored
      (fun k htwin ha hb => unifyHeadArgs_mirrored (Limits.maxGenericDepth + 1) k htwin ha hb)
      (twin_empty (aParams ++ bParams)) (by simp [min_comm]) hpairs 0
    generalize StateT.run (unifyEach _ (aArgs.zip bArgs) ∅) 0 = r at hmirrored ⊢
    generalize StateT.run (unifyEach _ (bArgs.zip aArgs) ∅) 0 = r' at hmirrored ⊢
    cases hmirrored with
    | stopped => rfl
    | refused => rfl
    | unified => rfl
  · rw [if_pos hlen, if_pos (Ne.symm hlen)]

end

end Napitia.Typeck
