import Napitia.Typeck.Coherence
import Napitia.Lib.Memo

/-!
# The evidence the solver hands out

A head that matches a requirement still matches once inference variables left in it
are given their types, with everything the match bound given its type too. Evidence
is right for a requirement when every extension in it answers what is required at its
place, and the solver, whose cache keeps what it found for earlier calls, only ever
hands out evidence that is right.
-/
namespace Napitia

mutual

/-- The inference variables of a type replaced by the types they were given. -/
def Ty.finish (θ : TyVar → Ty) : Ty → Ty
  | .var v => θ v
  | .applied item args => .applied item (Ty.finishAll θ args)
  | ty => ty

def Ty.finishAll (θ : TyVar → Ty) : List Ty → List Ty
  | [] => []
  | ty :: tys => Ty.finish θ ty :: Ty.finishAll θ tys

end

/-- A type as declarations write it: without inference variables, and nested no
deeper than a reference may be. -/
structure Ty.Written (ty : Ty) : Prop where
  plain : ∀ v, .var v ∉ ty.leaves
  depth : exceedsGenericDepth (Limits.maxGenericDepth + 1) ty = false

def CapabilityRequirement.finish (θ : TyVar → Ty) (r : CapabilityRequirement) :
    CapabilityRequirement :=
  ⟨r.protocol, r.arguments.map (Ty.finish θ)⟩

section
variable {θ : TyVar → Ty} {f g : TypeParamId → Ty} {ty : Ty}

@[simp]
theorem Ty.finishAll_eq (tys : List Ty) : Ty.finishAll θ tys = tys.map (Ty.finish θ) := by
  induction tys with
  | nil => rfl
  | cons ty tys ih => simp [Ty.finishAll, ih]

@[simp]
theorem Ty.finish_applied (item : ItemId) (args : List Ty) :
    (Ty.applied item args).finish θ = .applied item (args.map (Ty.finish θ)) := by
  rw [Ty.finish, Ty.finishAll_eq]

/-- Instantiating a type without inference variables, and then finishing it, finishes
what its parameters become. -/
theorem Ty.finish_instantiate (h : ∀ v, .var v ∉ ty.leaves) :
    (ty.instantiate f).finish θ = ty.instantiate fun id => (f id).finish θ := by
  induction ty using Ty.induct_applied with
  | applied item args ih =>
    rw [Ty.instantiate_applied, Ty.finish_applied, Ty.instantiate_applied, List.map_map]
    congr 1
    apply List.map_congr_left
    intro a ha
    apply ih a ha
    intro v hv
    exact h v (by simpa using ⟨a, ha, hv⟩)
  | other ty hother =>
    cases ty with
    | var v => exact absurd (List.mem_singleton_self _) (h v)
    | applied item args => exact absurd rfl (hother item args)
    | _ => rfl

theorem Ty.finish_of_plain (h : ∀ v, .var v ∉ ty.leaves) : ty.finish θ = ty := by
  have hself := Ty.finish_instantiate (f := .param) (θ := θ) h
  rw [Ty.instantiate_self] at hself
  rw [hself]
  exact Ty.instantiate_self

end

namespace Typeck

/-! ### Matching -/

section
variable {f : TypeParamId → Ty} {subst subst' : Subst}

/-- What is bound is bound to what one instantiation gives. -/
def Within (f : TypeParamId → Ty) (subst : Subst) : Prop :=
  ∀ id ty, subst.lookup id = some ty → ty = f id

theorem Within.insert (h : Within f subst) (id : TypeParamId) : Within f (subst.insert id (f id)) := by
  intro id' ty hlookup
  by_cases heq : id' = id
  · subst heq
    rw [AList.lookup_insert] at hlookup
    exact (Option.some.inj hlookup).symm
  · rw [AList.lookup_insert_ne heq] at hlookup
    exact h id' ty hlookup

theorem foldlM_complete {step : Subst → Ty × Ty → Option Subst} {patterns tys : List Ty}
    (htys : tys = patterns.map (Ty.instantiate f))
    (hstep : ∀ a ∈ patterns, ∀ s, Within f s →
      ∃ s', step s (a, a.instantiate f) = some s' ∧ Within f s')
    (h : Within f subst) :
    ∃ subst', (patterns.zip tys).foldlM step subst = some subst' ∧ Within f subst' := by
  subst htys
  induction patterns generalizing subst with
  | nil => exact ⟨subst, rfl, h⟩
  | cons a patterns ih =>
    have ⟨mid, hone, hmid⟩ := hstep a List.mem_cons_self subst h
    have ⟨last, hrest, hlast⟩ := ih (fun b hb => hstep b (List.mem_cons_of_mem a hb)) hmid
    refine ⟨last, ?_, hlast⟩
    rw [List.map_cons, List.zip_cons_cons, List.foldlM_cons, hone]
    exact hrest

theorem matchOne_complete {n : ℕ} {pattern : Ty} (hdepth : exceedsGenericDepth n pattern = false)
    (h : Within f subst) :
    ∃ subst', matchOne n pattern (pattern.instantiate f) subst = some subst' ∧ Within f subst' := by
  induction n generalizing pattern subst with
  | zero => exact absurd hdepth (by simp [exceedsGenericDepth])
  | succ n ih =>
    cases pattern with
    | param id =>
      simp only [matchOne, Ty.instantiate_param]
      cases hlookup : subst.lookup id with
      | none => exact ⟨_, rfl, h.insert id⟩
      | some existing =>
        rw [h id existing hlookup]
        exact ⟨subst, if_pos rfl, h⟩
    | applied item args =>
      have hall : ∀ a ∈ args, exceedsGenericDepth n a = false := by
        simpa [exceedsGenericDepth] using hdepth
      simp only [Ty.instantiate_applied, matchOne]
      rw [if_pos (by simp)]
      exact foldlM_complete rfl (fun a ha s hs => ih (hall a ha) hs) h
    | _ => exact ⟨subst, by simp [matchOne, Ty.instantiate], h⟩

theorem matchExtendHead_complete {patterns : List Ty}
    (hdepth : ∀ a ∈ patterns, exceedsGenericDepth (Limits.maxGenericDepth + 1) a = false) :
    ∃ subst, matchExtendHead patterns (patterns.map (Ty.instantiate f)) = some subst ∧
      Within f subst := by
  unfold matchExtendHead
  rw [if_pos (by simp)]
  exact foldlM_complete rfl (fun a ha s hs => matchOne_complete (hdepth a ha) hs)
    fun id ty hlookup => absurd hlookup (by simp)

theorem matchExtendHead_binds {patterns concrete : List Ty} {id : TypeParamId}
    (h : matchExtendHead patterns concrete = some subst)
    (hid : ∃ a ∈ patterns, .param id ∈ a.leaves) : (subst.lookup id).isSome := by
  unfold matchExtendHead at h
  split at h
  · rename_i hlen
    have ⟨_, hall⟩ := foldlM_matched (fun p _ s s' hs => matchOne_matched hs) h
    have ⟨a, ha, hleaf⟩ := hid
    have ⟨_, hmem⟩ := exists_mem_zip hlen ha
    exact (hall _ hmem).1 id hleaf
  · exact absurd h (by simp)

end

/-! ### Extensions as they are declared -/

/-- What the checks of an extension's declaration leave: its types are written types,
its parameters are those of its head, and its requirements name no others. -/
structure ExtendInfo.Declares (e : ExtendInfo) : Prop where
  head : ∀ a ∈ e.protocolArguments, a.Written
  constrained : ∀ id ∈ e.typeParams, ∃ a ∈ e.protocolArguments, .param id ∈ a.leaves
  requirement : ∀ r ∈ e.requirements, ∀ a ∈ r.arguments, a.Written
  scope : ∀ r ∈ e.requirements, ∀ a ∈ r.arguments, ∀ id, .param id ∈ a.leaves → id ∈ e.typeParams

section
variable {e : ExtendInfo} {θ : TyVar → Ty} {σ : Subst}

/-- A head that matches still matches what is finished, and what it requires is
finished with it. -/
theorem ExtendInfo.Declares.finish (h : e.Declares) {arguments : List Ty}
    (hmatch : matchExtendHead e.protocolArguments arguments = some σ) :
    ∃ σ', matchExtendHead e.protocolArguments (arguments.map (Ty.finish θ)) = some σ' ∧
      nestedRequirements e σ' = (nestedRequirements e σ).map (·.finish θ) := by
  have harguments : arguments.map (Ty.finish θ) =
      e.protocolArguments.map (Ty.instantiate fun id => (σ.get id).finish θ) := by
    rw [← matchExtendHead_instantiate hmatch, List.map_map]
    exact List.map_congr_left fun a ha => Ty.finish_instantiate (h.head a ha).plain
  have ⟨σ', hmatch', hwithin⟩ := @matchExtendHead_complete (fun id => (σ.get id).finish θ) _
    fun a ha => (h.head a ha).depth
  refine ⟨σ', harguments ▸ hmatch', ?_⟩
  unfold nestedRequirements
  rw [List.map_map]
  apply List.map_congr_left
  intro r hr
  simp only [Function.comp, CapabilityRequirement.finish, List.map_map]
  congr 1
  apply List.map_congr_left
  intro a ha
  have hwritten := h.requirement r hr a ha
  simp only [Function.comp, substitute_eq _ hwritten.depth]
  rw [Ty.finish_instantiate hwritten.plain]
  apply Ty.instantiate_congr
  intro id hid
  have hbound := matchExtendHead_binds hmatch' (h.constrained id (h.scope r hr a ha id hid))
  have ⟨ty, hlookup⟩ := Option.isSome_iff_exists.mp hbound
  rw [Subst.get, hlookup]
  exact hwithin id ty hlookup

end

/-! ### Evidence that is right -/

section
variable (extends' : List ExtendInfo)

mutual

/-- The evidence is an extension that answers the requirement, with evidence that is
right for everything it requires in turn. -/
def Derives : Evidence → CapabilityRequirement → Prop
  | .forwarded _, _ => False
  | .extension extend nested, r => ∃ e ∈ extends', e.id = extend ∧ e.protocol = r.protocol ∧
      ∃ σ, matchExtendHead e.protocolArguments r.arguments = some σ ∧
        DerivesAll nested (nestedRequirements e σ)

def DerivesAll : List Evidence → List CapabilityRequirement → Prop
  | [], rs => rs = []
  | n :: ns, rs => ∃ r rs', rs = r :: rs' ∧ Derives n r ∧ DerivesAll ns rs'

end

/-- What a solver step may answer: nothing, or evidence that is right. -/
def Right (r : CapabilityRequirement) (answer : Option Evidence) : Prop :=
  ∀ e, answer = some e → Derives extends' e r

/-- Every entry of the solver's cache is right. -/
def CacheRight (s : SolverState) : Prop :=
  ∀ r e, s.cache.lookup r = some e → Derives extends' e r

end

section
variable {extends' : List ExtendInfo}

mutual

theorem Derives.finish (hdecl : ∀ e ∈ extends', e.Declares) (θ : TyVar → Ty) :
    ∀ {evidence : Evidence} {r : CapabilityRequirement}, Derives extends' evidence r →
      Derives extends' evidence (r.finish θ)
  | .forwarded _, _, h => h
  | .extension _ _, _, h => by
    have ⟨e, hmem, hid, hprotocol, σ, hmatch, hnested⟩ := h
    have ⟨σ', hmatch', hrequired⟩ := (hdecl e hmem).finish (θ := θ) hmatch
    exact ⟨e, hmem, hid, hprotocol, σ', hmatch', hrequired ▸ DerivesAll.finish hdecl θ hnested⟩

theorem DerivesAll.finish (hdecl : ∀ e ∈ extends', e.Declares) (θ : TyVar → Ty) :
    ∀ {nested : List Evidence} {rs : List CapabilityRequirement}, DerivesAll extends' nested rs →
      DerivesAll extends' nested (rs.map (·.finish θ))
  | [], _, h => by
    rw [show _ = [] from h]
    rfl
  | _ :: _, _, h => by
    have ⟨r, rs', heq, hone, hrest⟩ := h
    exact ⟨r.finish θ, rs'.map (·.finish θ), heq ▸ rfl, hone.finish hdecl θ,
      hrest.finish hdecl θ⟩

end

open StateT

theorem report_keeps {α : Type} {P : Option α → Prop} (code : CapabilityCode) (h : P none) :
    (report code : Solver (Option α)).Keeps (CacheRight extends') P :=
  fun s hs => ⟨none, { s with diagnostics := s.diagnostics ++ [code] }, rfl, h, hs⟩

theorem resolveEach_keeps {resolve : CapabilityRequirement → Solver (Option Evidence)}
    {P : CapabilityRequirement → Option Evidence → Prop} {I : SolverState → Prop}
    {rs : List CapabilityRequirement} (h : ∀ r ∈ rs, (resolve r).Keeps I (P r)) :
    (resolveEach resolve rs).Keeps I fun answer => ∀ es, answer = some es →
      List.Forall₂ (fun r e => P r (some e)) rs es := by
  induction rs with
  | nil =>
    apply keeps_pure
    intro es heq
    cases heq
    exact .nil
  | cons r rs ih =>
    rw [resolveEach]
    apply (h r List.mem_cons_self).bind
    intro answer hanswer
    cases answer with
    | none => exact keeps_pure (by simp)
    | some e =>
      apply (ih fun r' hr' => h r' (List.mem_cons_of_mem r hr')).bind
      intro rest hrest
      cases rest with
      | none => exact keeps_pure (by simp)
      | some es =>
        apply keeps_pure
        intro es' heq
        cases heq
        exact .cons hanswer (hrest es rfl)

theorem derivesAll_of_forall₂ {rs : List CapabilityRequirement} {es : List Evidence}
    (h : List.Forall₂ (fun r e => Derives extends' e r) rs es) : DerivesAll extends' es rs := by
  induction h with
  | nil => rfl
  | cons hone _ ih => exact ⟨_, _, rfl, hone, ih⟩

theorem selectExtension_keeps {resolve : CapabilityRequirement → Solver (Option Evidence)}
    (h : ∀ r, (resolve r).Keeps (CacheRight extends') (Right extends' r))
    (r : CapabilityRequirement) :
    (selectExtension extends' resolve r).Keeps (CacheRight extends') (Right extends' r) := by
  unfold selectExtension
  split
  · exact report_keeps _ (by simp [Right])
  · rename_i e hfilter
    have ⟨hmem, hanswers⟩ := List.mem_filter.mp (hfilter ▸ List.mem_singleton_self e)
    split
    · exact keeps_pure fun _ heq => absurd heq (by simp)
    · rename_i σ hmatch
      apply (resolveEach_keeps fun r' _ => h r').bind
      intro answer hanswer
      cases answer with
      | none => exact keeps_pure fun _ heq => absurd heq (by simp)
      | some nested =>
        apply keeps_pure
        intro evidence heq
        cases heq
        have hright := (hanswer nested rfl).imp fun _ e hright => hright e rfl
        have hprotocol : e.protocol = r.protocol := by
          simp only [answers, Bool.and_eq_true, decide_eq_true_eq] at hanswers
          exact hanswers.1
        exact ⟨e, hmem, rfl, hprotocol, σ, hmatch, derivesAll_of_forall₂ hright⟩
  · exact report_keeps _ (by simp [Right])

theorem resolveConcrete_keeps (n : ℕ) (path : List CapabilityRequirement)
    (r : CapabilityRequirement) :
    (resolveConcrete extends' n path r).Keeps (CacheRight extends') (Right extends' r) := by
  induction n generalizing path r with
  | zero =>
    unfold resolveConcrete
    apply keeps_get_bind
    intro s hs
    split
    · rename_i cached hlookup
      apply keeps_pure
      intro e heq
      cases heq
      exact hs r cached hlookup
    · split
      · exact report_keeps _ (by simp [Right])
      · exact report_keeps _ (by simp [Right])
  | succ n ih =>
    unfold resolveConcrete
    apply keeps_get_bind
    intro s hs
    split
    · rename_i cached hlookup
      apply keeps_pure
      intro e heq
      cases heq
      exact hs r cached hlookup
    · split
      · exact report_keeps _ (by simp [Right])
      · have hcount : Keeps (CacheRight extends')
            (modify fun s => { s with steps := s.steps + 1 } : Solver PUnit) fun _ => True :=
          keeps_modify fun _ hs => hs
        apply hcount.bind
        intro _ _
        apply keeps_get_bind
        intro s' _
        split
        · exact report_keeps _ (by simp [Right])
        · apply (selectExtension_keeps (ih _) r).bind
          intro answer hanswer
          cases answer with
          | none => exact keeps_pure fun _ heq => absurd heq (by simp)
          | some evidence =>
            have hright := hanswer evidence rfl
            have hcache : Keeps (CacheRight extends')
                (modify fun s => { s with cache := s.cache.insert r evidence } : Solver PUnit)
                fun _ => True := by
              apply keeps_modify
              intro s hs r' e hlookup
              by_cases heq : r' = r
              · subst heq
                rw [AList.lookup_insert] at hlookup
                exact Option.some.inj hlookup ▸ hright
              · rw [AList.lookup_insert_ne heq] at hlookup
                exact hs r' e hlookup
            apply hcache.bind
            intro _ _
            exact keeps_pure hanswer

/-- What a requirement is resolved to: it is forwarded when the enclosing declaration
has it, and otherwise the evidence is right. -/
theorem resolveRequirement_keeps (r : CapabilityRequirement) (own : List CapabilityRequirement) :
    (resolveRequirement extends' r own).Keeps (CacheRight extends') fun answer =>
      ∀ e, answer = some e → (r ∈ own ∧ e = .forwarded (own.idxOf r)) ∨
        (r ∉ own ∧ Derives extends' e r) := by
  unfold resolveRequirement
  split
  · rename_i hown
    apply keeps_pure
    intro e heq
    cases heq
    exact .inl ⟨hown, rfl⟩
  · rename_i hown
    split
    · exact report_keeps _ (by simp)
    · have hreset : Keeps (CacheRight extends')
          (modify fun s => { s with steps := 0 } : Solver PUnit) fun _ => True :=
        keeps_modify fun _ hs => hs
      apply hreset.bind
      intro _ _
      apply (resolveConcrete_keeps _ _ r).mono
      exact fun answer hanswer e heq => .inr ⟨hown, hanswer e heq⟩

/-- What a call requires: a requirement of its callee at the call's type arguments. -/
def callRequirement (typeParams : List TypeParamId) (typeArgs : List Ty)
    (r : CapabilityRequirement) : CapabilityRequirement :=
  ⟨r.protocol, r.arguments.map (substitute · (collectSubst typeParams typeArgs))⟩

/-- All the evidence of one call, or none. -/
def resolveCallEvidence (extends' : List ExtendInfo) (requirements : List CapabilityRequirement)
    (typeParams : List TypeParamId) (typeArgs : List Ty) (own : List CapabilityRequirement) :
    Solver (Option (List Evidence)) :=
  resolveEach (fun r => resolveRequirement extends' (callRequirement typeParams typeArgs r) own)
    requirements

/-- The states the solver is in between calls. -/
inductive Reached (extends' : List ExtendInfo) : SolverState → Prop
  | start : Reached extends' {}
  | resolve {s : SolverState} (r : CapabilityRequirement) (own : List CapabilityRequirement) :
      Reached extends' s → Reached extends' ((resolveRequirement extends' r own).run s).2

theorem Reached.cacheRight {s : SolverState} (h : Reached extends' s) : CacheRight extends' s := by
  induction h with
  | start => exact fun r e hlookup => absurd hlookup (by simp)
  | resolve r own _ ih =>
    have ⟨answer, s', hrun, _, hright⟩ := resolveRequirement_keeps r own _ ih
    rw [hrun]
    exact hright

end

end Typeck

end Napitia
