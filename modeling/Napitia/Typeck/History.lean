import Napitia.Typeck.Evidence

/-!
# What a resolution owes to those before it

The cache answers before either limit of the solver is looked at. What a requirement
expands to, with neither cache nor steps, is walked here in the order the solver walks it,
and the limits are then read off the walk: which requirements it meets for the first time,
how deep, and how many.
-/
namespace Napitia.Typeck

/-! ### Expansions -/

/-- The requirements that are met, with their depth, and what the walk breaks on. -/
structure Expansion where
  met : List (CapabilityRequirement × ℕ)
  broken : Option CapabilityCode := none

/-- Requirements expanded one after the other, until one breaks. -/
def expandEach (expand : CapabilityRequirement → Expansion) :
    List CapabilityRequirement → Expansion
  | [] => ⟨[], none⟩
  | r :: rs =>
    match expand r with
    | ⟨met, some code⟩ => ⟨met, some code⟩
    | ⟨met, none⟩ =>
      let rest := expandEach expand rs
      ⟨met ++ rest.met, rest.broken⟩

/-- What a requirement expands to, as deep as one level more than the solver goes. -/
def expand (extends' : List ExtendInfo) :
    ℕ → List CapabilityRequirement → CapabilityRequirement → Expansion
  | 0, path, r =>
    if r ∈ path then ⟨[], some .cyclicCapabilityRequirement⟩ else ⟨[(r, path.length)], none⟩
  | n + 1, path, r =>
    if r ∈ path then ⟨[], some .cyclicCapabilityRequirement⟩
    else
      match extends'.filter (answers r) with
      | [] => ⟨[(r, path.length)], some .missingCapability⟩
      | [e] =>
        let nested := expandEach (expand extends' n (path ++ [r]))
          (((matchExtendHead e.protocolArguments r.arguments).map (nestedRequirements e)).getD [])
        ⟨(r, path.length) :: nested.met, nested.broken⟩
      | _ => ⟨[(r, path.length)], some .ambiguousCapability⟩

def expansion (extends' : List ExtendInfo) (r : CapabilityRequirement) : Expansion :=
  expand extends' (Limits.maxCapabilityDepth + 1) [] r

/-- The limits on the requirements that are not known yet, each of them known once it is
met: none is too deep, and there are not too many. -/
def meetAll : List CapabilityRequirement → ℕ → List (CapabilityRequirement × ℕ) →
    Except CapabilityCode (List CapabilityRequirement × ℕ)
  | known, count, [] => .ok (known, count)
  | known, count, (r, depth) :: rest =>
    if r ∈ known then meetAll known count rest
    else if depth > Limits.maxCapabilityDepth then .error .capabilityDepthExceeded
    else if count + 1 > Limits.maxCapabilityResolutionSteps then
      .error .capabilityWorkBudgetExceeded
    else meetAll (r :: known) (count + 1) rest

/-- The limit that is overrun, if any, where some requirements are known from before. -/
def Expansion.overrun (x : Expansion) (known : List CapabilityRequirement) :
    Option CapabilityCode :=
  match meetAll known 0 x.met with
  | .ok _ => none
  | .error code => some code

/-- Requirements that can be satisfied, each by those behind it in the list. -/
inductive Known (extends' : List ExtendInfo) : List CapabilityRequirement → Prop
  | nil : Known extends' []
  | cons {known : List CapabilityRequirement} {r : CapabilityRequirement} {e : ExtendInfo}
      {σ : Subst} : Known extends' known → requirementIsSymbolic r = false →
      extends'.filter (answers r) = [e] →
      matchExtendHead e.protocolArguments r.arguments = some σ →
      (∀ r' ∈ nestedRequirements e σ, r' ∈ known) → Known extends' (r :: known)

/-! ### Outcomes -/

/-- What a call answers, and what it reports. -/
def outcome (x : Solver (Option Evidence)) (s : SolverState) :
    Option Evidence × List CapabilityCode :=
  ((x.run s).1, (x.run s).2.diagnostics.drop s.diagnostics.length)

/-- Whatever was resolved before it, the requirement has the outcome it has at first. -/
def HistoryIndependent (extends' : List ExtendInfo) (r : CapabilityRequirement)
    (own : List CapabilityRequirement) : Prop :=
  ∀ s, Reached extends' s →
    outcome (resolveRequirement extends' r own) s = outcome (resolveRequirement extends' r own) {}

/-! ### Walks -/

def Expansion.verdict (x : Expansion) (known : List CapabilityRequirement) (count : ℕ) :
    Except CapabilityCode (List CapabilityRequirement × ℕ) :=
  match meetAll known count x.met, x.broken with
  | .error code, _ => .error code
  | .ok _, some code => .error code
  | .ok end', none => .ok end'

section
variable {extends' : List ExtendInfo} {known : List CapabilityRequirement} {count : ℕ}

theorem meetAll_append (l l' : List (CapabilityRequirement × ℕ)) :
    meetAll known count (l ++ l') =
      match meetAll known count l with
      | .error code => .error code
      | .ok (known', count') => meetAll known' count' l' := by
  induction l generalizing known count with
  | nil => rfl
  | cons p l ih =>
    obtain ⟨r, depth⟩ := p
    simp only [List.cons_append, meetAll]
    split
    · exact ih
    · split
      · rfl
      · split
        · rfl
        · exact ih

theorem meetAll_of_known {l : List (CapabilityRequirement × ℕ)} (h : ∀ p ∈ l, p.1 ∈ known) :
    meetAll known count l = .ok (known, count) := by
  induction l with
  | nil => rfl
  | cons p l ih =>
    rw [meetAll, if_pos (h p List.mem_cons_self)]
    exact ih fun q hq => h q (List.mem_cons_of_mem _ hq)

theorem meetAll_mono {l : List (CapabilityRequirement × ℕ)} {known' : List CapabilityRequirement}
    {count' : ℕ} {end' : List CapabilityRequirement × ℕ} (hknown : ∀ r ∈ known, r ∈ known')
    (hcount : count' ≤ count) (h : meetAll known count l = .ok end') :
    ∃ end'', meetAll known' count' l = .ok end'' := by
  induction l generalizing known known' count count' with
  | nil => exact ⟨_, rfl⟩
  | cons p l ih =>
    obtain ⟨r, depth⟩ := p
    rw [meetAll] at h ⊢
    by_cases hr' : r ∈ known'
    · rw [if_pos hr']
      by_cases hr : r ∈ known
      · rw [if_pos hr] at h
        exact ih hknown hcount h
      · rw [if_neg hr] at h
        split at h
        · cases h
        · split at h
          · cases h
          · have hmore : ∀ x ∈ r :: known, x ∈ known' := by
              intro x hx
              rcases List.mem_cons.mp hx with rfl | hx
              · exact hr'
              · exact hknown x hx
            exact ih hmore (by omega) h
    · have hr : r ∉ known := fun hmem => hr' (hknown r hmem)
      rw [if_neg hr] at h
      rw [if_neg hr']
      split at h
      · cases h
      · rename_i hdepth
        rw [if_neg hdepth]
        split at h
        · cases h
        · rw [if_neg (by omega)]
          have hmore : ∀ x ∈ r :: known, x ∈ r :: known' := fun x hx =>
            List.mem_cons.mpr ((List.mem_cons.mp hx).imp_right (hknown x))
          exact ih hmore (by omega) h

theorem meetAll_error {l : List (CapabilityRequirement × ℕ)} {code : CapabilityCode}
    (h : meetAll known count l = .error code) :
    code = .capabilityDepthExceeded ∨ code = .capabilityWorkBudgetExceeded := by
  induction l generalizing known count with
  | nil => cases h
  | cons p l ih =>
    rw [meetAll] at h
    split at h
    · exact ih h
    · split at h
      · cases h
        exact .inl rfl
      · split at h
        · cases h
          exact .inr rfl
        · exact ih h

theorem verdict_expandEach_cons (f : CapabilityRequirement → Expansion)
    (r : CapabilityRequirement) (rs : List CapabilityRequirement) :
    (expandEach f (r :: rs)).verdict known count =
      match (f r).verdict known count with
      | .error code => .error code
      | .ok (known', count') => (expandEach f rs).verdict known' count' := by
  rw [expandEach]
  rcases hf : f r with ⟨met, _ | code⟩
  · simp only [Expansion.verdict, meetAll_append]
    cases meetAll known count met <;> rfl
  · simp only [Expansion.verdict]
    cases meetAll known count met <;> rfl

/-- What a walk breaks on is not a limit. -/
def Broken (x : Expansion) : Prop :=
  ∀ code, x.broken = some code →
    code ≠ .capabilityDepthExceeded ∧ code ≠ .capabilityWorkBudgetExceeded

theorem broken_expandEach {f : CapabilityRequirement → Expansion} (hf : ∀ r, Broken (f r))
    (rs : List CapabilityRequirement) : Broken (expandEach f rs) := by
  induction rs with
  | nil => exact fun code h => by cases h
  | cons r rs ih =>
    intro code h
    have hr := hf r
    rw [expandEach] at h
    rcases hfr : f r with ⟨met, _ | code'⟩
    · rw [hfr] at h
      exact ih code h
    · rw [hfr] at h hr
      exact hr code h

theorem broken_expand (n : ℕ) (path : List CapabilityRequirement) (r : CapabilityRequirement) :
    Broken (expand extends' n path r) := by
  induction n generalizing path r with
  | zero =>
    rw [expand]
    split
    · rintro code h
      cases h
      exact ⟨by simp, by simp⟩
    · exact fun code h => by cases h
  | succ n ih =>
    rw [expand]
    split
    · rintro code h
      cases h
      exact ⟨by simp, by simp⟩
    · split
      · rintro code h
        cases h
        exact ⟨by simp, by simp⟩
      · exact fun code h => broken_expandEach (fun r' => ih _ r') _ code h
      · rintro code h
        cases h
        exact ⟨by simp, by simp⟩

/-- Among requirements that are known nothing breaks, and nothing else is met. -/
def Inside (known : List CapabilityRequirement) (x : Expansion) : Prop :=
  x.broken = none ∧ ∀ p ∈ x.met, p.1 ∈ known

theorem inside_expandEach {f : CapabilityRequirement → Expansion}
    {rs : List CapabilityRequirement} (h : ∀ r ∈ rs, Inside known (f r)) :
    Inside known (expandEach f rs) := by
  induction rs with
  | nil => exact ⟨rfl, fun p hp => by cases hp⟩
  | cons r rs ih =>
    have hfirst := h r List.mem_cons_self
    have hrest := ih fun r' hr' => h r' (List.mem_cons_of_mem _ hr')
    rw [expandEach]
    rcases hfr : f r with ⟨met, _ | code⟩
    · rw [hfr] at hfirst
      refine ⟨hrest.1, fun p hp => ?_⟩
      rcases List.mem_append.mp hp with hp | hp
      · exact hfirst.2 p hp
      · exact hrest.2 p hp
    · rw [hfr] at hfirst
      cases hfirst.1

theorem Inside.mono {known' : List CapabilityRequirement} {x : Expansion} (h : Inside known x)
    (hmore : ∀ r ∈ known, r ∈ known') : Inside known' x :=
  ⟨h.1, fun p hp => hmore _ (h.2 p hp)⟩

theorem Known.inside (h : Known extends' known) {n : ℕ} {path : List CapabilityRequirement}
    {r : CapabilityRequirement} (hr : r ∈ known) (hpath : ∀ x ∈ path, x ∉ known) :
    Inside known (expand extends' n path r) := by
  induction h generalizing n path r with
  | nil => cases hr
  | @cons known r₀ e σ hknown _ hone hmatch hnested ih =>
    have hmore : ∀ x ∈ known, x ∈ r₀ :: known := fun x => List.mem_cons_of_mem _
    have hpath' : ∀ x ∈ path, x ∉ known := fun x hx hmem => hpath x hx (hmore x hmem)
    by_cases hin : r ∈ known
    · exact (ih hin hpath').mono hmore
    · obtain rfl : r = r₀ := (List.mem_cons.mp hr).resolve_right hin
      have hnot : r ∉ path := fun hmem => hpath r hmem List.mem_cons_self
      cases n with
      | zero =>
        rw [expand, if_neg hnot]
        exact ⟨rfl, by simp⟩
      | succ n =>
        have hbelow : Inside known
            (expandEach (expand extends' n (path ++ [r])) (nestedRequirements e σ)) := by
          refine inside_expandEach fun r' hr' => ih (hnested r' hr') fun x hx => ?_
          rcases List.mem_append.mp hx with hx | hx
          · exact hpath' x hx
          · exact List.mem_singleton.mp hx ▸ hin
        rw [expand, if_neg hnot, hone]
        simp only [hmatch, Option.map_some, Option.getD_some]
        refine ⟨hbelow.1, fun p hp => ?_⟩
        rcases List.mem_cons.mp hp with rfl | hp
        · exact List.mem_cons_self
        · exact hmore _ (hbelow.2 p hp)

/-! ### The solver along a walk -/

/-- The cache holds what is known. -/
def Holds (extends' : List ExtendInfo) (s : SolverState) (known : List CapabilityRequirement) :
    Prop :=
  Known extends' known ∧ ∀ r, r ∈ known ↔ r ∈ s.cache

/-- The solver below a path: what it need not count again is cached, or on the path. -/
structure Stands (extends' : List ExtendInfo) (s : SolverState)
    (path known : List CapabilityRequirement) : Prop where
  cached : ∃ held, Holds extends' s held
  apart : ∀ r ∈ path, r ∉ s.cache
  known : ∀ r, r ∈ known ↔ r ∈ s.cache ∨ r ∈ path

/-- A computation answers where the walk is within the limits and does not break, with the
requirements resolved, and else reports what stops the walk. -/
def Follows {α : Type} (extends' : List ExtendInfo) (x : Solver (Option α))
    (resolved : List CapabilityRequirement) (expansion : Expansion)
    (path known : List CapabilityRequirement) (s : SolverState) : Prop :=
  match expansion.verdict known s.steps with
  | .error code => ∃ s', x.run s = (none, s') ∧ s'.diagnostics = s.diagnostics ++ [code] ∧
      ∃ held, Holds extends' s' held
  | .ok (known', count) => ∃ a s', x.run s = (some a, s') ∧ s'.steps = count ∧
      s'.diagnostics = s.diagnostics ∧ Stands extends' s' path known' ∧
      (∀ r ∈ resolved, r ∈ s'.cache) ∧ ∀ r ∈ s.cache, r ∈ s'.cache

variable {path : List CapabilityRequirement} {s : SolverState}

theorem resolveEach_follows {resolve : CapabilityRequirement → Solver (Option Evidence)}
    {f : CapabilityRequirement → Expansion} {rs : List CapabilityRequirement}
    (h : ∀ r ∈ rs, ∀ {known s}, Stands extends' s path known →
      Follows extends' (resolve r) [r] (f r) path known s)
    (hs : Stands extends' s path known) :
    Follows extends' (resolveEach resolve rs) rs (expandEach f rs) path known s := by
  induction rs generalizing known s with
  | nil => exact ⟨[], s, rfl, rfl, rfl, hs, by simp, fun _ hr => hr⟩
  | cons r rs ih =>
    have hfirst := h r List.mem_cons_self hs
    unfold Follows at hfirst ⊢
    rw [verdict_expandEach_cons]
    cases hverdict : (f r).verdict known s.steps with
    | error code =>
      simp only [hverdict] at hfirst ⊢
      obtain ⟨s', hrun, hreported, hheld⟩ := hfirst
      refine ⟨s', ?_, hreported, hheld⟩
      rw [resolveEach, StateT.run_bind, hrun]
      rfl
    | ok end' =>
      obtain ⟨known', count⟩ := end'
      simp only [hverdict] at hfirst ⊢
      obtain ⟨e, s', hrun, rfl, hsilent, hs', hresolved, hkept⟩ := hfirst
      have hrest := ih (fun r' hr' => h r' (List.mem_cons_of_mem _ hr')) hs'
      unfold Follows at hrest
      have hstep : (resolveEach resolve (r :: rs)).run s =
          ((resolveEach resolve rs >>= fun rest => pure (rest.map (e :: ·))) : Solver _).run s' := by
        rw [resolveEach, StateT.run_bind, hrun]
        refine congrArg (fun run : Solver _ => run.run s') (bind_congr fun rest => ?_)
        cases rest <;> rfl
      rw [hstep, StateT.run_bind]
      cases hverdict' : (expandEach f rs).verdict known' s'.steps with
      | error code =>
        simp only [hverdict'] at hrest ⊢
        obtain ⟨s'', hrun', hreported, hheld⟩ := hrest
        rw [hrun']
        exact ⟨s'', rfl, hsilent ▸ hreported, hheld⟩
      | ok end'' =>
        obtain ⟨known'', count'⟩ := end''
        simp only [hverdict'] at hrest ⊢
        obtain ⟨es, s'', hrun', hsteps, hsilent', hs'', hresolved', hkept'⟩ := hrest
        rw [hrun']
        refine ⟨e :: es, s'', rfl, hsteps, hsilent'.trans hsilent, hs'', ?_,
          fun x hx => hkept' x (hkept x hx)⟩
        intro x hx
        rcases List.mem_cons.mp hx with rfl | hx
        · exact hkept' x (hresolved x (List.mem_singleton_self x))
        · exact hresolved' x hx

theorem tyIsSymbolic_iff {ty : Ty} : tyIsSymbolic ty = true ↔ ∃ id, .param id ∈ ty.leaves := by
  have hany (args : List Ty) : anyIsSymbolic args = args.any tyIsSymbolic := by
    induction args with
    | nil => rfl
    | cons a args ih => rw [anyIsSymbolic, ih, List.any_cons]
  induction ty using Ty.induct_applied with
  | applied item args ih =>
    rw [tyIsSymbolic, hany, List.any_eq_true, Ty.leaves_applied]
    simp only [List.mem_flatMap]
    constructor
    · rintro ⟨a, ha, hsymbolic⟩
      obtain ⟨id, hid⟩ := (ih a ha).mp hsymbolic
      exact ⟨id, a, ha, hid⟩
    · rintro ⟨id, a, ha, hid⟩
      exact ⟨a, ha, (ih a ha).mpr ⟨id, hid⟩⟩
  | other ty hother =>
    cases ty with
    | applied item args => exact absurd rfl (hother item args)
    | _ => simp [tyIsSymbolic, Ty.leaves]

theorem nested_not_symbolic {e : ExtendInfo} (hdecl : e.Declares) {r r' : CapabilityRequirement}
    {σ : Subst} (hr : requirementIsSymbolic r = false)
    (hmatch : matchExtendHead e.protocolArguments r.arguments = some σ)
    (hr' : r' ∈ nestedRequirements e σ) : requirementIsSymbolic r' = false := by
  obtain ⟨required, hrequired, rfl⟩ := List.mem_map.mp hr'
  rw [requirementIsSymbolic, List.any_eq_false]
  rintro _ hmem hsymbolic
  obtain ⟨a, ha, rfl⟩ := List.mem_map.mp hmem
  have hwritten := hdecl.requirement required hrequired a ha
  rw [substitute_eq σ hwritten.depth] at hsymbolic
  obtain ⟨leaf, hleaf⟩ := tyIsSymbolic_iff.mp hsymbolic
  rcases Ty.mem_leaves_instantiate.mp hleaf with ⟨id, hid, hbound⟩ | ⟨_, hnever⟩
  · -- the parameter is one of the head's, so what it is bound to is part of the requirement
    obtain ⟨b, hb, hidb⟩ := hdecl.constrained id (hdecl.scope required hrequired a ha id hid)
    have hleaf' : .param leaf ∈ (b.instantiate σ.get).leaves :=
      Ty.mem_leaves_instantiate.mpr (.inl ⟨id, hidb, hbound⟩)
    have hin : b.instantiate σ.get ∈ r.arguments := by
      rw [← matchExtendHead_instantiate hmatch]
      exact List.mem_map_of_mem hb
    have hfalse := List.any_eq_false.mp hr _ hin
    exact hfalse (tyIsSymbolic_iff.mpr ⟨leaf, hleaf'⟩)
  · exact hnever leaf rfl

theorem Holds.insert {held : List CapabilityRequirement} (h : Holds extends' s held)
    {r : CapabilityRequirement} (hknown : Known extends' (r :: held)) (evidence : Evidence) :
    Holds extends' { s with cache := s.cache.insert r evidence } (r :: held) := by
  refine ⟨hknown, fun x => ?_⟩
  rw [List.mem_cons, AList.mem_insert, h.2 x]

theorem run_resolveConcrete_succ {n : ℕ} {r : CapabilityRequirement}
    (hlookup : s.cache.lookup r = none) (hpath : r ∉ path) :
    (resolveConcrete extends' (n + 1) path r).run s =
      (if s.steps + 1 > Limits.maxCapabilityResolutionSteps then
        report .capabilityWorkBudgetExceeded
      else do
        match ← selectExtension extends' (resolveConcrete extends' n (path ++ [r])) r with
        | none => pure none
        | some evidence => do
          modify fun s => { s with cache := s.cache.insert r evidence }
          pure (some evidence) : Solver _).run { s with steps := s.steps + 1 } := by
  rw [resolveConcrete, StateT.run_bind, StateT.run_get, pure_bind, hlookup]
  simp only [if_neg hpath]
  rfl

theorem expand_succ (extends' : List ExtendInfo) (n : ℕ) {r : CapabilityRequirement} (hpath : r ∉ path) :
    ∃ x : Expansion, expand extends' (n + 1) path r = ⟨(r, path.length) :: x.met, x.broken⟩ := by
  rw [expand, if_neg hpath]
  split
  · exact ⟨⟨[], _⟩, rfl⟩
  · exact ⟨expandEach _ _, rfl⟩
  · exact ⟨⟨[], _⟩, rfl⟩

theorem verdict_cons {r : CapabilityRequirement} {depth : ℕ} {x : Expansion} (hnew : r ∉ known)
    (hdepth : depth ≤ Limits.maxCapabilityDepth)
    (hcount : count + 1 ≤ Limits.maxCapabilityResolutionSteps) :
    (⟨(r, depth) :: x.met, x.broken⟩ : Expansion).verdict known count =
      x.verdict (r :: known) (count + 1) := by
  simp only [Expansion.verdict, meetAll, if_neg hnew, if_neg (Nat.not_lt.mpr hdepth),
    if_neg (Nat.not_lt.mpr hcount)]

theorem selectExtension_follows {resolve : CapabilityRequirement → Solver (Option Evidence)}
    {f : CapabilityRequirement → Expansion} {r : CapabilityRequirement} {e : ExtendInfo}
    {σ : Subst} (hone : extends'.filter (answers r) = [e])
    (hmatch : matchExtendHead e.protocolArguments r.arguments = some σ)
    (h : ∀ r' ∈ nestedRequirements e σ, ∀ {known s}, Stands extends' s path known →
      Follows extends' (resolve r') [r'] (f r') path known s)
    (hs : Stands extends' s path known) :
    Follows extends' (selectExtension extends' resolve r) (nestedRequirements e σ)
      (expandEach f (nestedRequirements e σ)) path known s := by
  have heach := resolveEach_follows h hs
  have hrun : (selectExtension extends' resolve r).run s =
      ((resolveEach resolve (nestedRequirements e σ) >>= fun nested =>
        pure (nested.map (.extension e.id ·))) : Solver _).run s := by
    unfold selectExtension
    rw [hone]
    dsimp only
    split
    · rename_i hnone
      rw [hmatch] at hnone
      cases hnone
    · rename_i found hsome
      rw [hmatch] at hsome
      cases hsome
      refine congrArg (fun run : Solver _ => run.run s) (bind_congr fun nested => ?_)
      cases nested <;> rfl
  unfold Follows at heach ⊢
  rw [hrun, StateT.run_bind]
  cases hverdict : (expandEach f (nestedRequirements e σ)).verdict known s.steps with
  | error code =>
    simp only [hverdict] at heach ⊢
    obtain ⟨s', heach, hreported, hheld⟩ := heach
    rw [heach]
    exact ⟨s', rfl, hreported, hheld⟩
  | ok end' =>
    simp only [hverdict] at heach ⊢
    obtain ⟨nested, s', heach, hrest⟩ := heach
    rw [heach]
    exact ⟨_, s', rfl, hrest⟩

theorem resolveConcrete_follows_cached {n : ℕ} {r : CapabilityRequirement} (hcached : r ∈ s.cache)
    (hs : Stands extends' s path known) :
    Follows extends' (resolveConcrete extends' n path r) [r] (expand extends' n path r) path known
      s := by
  obtain ⟨held, hheld⟩ := hs.cached
  have hapart : ∀ x ∈ path, x ∉ held := fun x hx hmem => hs.apart x hx ((hheld.2 x).mp hmem)
  have hinside : Inside held (expand extends' n path r) :=
    hheld.1.inside ((hheld.2 r).mpr hcached) hapart
  have hmet : ∀ p ∈ (expand extends' n path r).met, p.1 ∈ known := fun p hp =>
    (hs.known _).mpr (.inl ((hheld.2 _).mp (hinside.2 p hp)))
  have hverdict : (expand extends' n path r).verdict known s.steps = .ok (known, s.steps) := by
    rw [Expansion.verdict, meetAll_of_known hmet, hinside.1]
  obtain ⟨cached, hlookup⟩ := Option.isSome_iff_exists.mp (AList.lookup_isSome.mpr hcached)
  unfold Follows
  rw [hverdict]
  refine ⟨cached, s, ?_, rfl, rfl, hs, by simpa using hcached, fun _ hx => hx⟩
  unfold resolveConcrete
  rw [StateT.run_bind, StateT.run_get, pure_bind, hlookup]
  rfl

theorem lookup_eq_none {r : CapabilityRequirement} (h : r ∉ s.cache) : s.cache.lookup r = none := by
  rw [← Option.not_isSome_iff_eq_none, AList.lookup_isSome]
  exact h

theorem resolveConcrete_follows_cyclic {n : ℕ} {r : CapabilityRequirement} (hpath : r ∈ path)
    (hs : Stands extends' s path known) :
    Follows extends' (resolveConcrete extends' n path r) [r] (expand extends' n path r) path known
      s := by
  have hverdict : (expand extends' n path r).verdict known s.steps =
      .error .cyclicCapabilityRequirement := by
    cases n <;> rw [expand, if_pos hpath] <;> rfl
  unfold Follows
  rw [hverdict]
  refine ⟨{ s with diagnostics := s.diagnostics ++ [.cyclicCapabilityRequirement] }, ?_, rfl,
    hs.cached⟩
  unfold resolveConcrete
  rw [StateT.run_bind, StateT.run_get, pure_bind, lookup_eq_none (hs.apart r hpath)]
  simp only [if_pos hpath]
  rfl

theorem resolveConcrete_follows_deep {r : CapabilityRequirement} (hcached : r ∉ s.cache)
    (hpath : r ∉ path) (hdeep : path.length > Limits.maxCapabilityDepth)
    (hs : Stands extends' s path known) :
    Follows extends' (resolveConcrete extends' 0 path r) [r] (expand extends' 0 path r) path known
      s := by
  have hnew : r ∉ known := fun hmem => ((hs.known r).mp hmem).elim hcached hpath
  have hverdict : (expand extends' 0 path r).verdict known s.steps =
      .error .capabilityDepthExceeded := by
    rw [expand, if_neg hpath, Expansion.verdict]
    simp only [meetAll, if_neg hnew, if_pos hdeep]
  unfold Follows
  rw [hverdict]
  refine ⟨{ s with diagnostics := s.diagnostics ++ [.capabilityDepthExceeded] }, ?_, rfl,
    hs.cached⟩
  unfold resolveConcrete
  rw [StateT.run_bind, StateT.run_get, pure_bind, lookup_eq_none hcached]
  simp only [if_neg hpath]
  rfl

theorem resolveConcrete_follows_succ (hdecl : ∀ e ∈ extends', e.Declares) {n : ℕ}
    {r : CapabilityRequirement} (hr : requirementIsSymbolic r = false) (hcached : r ∉ s.cache)
    (hpath : r ∉ path) (hdepth : path.length ≤ Limits.maxCapabilityDepth)
    (ih : ∀ {r' known s}, requirementIsSymbolic r' = false →
      Stands extends' s (path ++ [r]) known →
        Follows extends' (resolveConcrete extends' n (path ++ [r]) r') [r']
          (expand extends' n (path ++ [r]) r') (path ++ [r]) known s)
    (hs : Stands extends' s path known) :
    Follows extends' (resolveConcrete extends' (n + 1) path r) [r]
      (expand extends' (n + 1) path r) path known s := by
  obtain ⟨held, hheld⟩ := hs.cached
  have hlookup := lookup_eq_none hcached
  have hnew : r ∉ known := fun hmem => ((hs.known r).mp hmem).elim hcached hpath
  have hcounted : Stands extends' { s with steps := s.steps + 1 } (path ++ [r])
      (r :: known) := by
    refine ⟨⟨held, hheld⟩, fun x hx => ?_, fun x => ?_⟩
    · rcases List.mem_append.mp hx with hx | hx
      · exact hs.apart x hx
      · exact List.mem_singleton.mp hx ▸ hcached
    · rw [List.mem_cons, hs.known x, List.mem_append, List.mem_singleton]
      tauto
  unfold Follows
  rw [run_resolveConcrete_succ hlookup hpath]
  by_cases hbudget : s.steps + 1 > Limits.maxCapabilityResolutionSteps
  · obtain ⟨x, hx⟩ := expand_succ extends' n hpath
    have hverdict : (expand extends' (n + 1) path r).verdict known s.steps =
        .error .capabilityWorkBudgetExceeded := by
      rw [hx]
      simp only [Expansion.verdict, meetAll, if_neg hnew, if_neg (Nat.not_lt.mpr hdepth),
        if_pos hbudget]
    rw [if_pos hbudget, hverdict]
    exact ⟨_, rfl, rfl, held, hheld⟩
  · have hcount : s.steps + 1 ≤ Limits.maxCapabilityResolutionSteps := by omega
    rw [if_neg hbudget, expand, if_neg hpath]
    cases hfilter : extends'.filter (answers r) with
    | nil =>
      have hverdict := verdict_cons (x := ⟨[], some .missingCapability⟩) hnew hdepth hcount
      rw [hverdict]
      refine ⟨{ s with
        steps := s.steps + 1
        diagnostics := s.diagnostics ++ [.missingCapability] }, ?_, rfl, held, hheld⟩
      unfold selectExtension
      rw [hfilter]
      rfl
    | cons e others =>
      cases others with
      | cons e' others =>
        have hverdict := verdict_cons (x := ⟨[], some .ambiguousCapability⟩) hnew hdepth
          hcount
        rw [hverdict]
        refine ⟨{ s with
          steps := s.steps + 1
          diagnostics := s.diagnostics ++ [.ambiguousCapability] }, ?_, rfl, held, hheld⟩
        unfold selectExtension
        rw [hfilter]
        rfl
      | nil =>
        have hin : e ∈ extends'.filter (answers r) := hfilter ▸ List.mem_singleton_self e
        obtain ⟨hmem, hanswers⟩ := List.mem_filter.mp hin
        have hsome : (matchExtendHead e.protocolArguments r.arguments).isSome = true := by
          rw [answers, Bool.and_eq_true] at hanswers
          exact hanswers.2
        obtain ⟨σ, hmatch⟩ := Option.isSome_iff_exists.mp hsome
        have hselect := selectExtension_follows hfilter hmatch
          (f := expand extends' n (path ++ [r])) (fun r' hr' {known s} hs' =>
            ih (nested_not_symbolic (hdecl e hmem) hr hmatch hr') hs') hcounted
        simp only [hmatch, Option.map_some, Option.getD_some]
        rw [verdict_cons hnew hdepth hcount, StateT.run_bind]
        unfold Follows at hselect
        generalize hverdict : (expandEach (expand extends' n (path ++ [r]))
          (nestedRequirements e σ)).verdict (r :: known) (s.steps + 1) = verdict at hselect ⊢
        cases verdict with
        | error code =>
          obtain ⟨s', hrun, hreported, hheld'⟩ := hselect
          rw [hrun]
          exact ⟨s', rfl, hreported, hheld'⟩
        | ok end' =>
          obtain ⟨known', count'⟩ := end'
          obtain ⟨evidence, s', hrun, hsteps, hsilent, hs', hresolved, hkept⟩ := hselect
          obtain ⟨held', hheld'⟩ := hs'.cached
          have hknown : Known extends' (r :: held') := .cons hheld'.1 hr hfilter hmatch
            fun r' hr' => (hheld'.2 r').mpr (hresolved r' hr')
          rw [hrun]
          refine ⟨evidence, { s' with cache := s'.cache.insert r evidence }, rfl, hsteps,
            hsilent, ⟨⟨_, hheld'.insert hknown evidence⟩, fun x hx => ?_, fun x => ?_⟩, ?_,
            fun x hx => ?_⟩
          · have hne : x ≠ r := fun heq => hpath (heq ▸ hx)
            rw [AList.mem_insert, not_or]
            exact ⟨hne, hs'.apart x (List.mem_append_left _ hx)⟩
          · rw [hs'.known x, AList.mem_insert, List.mem_append, List.mem_singleton]
            tauto
          · simp
          · exact (AList.mem_insert _).mpr (.inr (hkept x hx))

/-- The solver follows the expansion of a requirement, from wherever it stands, by
induction on the depth that remains. -/
theorem resolveConcrete_follows (hdecl : ∀ e ∈ extends', e.Declares) {n : ℕ}
    {r : CapabilityRequirement} (hn : n + path.length = Limits.maxCapabilityDepth + 1)
    (hr : requirementIsSymbolic r = false) (hs : Stands extends' s path known) :
    Follows extends' (resolveConcrete extends' n path r) [r] (expand extends' n path r) path known
      s := by
  induction n generalizing path r known s with
  | zero =>
    by_cases hcached : r ∈ s.cache
    · exact resolveConcrete_follows_cached hcached hs
    · by_cases hpath : r ∈ path
      · exact resolveConcrete_follows_cyclic hpath hs
      · exact resolveConcrete_follows_deep hcached hpath (by omega) hs
  | succ n ih =>
    by_cases hcached : r ∈ s.cache
    · exact resolveConcrete_follows_cached hcached hs
    · by_cases hpath : r ∈ path
      · exact resolveConcrete_follows_cyclic hpath hs
      · have hlength : n + (path ++ [r]).length = Limits.maxCapabilityDepth + 1 := by
          rw [List.length_append, List.length_singleton]
          omega
        exact resolveConcrete_follows_succ hdecl hr hcached hpath (by omega)
          (fun hr' hs' => ih hlength hr' hs') hs

/-! ### Calls -/

variable {own held : List CapabilityRequirement} {r : CapabilityRequirement}

theorem Holds.stands (h : Holds extends' s held) : Stands extends' { s with steps := 0 } [] held :=
  ⟨⟨held, h⟩, by simp, fun x => by simpa using h.2 x⟩

/-- What a call has for an outcome is read off the expansion, and what is cached. -/
def CallFollows (extends' : List ExtendInfo) (s : SolverState) (r : CapabilityRequirement)
    (own held : List CapabilityRequirement) : Prop :=
  match (expansion extends' r).verdict held 0 with
  | .error code => outcome (resolveRequirement extends' r own) s = (none, [code]) ∧
      ∃ held', Holds extends' ((resolveRequirement extends' r own).run s).2 held'
  | .ok (known, _) => ∃ e s', (resolveRequirement extends' r own).run s = (some e, s') ∧
      outcome (resolveRequirement extends' r own) s = (some e, []) ∧
      (∃ held', Holds extends' s' held') ∧ (∀ x, x ∈ known ↔ x ∈ s'.cache) ∧ r ∈ s'.cache

theorem resolveRequirement_follows (hdecl : ∀ e ∈ extends', e.Declares)
    (hr : requirementIsSymbolic r = false) (hown : r ∉ own) (h : Holds extends' s held) :
    CallFollows extends' s r own held := by
  have hrun : (resolveRequirement extends' r own).run s =
      (resolveConcrete extends' (Limits.maxCapabilityDepth + 1) [] r).run
        { s with steps := 0 } := by
    unfold resolveRequirement
    rw [if_neg hown, hr]
    rfl
  have hdepth : Limits.maxCapabilityDepth + 1 + ([] : List CapabilityRequirement).length =
      Limits.maxCapabilityDepth + 1 := rfl
  have hfollows := resolveConcrete_follows hdecl hdepth hr h.stands
  unfold Follows at hfollows
  unfold CallFollows outcome
  rw [hrun, expansion]
  dsimp only at hfollows
  cases hverdict : (expand extends' (Limits.maxCapabilityDepth + 1) [] r).verdict held 0 with
  | error code =>
    simp only [hverdict] at hfollows ⊢
    obtain ⟨s', hsolved, hreported, hheld⟩ := hfollows
    rw [hsolved]
    refine ⟨?_, hheld⟩
    simp only [hreported, List.drop_left]
  | ok end' =>
    simp only [hverdict] at hfollows ⊢
    obtain ⟨e, s', hsolved, _, hsilent, hs', hresolved, _⟩ := hfollows
    refine ⟨e, s', hsolved, ?_, hs'.cached, fun x => by simpa using hs'.known x,
      hresolved r (List.mem_singleton_self r)⟩
    rw [hsolved]
    simp only [hsilent, List.drop_length]

theorem Reached.holds (hdecl : ∀ e ∈ extends', e.Declares) (h : Reached extends' s) :
    ∃ held, Holds extends' s held := by
  induction h with
  | start => exact ⟨[], .nil, fun r => by simp⟩
  | @resolve s r own _ ih =>
    obtain ⟨held, hheld⟩ := ih
    by_cases hown : r ∈ own
    · unfold resolveRequirement
      rw [if_pos hown]
      exact ⟨held, hheld⟩
    · cases hr : requirementIsSymbolic r with
      | true =>
        unfold resolveRequirement
        rw [if_neg hown, hr]
        exact ⟨held, hheld⟩
      | false =>
        have hcall := resolveRequirement_follows hdecl hr hown hheld
        unfold CallFollows at hcall
        split at hcall
        · exact hcall.2
        · obtain ⟨e, s', hrun, _, hheld', _⟩ := hcall
          rw [hrun]
          exact hheld'

theorem Known.reached (hdecl : ∀ e ∈ extends', e.Declares) (h : Known extends' held) :
    ∃ s, Reached extends' s ∧ Holds extends' s held := by
  induction h with
  | nil => exact ⟨{}, .start, .nil, fun r => by simp⟩
  | @cons held r e σ hknown hr hone hmatch hnested ih =>
    obtain ⟨s, hreached, hholds⟩ := ih
    have hall : Known extends' (r :: held) := .cons hknown hr hone hmatch hnested
    have hinside : Inside (r :: held) (expansion extends' r) :=
      hall.inside List.mem_cons_self (by simp)
    have hcall := resolveRequirement_follows hdecl hr List.not_mem_nil hholds
    refine ⟨_, hreached.resolve r [], hall, ?_⟩
    have hverdict : ∃ known count, (expansion extends' r).verdict held 0 = .ok (known, count) ∧
        ∀ x, x ∈ known ↔ x ∈ r :: held := by
      by_cases hin : r ∈ held
      · have hold : Inside held (expansion extends' r) := hknown.inside hin (by simp)
        refine ⟨held, 0, ?_, fun x => ?_⟩
        · rw [Expansion.verdict, meetAll_of_known hold.2, hold.1]
        · rw [List.mem_cons]
          exact ⟨.inr, fun hx => hx.elim (fun heq => heq ▸ hin) id⟩
      · obtain ⟨x, hx⟩ := expand_succ extends' Limits.maxCapabilityDepth
          (List.not_mem_nil (a := r))
        have hexpansion : expansion extends' r = ⟨(r, 0) :: x.met, x.broken⟩ := hx
        rw [hexpansion] at hinside ⊢
        refine ⟨r :: held, 1, ?_, fun x => Iff.rfl⟩
        have hmet : ∀ p ∈ x.met, p.1 ∈ r :: held := fun p hp =>
          hinside.2 p (List.mem_cons_of_mem _ hp)
        rw [verdict_cons hin (by decide) (by decide), Expansion.verdict, meetAll_of_known hmet,
          hinside.1]
    obtain ⟨known, count, hverdict, hsame⟩ := hverdict
    unfold CallFollows at hcall
    rw [hverdict] at hcall
    obtain ⟨e, s', hrun, _, _, hcached, _⟩ := hcall
    rw [hrun]
    exact fun x => (hsame x).symm.trans (hcached x)

theorem derivesAll_unique {rs : List CapabilityRequirement}
    (h : ∀ r ∈ rs, ∀ e e', Derives extends' e r → Derives extends' e' r → e = e')
    {es es' : List Evidence} (hes : DerivesAll extends' es rs) (hes' : DerivesAll extends' es' rs) :
    es = es' := by
  induction rs generalizing es es' with
  | nil =>
    have hnil (l : List Evidence) (hl : DerivesAll extends' l []) : l = [] := by
      cases l with
      | nil => rfl
      | cons n ns =>
        obtain ⟨_, _, heq, _⟩ := hl
        cases heq
    rw [hnil es hes, hnil es' hes']
  | cons r rs ih =>
    have hcons (l : List Evidence) (hl : DerivesAll extends' l (r :: rs)) :
        ∃ n ns, l = n :: ns ∧ Derives extends' n r ∧ DerivesAll extends' ns rs := by
      cases l with
      | nil => cases hl
      | cons n ns =>
        obtain ⟨_, _, heq, hone, hrest⟩ := hl
        cases heq
        exact ⟨n, ns, rfl, hone, hrest⟩
    obtain ⟨n, ns, rfl, hone, hrest⟩ := hcons es hes
    obtain ⟨n', ns', rfl, hone', hrest'⟩ := hcons es' hes'
    rw [h r List.mem_cons_self n n' hone hone',
      ih (fun x hx => h x (List.mem_cons_of_mem _ hx)) hrest hrest']

theorem Known.unique (h : Known extends' held) (hr : r ∈ held) {e e' : Evidence}
    (he : Derives extends' e r) (he' : Derives extends' e' r) : e = e' := by
  induction h generalizing r e e' with
  | nil => cases hr
  | @cons held r₀ x σ hknown _ hone hmatch hnested ih =>
    rcases List.mem_cons.mp hr with rfl | hin
    · have hderived (e : Evidence) (he : Derives extends' e r) : ∃ nested,
          e = .extension x.id nested ∧ DerivesAll extends' nested (nestedRequirements x σ) := by
        cases e with
        | forwarded index => exact he.elim
        | extension extend nested =>
          obtain ⟨y, hmem, hid, hprotocol, σ', hmatch', hall⟩ := he
          have hy : y ∈ extends'.filter (answers r) :=
            List.mem_filter.mpr ⟨hmem, by simp [answers, hprotocol, hmatch']⟩
          rw [hone, List.mem_singleton] at hy
          subst hy
          rw [hmatch] at hmatch'
          cases hmatch'
          exact ⟨nested, by rw [hid], hall⟩
      obtain ⟨nested, rfl, hnested'⟩ := hderived e he
      obtain ⟨nested', rfl, hnested''⟩ := hderived e' he'
      rw [derivesAll_unique (fun r' hr' _ _ => ih (hnested r' hr')) hnested' hnested'']
    · exact ih hin he he'

theorem outcome_derives (h : Reached extends' s) (hown : r ∉ own) {e : Evidence}
    {codes : List CapabilityCode}
    (hrun : outcome (resolveRequirement extends' r own) s = (some e, codes)) :
    Derives extends' e r := by
  obtain ⟨answer, s', hanswer, hright, _⟩ := resolveRequirement_keeps r own s h.cacheRight
  unfold outcome at hrun
  rw [hanswer] at hrun
  cases hrun
  exact ((hright e rfl).resolve_left fun hforwarded => hown hforwarded.1).2

section
variable (hdecl : ∀ e ∈ extends', e.Declares) (hr : requirementIsSymbolic r = false)
  (hown : r ∉ own) (hreached : Reached extends' s) (hheld : Holds extends' s held)
include hdecl hr hown hheld

theorem outcome_of_error {code : CapabilityCode}
    (h : (expansion extends' r).verdict held 0 = .error code) :
    outcome (resolveRequirement extends' r own) s = (none, [code]) := by
  have hcall := resolveRequirement_follows hdecl hr hown hheld
  unfold CallFollows at hcall
  rw [h] at hcall
  exact hcall.1

theorem outcome_of_overrun {code : CapabilityCode}
    (h : (expansion extends' r).overrun held = some code) :
    outcome (resolveRequirement extends' r own) s = (none, [code]) := by
  refine outcome_of_error hdecl hr hown hheld ?_
  unfold Expansion.overrun at h
  unfold Expansion.verdict
  split at h
  · cases h
  · rename_i hmet
    cases h
    rw [hmet]

theorem outcome_of_broken {code : CapabilityCode}
    (h : (expansion extends' r).overrun held = none)
    (hbroken : (expansion extends' r).broken = some code) :
    outcome (resolveRequirement extends' r own) s = (none, [code]) := by
  refine outcome_of_error hdecl hr hown hheld ?_
  unfold Expansion.overrun at h
  unfold Expansion.verdict
  split at h
  · rename_i hmet
    rw [hmet, hbroken]
  · cases h

include hreached

theorem outcome_of_whole (h : (expansion extends' r).overrun held = none)
    (hbroken : (expansion extends' r).broken = none) :
    ∃ e known, outcome (resolveRequirement extends' r own) s = (some e, []) ∧
      Derives extends' e r ∧ Known extends' known ∧ r ∈ known := by
  have hcall := resolveRequirement_follows hdecl hr hown hheld
  obtain ⟨end', hverdict⟩ : ∃ end', (expansion extends' r).verdict held 0 = .ok end' := by
    unfold Expansion.overrun at h
    unfold Expansion.verdict
    split at h
    · rename_i end' hmet
      rw [hmet, hbroken]
      exact ⟨end', rfl⟩
    · cases h
  unfold CallFollows at hcall
  rw [hverdict] at hcall
  obtain ⟨e, s', _, houtcome, ⟨known, hknown⟩, _, hin⟩ := hcall
  exact ⟨e, known, houtcome, outcome_derives hreached hown houtcome, hknown.1,
    (hknown.2 r).mpr hin⟩

end

theorem overrun_eq_none (h : (expansion extends' r).overrun [] = none) :
    (expansion extends' r).overrun held = none := by
  unfold Expansion.overrun at h ⊢
  split at h
  · rename_i end' hmet
    have hless : ∀ x ∈ ([] : List CapabilityRequirement), x ∈ held := by simp
    obtain ⟨end'', hmet'⟩ := meetAll_mono hless le_rfl hmet
    rw [hmet']
  · cases h

/-- A requirement has one outcome, whatever was resolved before it, exactly when it is
forwarded, or walking its expansion overruns no limit, or one and the same limit is overrun
whatever satisfiable requirements are known from before. -/
theorem history_independent_iff (hdecl : ∀ e ∈ extends', e.Declares)
    (hr : requirementIsSymbolic r = false) :
    HistoryIndependent extends' r own ↔
      r ∈ own ∨ (expansion extends' r).overrun [] = none ∨
        ∃ limit, ∀ known, Known extends' known →
          (expansion extends' r).overrun known = some limit := by
  have hstart : Holds extends' {} [] := ⟨.nil, fun r => by simp⟩
  by_cases hown : r ∈ own
  · refine ⟨fun _ => .inl hown, fun _ s _ => ?_⟩
    have hforwarded (s : SolverState) : outcome (resolveRequirement extends' r own) s =
        (some (.forwarded (own.idxOf r)), []) := by
      unfold outcome resolveRequirement
      rw [if_pos hown]
      exact Prod.ext rfl List.drop_length
    rw [hforwarded, hforwarded]
  · constructor
    · intro hsame
      refine .inr ?_
      cases hfirst : (expansion extends' r).overrun [] with
      | none => exact .inl rfl
      | some limit =>
        refine .inr ⟨limit, fun known hknown => ?_⟩
        have hlimit : limit = .capabilityDepthExceeded ∨ limit = .capabilityWorkBudgetExceeded := by
          unfold Expansion.overrun at hfirst
          split at hfirst
          · cases hfirst
          · rename_i hmet
            cases hfirst
            exact meetAll_error hmet
        obtain ⟨s, hreached, hheld⟩ := hknown.reached hdecl
        have heq := hsame s hreached
        rw [outcome_of_overrun hdecl hr hown hstart hfirst] at heq
        cases hlater : (expansion extends' r).overrun known with
        | some limit' =>
          rw [outcome_of_overrun hdecl hr hown hheld hlater] at heq
          cases heq
          rfl
        | none =>
          exfalso
          cases hbroken : (expansion extends' r).broken with
          | some code =>
            rw [outcome_of_broken hdecl hr hown hheld hlater hbroken] at heq
            cases heq
            have hother := broken_expand _ _ _ limit hbroken
            exact hlimit.elim hother.1 hother.2
          | none =>
            obtain ⟨e, _, houtcome, _⟩ :=
              outcome_of_whole hdecl hr hown hreached hheld hlater hbroken
            rw [houtcome] at heq
            cases heq
    · intro hcase s hreached
      obtain ⟨held, hheld⟩ := hreached.holds hdecl
      rcases hcase with hmem | hwithin | ⟨limit, halways⟩
      · exact absurd hmem hown
      · have hlater : (expansion extends' r).overrun held = none := overrun_eq_none hwithin
        cases hbroken : (expansion extends' r).broken with
        | some code =>
          rw [outcome_of_broken hdecl hr hown hheld hlater hbroken,
            outcome_of_broken hdecl hr hown hstart hwithin hbroken]
        | none =>
          obtain ⟨e, _, houtcome, hderives, _⟩ :=
            outcome_of_whole hdecl hr hown hreached hheld hlater hbroken
          obtain ⟨e', known, houtcome', hderives', hknown, hin⟩ :=
            outcome_of_whole hdecl hr hown .start hstart hwithin hbroken
          rw [houtcome, houtcome', hknown.unique hin hderives hderives']
      · rw [outcome_of_overrun hdecl hr hown hheld (halways held hheld.1),
          outcome_of_overrun hdecl hr hown hstart (halways [] .nil)]

end

/-! ### A long chain -/

/-- Each protocol is extended for `i64` by what the next one is extended by. -/
def chainExtension (i : ℕ) : ExtendInfo where
  id := ⟨100 + i⟩
  typeParams := []
  protocol := ⟨i⟩
  protocolArguments := [.i64]
  requirements := if i < 65 then [⟨⟨i + 1⟩, [.i64]⟩] else []

def chainExtensions : List ExtendInfo := (List.range 66).map chainExtension

def chainRequirement (i : ℕ) : CapabilityRequirement := ⟨⟨i⟩, [.i64]⟩

theorem chainExtensions_declares : ∀ e ∈ chainExtensions, e.Declares := by
  intro e he
  obtain ⟨i, _, rfl⟩ := List.mem_map.mp he
  have hwritten : Ty.Written .i64 := ⟨by simp [Ty.leaves], rfl⟩
  have hrequired : ∀ r ∈ (chainExtension i).requirements, r = chainRequirement (i + 1) := by
    intro r hr
    unfold chainExtension at hr
    split at hr
    · exact List.mem_singleton.mp hr
    · cases hr
  refine ⟨by simpa [chainExtension] using hwritten, by simp [chainExtension], ?_, ?_⟩
  · intro r hr a ha
    rw [hrequired r hr] at ha
    exact List.mem_singleton.mp ha ▸ hwritten
  · intro r hr a ha id hid
    rw [hrequired r hr] at ha
    obtain rfl := List.mem_singleton.mp ha
    simp [Ty.leaves] at hid

/-- The head of the chain is too deep at first, and is satisfied once what it requires
has been. -/
theorem chain_depends_on_history :
    outcome (resolveRequirement chainExtensions (chainRequirement 0) []) {} =
      (none, [.capabilityDepthExceeded]) ∧
    (∃ s, Reached chainExtensions s ∧
      (outcome (resolveRequirement chainExtensions (chainRequirement 0) []) s).1.isSome = true) ∧
    ¬ HistoryIndependent chainExtensions (chainRequirement 0) [] := by
  have hfirst : outcome (resolveRequirement chainExtensions (chainRequirement 0) []) {} =
      (none, [.capabilityDepthExceeded]) := by
    have hanswer : (outcome (resolveRequirement chainExtensions (chainRequirement 0) [])
        {}).1.isNone = true := by decide +kernel
    have hreported : (outcome (resolveRequirement chainExtensions (chainRequirement 0) [])
        {}).2 = [.capabilityDepthExceeded] := by decide +kernel
    exact Prod.ext (Option.isNone_iff_eq_none.mp hanswer) hreported
  have hreached : Reached chainExtensions
      ((resolveRequirement chainExtensions (chainRequirement 1) []).run {}).2 := .resolve _ [] .start
  have hlater : (outcome (resolveRequirement chainExtensions (chainRequirement 0) [])
      ((resolveRequirement chainExtensions (chainRequirement 1) []).run {}).2).1.isSome = true := by
    decide +kernel
  refine ⟨hfirst, ⟨_, hreached, hlater⟩, fun hsame => ?_⟩
  rw [hsame _ hreached, hfirst] at hlater
  cases hlater

theorem history_independent_iff_chain :
    HistoryIndependent chainExtensions (chainRequirement 1) [] ↔
      chainRequirement 1 ∈ ([] : List CapabilityRequirement) ∨
        (expansion chainExtensions (chainRequirement 1)).overrun [] = none ∨
        ∃ limit, ∀ known, Known chainExtensions known →
          (expansion chainExtensions (chainRequirement 1)).overrun known = some limit :=
  history_independent_iff chainExtensions_declares rfl

end Napitia.Typeck
