import Napitia.Hir.Scoping

/-!
# Bare case patterns

Name resolution gives every identifier of a pattern a local, before the type checker tells which
of them name a case without a payload. The arm is compared with the one where cases bind nothing.
-/
namespace Napitia.Hir.Scoping
open Lower (LocalId)
open Napitia.Parser

/-- The uses of one name. -/
def ofName (x : String) (uses : List Use) : List Use := uses.filter fun use => use.name = x

mutual

/-- The name is looked up before the steps define it themselves. -/
def Step.uses (x : String) : Step → Bool
  | .use _ name => name = x
  | .define _ => false
  | .scope inner => usedFree x inner

def usedFree (x : String) : List Step → Bool
  | [] => false
  | .define name :: rest => name ≠ x && usedFree x rest
  | step :: rest => step.uses x || usedFree x rest

end

/-! ### Two lowerings of the same steps -/

section
variable {t : Tables} {x : String} {r₁ r₀ : Resolver}

/-- The same locals are minted next, and the name is found as the same one. -/
def Alike (x : String) (r₁ r₀ : Resolver) : Prop :=
  r₁.nextLocal = r₀.nextLocal ∧ r₁.scopes.lookup x = r₀.scopes.lookup x

/-- The same locals are minted next, and the name is found as different ones. -/
def Apart (x : String) (r₁ r₀ : Resolver) : Prop :=
  r₁.nextLocal = r₀.nextLocal ∧ r₁.scopes.lookup x ≠ r₀.scopes.lookup x

theorem alike_define (h : r₁.nextLocal = r₀.nextLocal) :
    Alike x (r₁.define x) (r₀.define x) := by
  refine ⟨congrArg (· + 1) h, ?_⟩
  simp only [Resolver.define, Scopes.lookup_define_self, h]

theorem Alike.define (h : Alike x r₁ r₀) (y : String) : Alike x (r₁.define y) (r₀.define y) := by
  by_cases hy : x = y
  · subst hy
    exact alike_define h.1
  · refine ⟨congrArg (· + 1) h.1, ?_⟩
    simp only [Resolver.define, Scopes.lookup_define_of_ne _ _ hy]
    exact h.2

theorem Apart.define {y : String} (h : Apart x r₁ r₀) (hy : y ≠ x) :
    Apart x (r₁.define y) (r₀.define y) := by
  refine ⟨congrArg (· + 1) h.1, ?_⟩
  simp only [Resolver.define, Scopes.lookup_define_of_ne _ _ hy.symm]
  exact h.2

theorem Alike.push (h : Alike x r₁ r₀) : Alike x r₁.push r₀.push :=
  ⟨h.1, by simpa [Resolver.push] using h.2⟩

theorem Apart.push (h : Apart x r₁ r₀) : Apart x r₁.push r₀.push :=
  ⟨h.1, by simpa [Resolver.push] using h.2⟩

theorem length_ofName (uses : List Use) :
    (ofName x uses).length = (uses.map Use.name).count x := by
  rw [ofName, ← List.countP_eq_length_filter, List.count_eq_countP, List.countP_map]
  rfl

theorem ofName_append (uses more : List Use) :
    ofName x (uses ++ more) = ofName x uses ++ ofName x more := List.filter_append ..

mutual

theorem Step.lower_alike : ∀ (step : Step) {r₁ r₀ : Resolver}, Alike x r₁ r₀ →
    Alike x (step.lower t r₁).1 (step.lower t r₀).1 ∧
      ofName x (step.lower t r₁).2 = ofName x (step.lower t r₀).2
  | .use site name, r₁, r₀, h => by
    refine ⟨h, ?_⟩
    by_cases hname : name = x
    · subst hname
      simp only [Step.lower, h.2]
    · simp [Step.lower, ofName, hname]
  | .define name, _, _, h => ⟨h.define name, rfl⟩
  | .scope inner, r₁, r₀, h => by
    obtain ⟨hinner, huses⟩ := lowerAll_alike inner h.push
    refine ⟨⟨hinner.1, ?_⟩, huses⟩
    rw [scopes_lower_scope, scopes_lower_scope]
    exact h.2

theorem lowerAll_alike : ∀ (steps : List Step) {r₁ r₀ : Resolver}, Alike x r₁ r₀ →
    Alike x (lowerAll t steps r₁).1 (lowerAll t steps r₀).1 ∧
      ofName x (lowerAll t steps r₁).2 = ofName x (lowerAll t steps r₀).2
  | [], _, _, h => ⟨h, rfl⟩
  | step :: rest, _, _, h => by
    obtain ⟨hstep, huses⟩ := step.lower_alike h
    obtain ⟨hrest, hmore⟩ := lowerAll_alike rest hstep
    refine ⟨hrest, ?_⟩
    simp only [lowerAll, ofName_append]
    rw [huses, hmore]

end

theorem ofName_lowerAll_cons (step : Step) (rest : List Step) (r₁ r₀ : Resolver) :
    ofName x (lowerAll t (step :: rest) r₁).2 = ofName x (lowerAll t (step :: rest) r₀).2 ↔
      ofName x (step.lower t r₁).2 = ofName x (step.lower t r₀).2 ∧
        ofName x (lowerAll t rest (step.lower t r₁).1).2 =
          ofName x (lowerAll t rest (step.lower t r₀).1).2 := by
  simp only [lowerAll, ofName_append]
  constructor
  · intro h
    refine List.append_inj h ?_
    rw [length_ofName, length_ofName, step.lower_names r₁ r₀]
  · rintro ⟨hstep, hrest⟩
    rw [hstep, hrest]

mutual

theorem Step.lower_apart : ∀ (step : Step) {r₁ r₀ : Resolver}, Apart x r₁ r₀ →
    (step ≠ .define x → Apart x (step.lower t r₁).1 (step.lower t r₀).1) ∧
      (ofName x (step.lower t r₁).2 = ofName x (step.lower t r₀).2 ↔ step.uses x = false)
  | .use site name, r₁, r₀, h => by
    refine ⟨fun _ => h, ?_⟩
    by_cases hname : name = x
    · subst hname
      simpa [Step.lower, ofName, Step.uses, t.refersTo_inj] using h.2
    · simp [Step.lower, ofName, Step.uses, hname]
  | .define name, _, _, h => by
    refine ⟨fun hne => h.define fun heq => hne (by rw [heq]), ?_⟩
    simp [Step.lower, ofName, Step.uses]
  | .scope inner, r₁, r₀, h => by
    obtain ⟨hnext, huses⟩ := lowerAll_apart inner h.push
    refine ⟨fun _ => ⟨hnext, ?_⟩, huses⟩
    rw [scopes_lower_scope, scopes_lower_scope]
    exact h.2

theorem lowerAll_apart : ∀ (steps : List Step) {r₁ r₀ : Resolver}, Apart x r₁ r₀ →
    (lowerAll t steps r₁).1.nextLocal = (lowerAll t steps r₀).1.nextLocal ∧
      (ofName x (lowerAll t steps r₁).2 = ofName x (lowerAll t steps r₀).2 ↔
        usedFree x steps = false)
  | [], _, _, h => ⟨h.1, by simp [lowerAll, usedFree]⟩
  | .define name :: rest, r₁, r₀, h => by
    rw [ofName_lowerAll_cons]
    by_cases hname : name = x
    · subst hname
      obtain ⟨hrest, huses⟩ := lowerAll_alike (t := t) rest (alike_define (x := name) h.1)
      refine ⟨hrest.1, ?_⟩
      simpa [Step.lower, usedFree] using huses
    · obtain ⟨hnext, huses⟩ := lowerAll_apart rest (h.define hname)
      refine ⟨hnext, ?_⟩
      simpa [Step.lower, usedFree, hname] using huses
  | .use site name :: rest, r₁, r₀, h => by
    obtain ⟨hout, hstep⟩ := (Step.use site name).lower_apart h
    obtain ⟨hnext, huses⟩ := lowerAll_apart rest (hout fun h => by cases h)
    refine ⟨hnext, ?_⟩
    rw [ofName_lowerAll_cons, hstep, huses]
    simp [usedFree]
  | .scope inner :: rest, r₁, r₀, h => by
    obtain ⟨hout, hstep⟩ := (Step.scope inner).lower_apart h
    obtain ⟨hnext, huses⟩ := lowerAll_apart rest (hout fun h => by cases h)
    refine ⟨hnext, ?_⟩
    rw [ofName_lowerAll_cons, hstep, huses]
    simp [usedFree]

end

end

/-! ### Which identifiers are cases -/

structure VariantInfo where
  typeParams : List TypeParamId
  cases : List (String × List Ty)

/-- What the type checker knows at a pattern: what types resolve to, and the variants. -/
structure Inference where
  resolve : Ty → Ty
  variants : ItemId → Option VariantInfo

namespace Inference
variable (I : Inference)

/-- The case without a payload that an identifier names at a type. -/
def caseOf (ty : Ty) (name : String) : Option (ItemId × ℕ) :=
  match I.resolve ty with
  | .named item | .applied item _ => do
    let info ← I.variants item
    let index ← info.cases.findIdx? fun entry => entry.1 = name && entry.2.isEmpty
    pure (item, index)
  | _ => none

/-- The variant of a type, with what its parameters stand for. -/
def instantiation (ty : Ty) : Option (VariantInfo × Subst) :=
  match I.resolve ty with
  | .named item => (I.variants item).map fun info => (info, ∅)
  | .applied item args => do
    let info ← I.variants item
    let subst ← checkedSubstitution info.typeParams args
    pure (info, subst)
  | _ => none

/-- The types the arguments of a case pattern are checked at. -/
def payload (ty : Ty) (name : String) : List Ty :=
  match I.instantiation ty with
  | none => []
  | some (info, subst) =>
    (((info.cases.find? fun entry => entry.1 = name).map (·.2)).getD []).map (substitute · subst)

mutual

/-- The identifiers of a pattern, with whether each is taken for a case. An argument beyond the
payload, or of no case at all, is checked at the type of an error. -/
def checkPattern : ℕ → Pattern → Ty → List (String × Bool)
  | depth, .ident name, ty =>
    if depth > Limits.maxPatternDepth then [] else [(name, (I.caseOf ty name).isSome)]
  | depth, .variant name args, ty =>
    if depth > Limits.maxPatternDepth then [] else checkPatterns (depth + 1) args (I.payload ty name)
  | _, _, _ => []

def checkPatterns : ℕ → List Pattern → List Ty → List (String × Bool)
  | _, [], _ => []
  | depth, pattern :: rest, tys =>
    checkPattern depth pattern (tys.headD .error) ++ checkPatterns depth rest tys.tail

end

mutual

theorem checkPattern_names : ∀ (depth : ℕ) (pattern : Pattern) (ty : Ty),
    (I.checkPattern depth pattern ty).map Prod.fst = patternIdents depth pattern
  | depth, .ident name, ty => by
    unfold checkPattern patternIdents
    split <;> rfl
  | depth, .variant name args, ty => by
    unfold checkPattern patternIdents
    split
    · rfl
    · exact checkPatterns_names (depth + 1) args _
  | _, .wildcard, _ | _, .int _, _ | _, .str _, _ | _, .char _, _ | _, .bool _, _ => by
    simp [checkPattern, patternIdents]

theorem checkPatterns_names : ∀ (depth : ℕ) (patterns : List Pattern) (tys : List Ty),
    (I.checkPatterns depth patterns tys).map Prod.fst = patternsIdents depth patterns
  | _, [], _ => rfl
  | depth, pattern :: rest, tys => by
    unfold checkPatterns patternsIdents
    rw [List.map_append, checkPattern_names depth pattern, checkPatterns_names depth rest]

end

end Inference

/-! ### Arms -/

/-- An arm of a `match` on a value of some type, or of a `handle`. -/
inductive Arm where
  | matched (arm : MatchArm) (scrutinee : Ty)
  | handled (arm : HandleArm)

namespace Arm

def names : Arm → List String
  | .matched (.mk pattern _) _ => patternIdents 0 pattern
  | .handled (.success pattern _) => patternIdents 0 pattern
  | .handled (.failure pattern _) => failureIdents pattern

def body : Arm → List Step
  | .matched (.mk _ body) _ => bodySteps body
  | .handled (.success _ body) => bodySteps body
  | .handled (.failure _ body) => bodySteps body

/-- The identifiers, with whether each is taken for a case: in a `handle` every one binds. -/
def identifiers (I : Inference) : Arm → List (String × Bool)
  | .matched (.mk pattern _) ty => I.checkPattern 0 pattern ty
  | .handled arm => (names (.handled arm)).map fun name => (name, false)

theorem identifiers_names (I : Inference) (arm : Arm) :
    (arm.identifiers I).map Prod.fst = arm.names := by
  cases arm with
  | matched arm ty =>
    obtain ⟨pattern, body⟩ := arm
    exact I.checkPattern_names 0 pattern ty
  | handled arm =>
    rw [identifiers, List.map_map]
    exact List.map_id _

end Arm

/-! ### Lowering an arm -/

/-- A pattern being lowered: the names bound so far, and those reported as bound twice. -/
structure PatternState where
  resolver : Resolver
  bound : List String
  reported : List String

namespace PatternState

def start (r : Resolver) : PatternState := ⟨r.push, [], []⟩

def lowerIdent (s : PatternState) (name : String) : PatternState where
  resolver := s.resolver.define name
  bound := if name ∈ s.bound then s.bound else name :: s.bound
  reported := if name ∈ s.bound then s.reported ++ [name] else s.reported

/-- An identifier lowered as the documentation of the pattern has it: a case binds nothing. -/
def bindIdent (s : PatternState) (ident : String × Bool) : PatternState :=
  if ident.2 then { s with resolver := s.resolver.mint } else s.lowerIdent ident.1

end PatternState

namespace Arm
variable (t : Tables) (I : Inference) (arm : Arm) (r : Resolver)

/-- The names reported as bound twice, and what the body's names refer to. -/
def lower : List String × List Use :=
  let s := arm.names.foldl PatternState.lowerIdent (.start r)
  (s.reported, (lowerAll t arm.body s.resolver).2)

/-- The same where cases bind nothing. -/
def lowerBinding : List String × List Use :=
  let s := (arm.identifiers I).foldl PatternState.bindIdent (.start r)
  (s.reported, (lowerAll t arm.body s.resolver).2)

/-- What an arm asks of the scopes as a part of a body. -/
def step : Step := .scope (arm.names.map .define ++ arm.body)

/-- The identifiers taken for cases leave no trace in the arm. -/
structure CasesBindNothing (t : Tables) (I : Inference) (arm : Arm) (r : Resolver) : Prop where
  reported : (arm.lower t r).1 = (arm.lowerBinding t I r).1
  uses : ∀ name, (name, true) ∈ arm.identifiers I →
    ofName name (arm.lower t r).2 = ofName name (arm.lowerBinding t I r).2

end Arm

/-! ### When a case binds nothing -/

namespace PatternState
variable {s s₁ s₀ : PatternState} {x : String}

theorem mem_bound_lowerIdent {y : String} :
    x ∈ (s.lowerIdent y).bound ↔ x = y ∨ x ∈ s.bound := by
  unfold lowerIdent
  dsimp only
  split
  · rename_i hy
    exact ⟨Or.inr, fun h => h.elim (fun heq => heq ▸ hy) id⟩
  · exact List.mem_cons

theorem bindIdent_case (x : String) :
    s.bindIdent (x, true) = { s with resolver := s.resolver.mint } := rfl

theorem bindIdent_binder (x : String) : s.bindIdent (x, false) = s.lowerIdent x := rfl

theorem count_lowerIdent (y : String) :
    (s.lowerIdent y).reported.count x =
      s.reported.count x + if x = y ∧ y ∈ s.bound then 1 else 0 := by
  unfold lowerIdent
  dsimp only
  by_cases hy : y ∈ s.bound
  · by_cases hxy : x = y
    · simp [hy, hxy]
    · simp [hy, hxy, Ne.symm hxy]
  · simp [hy]

theorem foldl_lowerIdent (names : List String) (s : PatternState) :
    names.foldl lowerIdent s = (names.map fun name => (name, false)).foldl bindIdent s := by
  rw [List.foldl_map]
  rfl

theorem count_reported (idents : List (String × Bool)) (s : PatternState) :
    (idents.foldl bindIdent s).reported.count x =
      s.reported.count x + (idents.count (x, false) - if x ∈ s.bound then 0 else 1) := by
  induction idents generalizing s with
  | nil => simp
  | cons ident rest ih =>
    obtain ⟨y, isCase⟩ := ident
    rw [List.foldl_cons, ih]
    cases isCase with
    | true =>
      rw [bindIdent_case, List.count_cons_of_ne (by simp)]
    | false =>
      rw [bindIdent_binder, count_lowerIdent]
      simp only [mem_bound_lowerIdent]
      by_cases hxy : x = y
      · subst hxy
        rw [List.count_cons_self]
        by_cases hx : x ∈ s.bound
        · simp only [hx, true_and, true_or, if_true]
          omega
        · simp only [hx, and_false, true_or, if_true, if_false]
          omega
      · rw [List.count_cons_of_ne fun h => hxy (congrArg Prod.fst h).symm]
        simp only [hxy, false_and, false_or, if_false, Nat.add_zero]

theorem count_names (idents : List (String × Bool)) :
    (idents.map Prod.fst).count x = idents.count (x, true) + idents.count (x, false) := by
  induction idents with
  | nil => rfl
  | cons ident rest ih =>
    obtain ⟨y, isCase⟩ := ident
    rw [List.map_cons]
    by_cases hxy : y = x
    · subst hxy
      rw [List.count_cons_self, ih]
      cases isCase with
      | true =>
        rw [List.count_cons_self, List.count_cons_of_ne (by simp)]
        omega
      | false =>
        rw [List.count_cons_self, List.count_cons_of_ne (by simp)]
        omega
    · have hne (b : Bool) : (y, isCase) ≠ (x, b) := fun h => hxy (congrArg Prod.fst h)
      rw [List.count_cons_of_ne hxy, List.count_cons_of_ne (hne true),
        List.count_cons_of_ne (hne false), ih]

theorem reported_eq (idents : List (String × Bool)) (s₁ s₀ : PatternState)
    (hreported : s₁.reported = s₀.reported)
    (hbound : ∀ y ∈ idents.map Prod.fst, y ∈ s₁.bound ↔ y ∈ s₀.bound)
    (honce : ∀ y, (y, true) ∈ idents → y ∉ s₁.bound ∧ (idents.map Prod.fst).count y = 1) :
    ((idents.map Prod.fst).foldl lowerIdent s₁).reported =
      (idents.foldl bindIdent s₀).reported := by
  induction idents generalizing s₁ s₀ with
  | nil => exact hreported
  | cons ident rest ih =>
    obtain ⟨y, isCase⟩ := ident
    have hfresh {z : String} (hz : (z, true) ∈ rest) : z ≠ y ∧ (rest.map Prod.fst).count z = 1 := by
      have hcount := (honce z (List.mem_cons_of_mem _ hz)).2
      have hmem : 0 < (rest.map Prod.fst).count z :=
        List.count_pos_iff.mpr (List.mem_map_of_mem (f := Prod.fst) hz)
      rw [List.map_cons, List.count_cons] at hcount
      by_cases hzy : z = y
      · subst hzy
        simp only [beq_self_eq_true, if_true] at hcount
        omega
      · exact ⟨hzy, by simpa [Ne.symm hzy] using hcount⟩
    rw [List.map_cons, List.foldl_cons, List.foldl_cons]
    cases isCase with
    | true =>
      obtain ⟨hnew, hcount⟩ := honce y List.mem_cons_self
      have hrest : y ∉ rest.map Prod.fst := by
        rw [List.map_cons, List.count_cons_self] at hcount
        exact List.count_eq_zero.mp (Nat.succ.inj hcount)
      refine ih _ _ ?_ ?_ ?_
      · simp only [bindIdent_case, lowerIdent, hnew, if_false]
        exact hreported
      · intro z hz
        rw [mem_bound_lowerIdent, bindIdent_case]
        have hzy : z ≠ y := fun h => hrest (h ▸ hz)
        simpa [hzy] using hbound z (List.mem_cons_of_mem _ hz)
      · intro z hz
        obtain ⟨hzy, honce'⟩ := hfresh hz
        refine ⟨?_, honce'⟩
        rw [mem_bound_lowerIdent]
        exact fun h => h.elim hzy (honce z (List.mem_cons_of_mem _ hz)).1
    | false =>
      refine ih _ _ ?_ ?_ ?_
      · simp only [bindIdent_binder, lowerIdent, hbound y List.mem_cons_self, hreported]
      · intro z hz
        rw [bindIdent_binder, mem_bound_lowerIdent, mem_bound_lowerIdent,
          hbound z (List.mem_cons_of_mem _ hz)]
      · intro z hz
        obtain ⟨hzy, honce'⟩ := hfresh hz
        refine ⟨?_, honce'⟩
        rw [mem_bound_lowerIdent]
        exact fun h => h.elim hzy (honce z (List.mem_cons_of_mem _ hz)).1

theorem nextLocal_foldl (idents : List (String × Bool)) (s : PatternState) :
    (idents.foldl bindIdent s).resolver.nextLocal = s.resolver.nextLocal + idents.length := by
  induction idents generalizing s with
  | nil => rfl
  | cons ident rest ih =>
    obtain ⟨y, isCase⟩ := ident
    have hone : (s.bindIdent (y, isCase)).resolver.nextLocal = s.resolver.nextLocal + 1 := by
      cases isCase <;> rfl
    rw [List.foldl_cons, ih, hone, List.length_cons]
    omega

theorem lookup_unbound {idents : List (String × Bool)} (h : (x, false) ∉ idents)
    (s : PatternState) :
    (idents.foldl bindIdent s).resolver.scopes.lookup x = s.resolver.scopes.lookup x := by
  induction idents generalizing s with
  | nil => rfl
  | cons ident rest ih =>
    obtain ⟨y, isCase⟩ := ident
    obtain ⟨hne, hrest⟩ := not_or.mp fun hmem => h (List.mem_cons.mpr hmem)
    rw [List.foldl_cons, ih hrest]
    cases isCase with
    | true => rfl
    | false =>
      have hxy : x ≠ y := fun heq => hne (by rw [heq])
      exact Scopes.lookup_define_of_ne _ _ hxy

theorem lookup_bound {idents : List (String × Bool)} (h : (x, false) ∈ idents)
    (s : PatternState) :
    ∃ id, (idents.foldl bindIdent s).resolver.scopes.lookup x = some id ∧
      s.resolver.nextLocal ≤ id.index := by
  induction idents generalizing s with
  | nil => cases h
  | cons ident rest ih =>
    obtain ⟨y, isCase⟩ := ident
    rw [List.foldl_cons]
    by_cases hrest : (x, false) ∈ rest
    · obtain ⟨id, hid, hle⟩ := ih hrest (s.bindIdent (y, isCase))
      refine ⟨id, hid, le_trans ?_ hle⟩
      cases isCase <;> exact Nat.le_succ _
    · obtain hfirst | hfirst := List.mem_cons.mp h
      · cases hfirst
        refine ⟨⟨s.resolver.nextLocal⟩, ?_, le_rfl⟩
        rw [lookup_unbound hrest]
        exact Scopes.lookup_define_self _ _
      · exact absurd hfirst hrest

theorem resolver_foldl (t : Tables) (names : List String) (s : PatternState) (rest : List Step) :
    (lowerAll t (names.map .define ++ rest) s.resolver).2 =
      (lowerAll t rest (names.foldl lowerIdent s).resolver).2 := by
  induction names generalizing s with
  | nil => rfl
  | cons name names ih => exact ih (s.lowerIdent name)

end PatternState

theorem matchArmsSteps_eq (arms : List (MatchArm × Ty)) :
    matchArmsSteps (arms.map Prod.fst) = arms.map fun arm => (Arm.matched arm.1 arm.2).step := by
  induction arms with
  | nil => rfl
  | cons arm arms ih =>
    obtain ⟨⟨pattern, body⟩, ty⟩ := arm
    simp only [List.map_cons, matchArmsSteps, ih]
    rfl

theorem handleArmsSteps_eq (arms : List HandleArm) :
    handleArmsSteps arms = arms.map fun arm => (Arm.handled arm).step := by
  induction arms with
  | nil => rfl
  | cons arm arms ih =>
    cases arm with
    | success pattern body =>
      simp only [List.map_cons, handleArmsSteps, ih]
      rfl
    | failure pattern body =>
      simp only [List.map_cons, handleArmsSteps, ih]
      rfl

namespace Arm
variable {t : Tables} {I : Inference} {arm : Arm} {r : Resolver}

theorem lower_step : (arm.step.lower t r).2 = (arm.lower t r).2 :=
  PatternState.resolver_foldl t arm.names (.start r) arm.body

theorem count_binders (names : List String) (name : String) :
    (names.map fun y => (y, false)).count (name, false) = names.count name :=
  List.count_map_of_injective names (fun y => (y, false)) (fun _ _ h => congrArg Prod.fst h) name

theorem lower_eq :
    arm.lower t r =
      let s := (arm.names.map fun name => (name, false)).foldl PatternState.bindIdent (.start r)
      (s.reported, (lowerAll t arm.body s.resolver).2) := by
  rw [lower, PatternState.foldl_lowerIdent]

theorem reported_iff :
    (arm.lower t r).1 = (arm.lowerBinding t I r).1 ↔
      ∀ name, (name, true) ∈ arm.identifiers I → arm.names.count name = 1 := by
  constructor
  · intro h name hname
    have hcount := congrArg (List.count name) h
    rw [lower_eq, lowerBinding] at hcount
    have hcase : 0 < (arm.identifiers I).count (name, true) := List.count_pos_iff.mpr hname
    have hnames := PatternState.count_names (x := name) (arm.identifiers I)
    rw [identifiers_names] at hnames
    simp only [PatternState.count_reported, count_binders, PatternState.start,
      List.not_mem_nil, if_false, List.count_nil] at hcount
    omega
  · intro h
    rw [lower, lowerBinding, ← identifiers_names I]
    refine PatternState.reported_eq _ _ _ rfl (fun y _ => Iff.rfl) fun y hy => ⟨?_, ?_⟩
    · exact List.not_mem_nil
    · rw [identifiers_names]
      exact h y hy

theorem apart_of_case {name : String} (hname : (name, true) ∈ arm.identifiers I)
    (honce : arm.names.count name = 1) :
    Apart name (arm.names.foldl PatternState.lowerIdent (.start r)).resolver
      ((arm.identifiers I).foldl PatternState.bindIdent (.start r)).resolver := by
  have hcase : 0 < (arm.identifiers I).count (name, true) := List.count_pos_iff.mpr hname
  have hnames := PatternState.count_names (x := name) (arm.identifiers I)
  rw [identifiers_names] at hnames
  have hunbound : (name, false) ∉ arm.identifiers I := by
    refine List.count_eq_zero.mp ?_
    omega
  have hbound : (name, false) ∈ arm.names.map fun y => (y, false) := by
    refine List.count_pos_iff.mp ?_
    rw [count_binders, honce]
    exact Nat.one_pos
  rw [PatternState.foldl_lowerIdent]
  constructor
  · rw [PatternState.nextLocal_foldl, PatternState.nextLocal_foldl, List.length_map,
      ← identifiers_names I, List.length_map]
  · obtain ⟨id, hid, hnew⟩ := PatternState.lookup_bound hbound (.start r)
    rw [hid, PatternState.lookup_unbound hunbound]
    intro hfound
    have hold := (PatternState.start r).resolver.lookup_lt hfound.symm
    omega

/-- Cases bind nothing just where the name of each stands once in the pattern and is not used in
the body before the body binds it. What an arm's names refer to is what the lowering of the
`match` or `handle` it is part of finds. -/
theorem casesBindNothing_iff (t : Tables) (I : Inference) (arm : Arm) (r : Resolver) :
    (arm.CasesBindNothing t I r ↔
      ∀ name, (name, true) ∈ arm.identifiers I →
        arm.names.count name = 1 ∧ usedFree name arm.body = false) ∧
    (arm.step.lower t r).2 = (arm.lower t r).2 ∧
    (∀ arms : List (MatchArm × Ty), matchArmsSteps (arms.map Prod.fst) =
      arms.map fun arm => (Arm.matched arm.1 arm.2).step) ∧
    ∀ arms : List HandleArm, handleArmsSteps arms = arms.map fun arm => (Arm.handled arm).step := by
  refine ⟨⟨?_, ?_⟩, lower_step, matchArmsSteps_eq, handleArmsSteps_eq⟩
  · intro h name hname
    have honce := reported_iff.mp h.reported name hname
    exact ⟨honce, (lowerAll_apart arm.body (apart_of_case hname honce)).2.mp (h.uses name hname)⟩
  · intro h
    refine ⟨reported_iff.mpr fun name hname => (h name hname).1, ?_⟩
    intro name hname
    obtain ⟨honce, hfree⟩ := h name hname
    exact (lowerAll_apart arm.body (apart_of_case hname honce)).2.mpr hfree

/-- Two variants with a case `None`, one of them on its own and one in pairs. -/
def sampleInference : Inference where
  resolve := id
  variants := fun item =>
    if item = ⟨0⟩ then some ⟨[], [("Some", [.i64]), ("None", [])]⟩
    else if item = ⟨1⟩ then some ⟨[], [("Pair", [.named ⟨0⟩, .named ⟨0⟩])]⟩
    else none

def sampleTables : Tables where
  functionsByName := fun _ => none
  caseLookup := fun name => if name = "None" then [(⟨0⟩, 1)] else []
  protocolNames := fun _ => none
  typeNames := fun _ => none

def atEntry : Resolver where
  scopes := ⟨[], []⟩
  nextLocal := 0
  minted := by simp

/-- The value of the case in the arm of the case. -/
def noneAgain : Arm :=
  .matched (.mk (.ident "None") (.expr (.ident "None"))) (.named ⟨0⟩)

/-- The same case in both places of a pair. -/
def pairOfNone : Arm :=
  .matched (.mk (.variant "Pair" [.ident "None", .ident "None"]) (.expr (.bool true)))
    (.named ⟨1⟩)

/-- In the one arm the name is a local without a type, and the other is reported. -/
theorem casesBindNothing_fails :
    ¬noneAgain.CasesBindNothing sampleTables sampleInference atEntry ∧
      ¬pairOfNone.CasesBindNothing sampleTables sampleInference atEntry := by
  constructor
  · intro h
    exact absurd (h.uses "None" (by decide)) (by decide)
  · intro h
    exact absurd h.reported (by decide)

end Arm

end Napitia.Hir.Scoping
