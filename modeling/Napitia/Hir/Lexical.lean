import Napitia.Hir.Nesting

/-!
# Lexical scoping

Which binding a name refers to is told from where the name stands: from the steps in front of it
in the scope it is in, and in each scope around that one. The lowering with its frames finds that
binding, and so a binding may be given another name together with what refers to it.
-/
namespace Napitia.Hir.Scoping
open Lower (LocalId)
open Napitia.Parser

/-! ### Function bodies -/

/-- Where the lowering of a function starts, with the locals of the functions before it minted. -/
def Resolver.new (nextLocal : ℕ) : Resolver where
  scopes := ⟨[], []⟩
  nextLocal := nextLocal
  minted := by simp

/-- The names of a module, with the cases of each variant in scope. -/
structure ModuleNames where
  functionsByName : String → Option ItemId
  protocolNames : String → Option ItemId
  typeNames : String → Option ItemId
  variants : List (ItemId × List String)

namespace ModuleNames

def addCaseCandidate (candidates : List (ItemId × ℕ)) (entry : ItemId × ℕ) :
    List (ItemId × ℕ) :=
  if entry ∈ candidates then candidates else candidates ++ [entry]

/-- The cases of a name among the variants in scope. -/
def caseLookup (m : ModuleNames) (name : String) : List (ItemId × ℕ) :=
  (m.variants.flatMap fun v => (v.2.zipIdx.filter (·.1 = name)).map fun case => (v.1, case.2)).foldl
    addCaseCandidate []

def tables (m : ModuleNames) : Tables :=
  ⟨m.functionsByName, m.caseLookup, m.protocolNames, m.typeNames⟩

/-- A variant in scope has a case of this name at this index. -/
def HasCase (m : ModuleNames) (name : String) (entry : ItemId × ℕ) : Prop :=
  ∃ cases, (entry.1, cases) ∈ m.variants ∧ cases[entry.2]? = some name

theorem foldl_addCaseCandidate (entries candidates : List (ItemId × ℕ)) (h : candidates.Nodup) :
    (entries.foldl addCaseCandidate candidates).Nodup ∧
      ∀ entry, entry ∈ entries.foldl addCaseCandidate candidates ↔
        entry ∈ candidates ∨ entry ∈ entries := by
  induction entries generalizing candidates with
  | nil => exact ⟨h, by simp⟩
  | cons first rest ih =>
    rw [List.foldl_cons]
    by_cases hfirst : first ∈ candidates
    · obtain ⟨hnodup, hmem⟩ := ih candidates h
      rw [addCaseCandidate, if_pos hfirst]
      refine ⟨hnodup, fun entry => ?_⟩
      rw [hmem, List.mem_cons]
      constructor
      · exact fun hentry => hentry.imp_right Or.inr
      · rintro (hentry | rfl | hentry)
        · exact Or.inl hentry
        · exact Or.inl hfirst
        · exact Or.inr hentry
    · have hadd : (candidates ++ [first]).Nodup := by
        rw [List.nodup_append]
        refine ⟨h, List.nodup_singleton first, fun a ha b hb => ?_⟩
        rw [List.mem_singleton.mp hb]
        exact fun heq => hfirst (heq ▸ ha)
      obtain ⟨hnodup, hmem⟩ := ih (candidates ++ [first]) hadd
      rw [addCaseCandidate, if_neg hfirst]
      refine ⟨hnodup, fun entry => ?_⟩
      rw [hmem, List.mem_append, List.mem_singleton, List.mem_cons, or_assoc]

/-- The one case of a name. -/
def OnlyCase (m : ModuleNames) (name : String) (entry : ItemId × ℕ) : Prop :=
  m.HasCase name entry ∧ ∀ other, m.HasCase name other → other = entry

/-- What stands in front of a field is a protocol, or else a type. -/
def Qualifier (m : ModuleNames) (name : String) (referent : Referent) : Prop :=
  (∃ item, m.protocolNames name = some item ∧ referent = .protocol item) ∨
    m.protocolNames name = none ∧ ∃ item, m.typeNames name = some item ∧ referent = .typeName item

theorem mem_caseLookup {m : ModuleNames} {name : String} {entry : ItemId × ℕ} :
    entry ∈ m.caseLookup name ↔ m.HasCase name entry := by
  rw [caseLookup, (foldl_addCaseCandidate _ [] List.nodup_nil).2]
  obtain ⟨item, index⟩ := entry
  simp only [List.not_mem_nil, false_or, List.mem_flatMap, List.mem_map, List.mem_filter,
    decide_eq_true_eq, HasCase]
  constructor
  · rintro ⟨⟨v, cases⟩, hv, ⟨case, i⟩, ⟨hcase, hname⟩, heq⟩
    cases heq
    exact ⟨cases, hv, by rw [← hname]; exact List.mem_zipIdx_iff_getElem?.mp hcase⟩
  · rintro ⟨cases, hv, hcase⟩
    exact ⟨(item, cases), hv, (name, index), ⟨List.mem_zipIdx_iff_getElem?.mpr hcase, rfl⟩, rfl⟩

theorem caseLookup_eq_singleton {m : ModuleNames} {name : String} {entry : ItemId × ℕ} :
    m.caseLookup name = [entry] ↔ m.OnlyCase name entry := by
  have hnodup : (m.caseLookup name).Nodup := (foldl_addCaseCandidate _ [] List.nodup_nil).1
  simp only [OnlyCase, ← mem_caseLookup]
  constructor
  · intro h
    rw [h]
    exact ⟨List.mem_singleton_self entry, fun other hother => List.mem_singleton.mp hother⟩
  · rintro ⟨hmem, honly⟩
    exact List.perm_singleton.mp ((List.perm_ext_iff_of_nodup hnodup (List.nodup_singleton entry)).mpr
      fun other => ⟨fun hother => List.mem_singleton.mpr (honly other hother),
        fun hother => List.mem_singleton.mp hother ▸ hmem⟩)

end ModuleNames

/-- What is reported of a name where it stands. An unresolved one that was an alias before its
scope closed is told apart, and neither a local nor a type takes type arguments. -/
def diagnostic (closedAliases : String → Bool) (site : Site) (name : String) :
    Referent → Option String
  | .localVar _ => if site.isApplied then some "R0020" else none
  | .function _ | .case _ _ => none
  | .ambiguousCase => some "R0006"
  | .protocol _ => if site.isBase then none else some "R0026"
  | .typeName _ => if site.isBase then none else some "R0020"
  | .unresolved => some (if !site.isApplied && closedAliases name then "R0034" else "R0002")

/-- A name that is neither a local nor a function is a protocol or else a type in front of a
field, a case without type arguments if it names just one, and otherwise reported. -/
def ModuleNames.Named (m : ModuleNames) (closedAliases : String → Bool) (site : Site)
    (name : String) : Prop :=
  site.isBase = true ∧ m.Qualifier name (m.tables.declared site name) ∨
    (site.isBase = true → m.protocolNames name = none ∧ m.typeNames name = none) ∧
    ((site.isApplied = false ∧ ∃ entry, m.OnlyCase name entry ∧
        m.tables.declared site name = .case entry.1 entry.2) ∨
      (site.isApplied = false → ¬∃ entry, m.OnlyCase name entry) ∧
        (diagnostic closedAliases site name (m.tables.declared site name)).isSome)

/-! ### Where a name stands -/

mutual

/-- How many locals are minted. -/
def Step.mints : Step → ℕ
  | .use _ _ => 0
  | .define _ => 1
  | .scope inner => mintsAll inner

def mintsAll : List Step → ℕ
  | [] => 0
  | step :: rest => step.mints + mintsAll rest

end

mutual

/-- How many names are looked up. -/
def Step.lookups : Step → ℕ
  | .use _ _ => 1
  | .define _ => 0
  | .scope inner => lookupsAll inner

def lookupsAll : List Step → ℕ
  | [] => 0
  | step :: rest => step.lookups + lookupsAll rest

end

/-- A step stands behind these steps of its own scope and of the scopes around it, the outermost
first. -/
inductive At : List Step → List (List Step) → Step → Prop
  | here (before behind : List Step) (step : Step) : At (before ++ step :: behind) [before] step
  | inside (before behind : List Step) {inner : List Step} {levels : List (List Step)} {step : Step}
      (h : At inner levels step) : At (before ++ .scope inner :: behind) (before :: levels) step

theorem At.cons {steps : List Step} {levels : List (List Step)} {step : Step}
    (h : At steps levels step) (first : Step) :
    ∃ levels', At (first :: steps) levels' step ∧
      (levels'.map lookupsAll).sum = first.lookups + (levels.map lookupsAll).sum := by
  cases h with
  | here before behind =>
    refine ⟨[first :: before], .here (first :: before) behind step, ?_⟩
    simp [lookupsAll]
  | @inside before behind inner levels _ h =>
    refine ⟨(first :: before) :: levels, .inside (first :: before) behind h, ?_⟩
    simp [lookupsAll, Nat.add_assoc]

/-- The innermost binding of a name in front of a place is this local. -/
def Governs (start : ℕ) (levels : List (List Step)) (name : String) (id : LocalId) : Prop :=
  ∃ (outer : List (List Step)) (pre post : List Step) (inner : List (List Step)),
    levels = outer ++ (pre ++ .define name :: post) :: inner ∧ .define name ∉ post ∧
      (∀ level ∈ inner, .define name ∉ level) ∧
      id = ⟨start + (outer.map mintsAll).sum + mintsAll pre⟩

section
variable {t : Tables} {x y : String}

mutual

theorem Step.nextLocal_lower : ∀ (step : Step) (r : Resolver),
    (step.lower t r).1.nextLocal = r.nextLocal + step.mints
  | .use _ _, _ => rfl
  | .define _, _ => rfl
  | .scope inner, r => nextLocal_lowerAll inner r.push

theorem nextLocal_lowerAll : ∀ (steps : List Step) (r : Resolver),
    (lowerAll t steps r).1.nextLocal = r.nextLocal + mintsAll steps
  | [], _ => rfl
  | step :: rest, r => by
    simp only [lowerAll, mintsAll]
    rw [nextLocal_lowerAll rest, step.nextLocal_lower, Nat.add_assoc]

end

mutual

theorem Step.length_lower : ∀ (step : Step) (r : Resolver),
    (step.lower t r).2.length = step.lookups
  | .use _ _, _ => rfl
  | .define _, _ => rfl
  | .scope inner, r => length_lowerAll inner r.push

theorem length_lowerAll : ∀ (steps : List Step) (r : Resolver),
    (lowerAll t steps r).2.length = lookupsAll steps
  | [], _ => rfl
  | step :: rest, r => by
    simp only [lowerAll, lookupsAll, List.length_append]
    rw [length_lowerAll rest, step.length_lower]

end

theorem mintsAll_append (steps more : List Step) :
    mintsAll (steps ++ more) = mintsAll steps + mintsAll more := by
  induction steps with
  | nil => simp [mintsAll]
  | cons step rest ih => simp only [List.cons_append, mintsAll, ih, Nat.add_assoc]

theorem lookup_lowerAll (steps : List Step) (h : .define x ∉ steps) (r : Resolver) :
    (lowerAll t steps r).1.scopes.lookup x = r.scopes.lookup x := by
  induction steps generalizing r with
  | nil => rfl
  | cons step rest ih =>
    obtain ⟨hne, hrest⟩ := not_or.mp fun hmem => h (List.mem_cons.mpr hmem)
    simp only [lowerAll]
    rw [ih hrest]
    cases step with
    | use site name => rfl
    | define name =>
      exact Scopes.lookup_define_of_ne _ _ fun heq => hne (by rw [heq])
    | scope inner => rw [scopes_lower_scope]

/-- The state in front of a place. -/
def arrive (t : Tables) (r : Resolver) : List (List Step) → Resolver
  | [] => r
  | before :: levels => arrive t (lowerAll t before r).1.push levels

theorem At.lookup {steps : List Step} {levels : List (List Step)} {step : Step}
    (h : At steps levels step) {site : Site} (hstep : step = .use site x) (r : Resolver) :
    (lowerAll t steps r).2[(levels.map lookupsAll).sum]? =
      some ⟨x, t.refersTo site x ((arrive t r levels).scopes.lookup x)⟩ := by
  induction h generalizing r with
  | here before behind step =>
    subst hstep
    rw [lowerAll_append, List.map_singleton, List.sum_singleton,
      ← length_lowerAll (t := t) before r, List.getElem?_append_right le_rfl, Nat.sub_self]
    simp [lowerAll, Step.lower, arrive, Resolver.push]
  | inside before behind h ih =>
    rw [lowerAll_append, List.map_cons, List.sum_cons, ← length_lowerAll (t := t) before r,
      List.getElem?_append_right (Nat.le_add_right _ _), Nat.add_sub_cancel_left]
    have hinner := ih hstep (lowerAll t before r).1.push
    simp only [lowerAll, Step.lower]
    rw [List.getElem?_append_left (List.getElem?_eq_some_iff.mp hinner).1]
    exact hinner

theorem arrive_unbound {levels : List (List Step)} (h : ∀ level ∈ levels, .define x ∉ level)
    (r : Resolver) : (arrive t r levels).scopes.lookup x = r.scopes.lookup x := by
  induction levels generalizing r with
  | nil => rfl
  | cons before levels ih =>
    rw [arrive, ih fun level hlevel => h level (List.mem_cons_of_mem _ hlevel)]
    simp only [Resolver.push, Scopes.lookup_push]
    exact lookup_lowerAll before (h before List.mem_cons_self) r

theorem arrive_bound {levels : List (List Step)} {r : Resolver} {id : LocalId}
    (h : Governs r.nextLocal levels x id) : (arrive t r levels).scopes.lookup x = some id := by
  obtain ⟨outer, pre, post, inner, rfl, hpost, hinner, rfl⟩ := h
  induction outer generalizing r with
  | nil =>
    rw [List.nil_append, arrive, arrive_unbound hinner, lowerAll_append]
    simp only [Resolver.push, Scopes.lookup_push, lowerAll]
    rw [lookup_lowerAll post hpost]
    simp only [Step.lower, Resolver.define, Scopes.lookup_define_self, nextLocal_lowerAll]
    simp
  | cons before outer ih =>
    rw [List.cons_append, arrive, ih]
    simp only [Resolver.push, nextLocal_lowerAll, List.map_cons, List.sum_cons, Nat.add_assoc]

theorem exists_last {steps : List Step} {step : Step} (h : step ∈ steps) :
    ∃ pre post, steps = pre ++ step :: post ∧ step ∉ post := by
  induction steps with
  | nil => cases h
  | cons first rest ih =>
    by_cases hrest : step ∈ rest
    · obtain ⟨pre, post, hsplit, hlast⟩ := ih hrest
      exact ⟨first :: pre, post, by rw [hsplit]; rfl, hlast⟩
    · obtain rfl | hmem := List.mem_cons.mp h
      · exact ⟨[], rest, rfl, hrest⟩
      · exact absurd hmem hrest

theorem governs_or_unbound (start : ℕ) (levels : List (List Step)) (x : String) :
    (∃ id, Governs start levels x id) ∨ ∀ level ∈ levels, .define x ∉ level := by
  induction levels generalizing start with
  | nil => exact Or.inr fun level hlevel => by cases hlevel
  | cons before levels ih =>
    rcases ih (start + mintsAll before) with ⟨id, outer, pre, post, inner, rfl, hpost, hinner, hid⟩ |
      hnone
    · refine Or.inl ⟨id, before :: outer, pre, post, inner, rfl, hpost, hinner, ?_⟩
      rw [hid, List.map_cons, List.sum_cons, Nat.add_assoc start]
    · by_cases hmem : .define x ∈ before
      · obtain ⟨pre, post, hsplit, hlast⟩ := exists_last hmem
        exact Or.inl ⟨_, [], pre, post, levels, by rw [hsplit]; rfl, hlast, hnone, rfl⟩
      · refine Or.inr fun level hlevel => ?_
        rcases List.mem_cons.mp hlevel with rfl | hlevel
        · exact hmem
        · exact hnone level hlevel

end

/-! ### Another name for a local -/

/-- The steps mention a name. -/
def mentions (y : String) : List Step → Bool
  | [] => false
  | .use _ name :: rest => name = y || mentions y rest
  | .define name :: rest => name = y || mentions y rest
  | .scope inner :: rest => mentions y inner || mentions y rest

/-- Another name for what refers to a binding in front of the steps. -/
def renameFree (x y : String) : List Step → List Step
  | [] => []
  | .use site name :: rest => .use site (if name = x then y else name) :: renameFree x y rest
  | .define name :: rest => .define name :: if name = x then rest else renameFree x y rest
  | .scope inner :: rest => .scope (renameFree x y inner) :: renameFree x y rest

/-- One binding, somewhere in the steps, and all that refers to it go by another name, which its
scope did not mention. -/
inductive Renamed (x y : String) : List Step → List Step → Prop
  | here (pre post : List Step) (h : mentions y post = false) :
    Renamed x y (pre ++ .define x :: post) (pre ++ .define y :: renameFree x y post)
  | inside (pre post : List Step) {inner inner' : List Step} (h : Renamed x y inner inner') :
    Renamed x y (pre ++ .scope inner :: post) (pre ++ .scope inner' :: post)

section
variable {t : Tables} {x y : String}

/-- The same locals, but for what one name is found as. -/
def SameBut (y : String) (r r' : Resolver) : Prop :=
  r'.nextLocal = r.nextLocal ∧ ∀ z, z ≠ y → r'.scopes.lookup z = r.scopes.lookup z

/-- The same locals, one of them under another name. -/
def Moved (x y : String) (r r' : Resolver) : Prop :=
  r'.nextLocal = r.nextLocal ∧
    (∃ id, r.scopes.lookup x = some id ∧ r'.scopes.lookup y = some id) ∧
    ∀ z, z ≠ x → z ≠ y → r'.scopes.lookup z = r.scopes.lookup z

variable {r r' : Resolver}

theorem SameBut.define (h : SameBut y r r') (name : String) :
    SameBut y (r.define name) (r'.define name) := by
  refine ⟨congrArg (· + 1) h.1, fun z hz => ?_⟩
  by_cases hname : z = name
  · subst hname
    simp only [Resolver.define, Scopes.lookup_define_self, h.1]
  · simp only [Resolver.define, Scopes.lookup_define_of_ne _ _ hname]
    exact h.2 z hz

theorem Moved.define {name : String} (h : Moved x y r r') (hx : name ≠ x) (hy : name ≠ y) :
    Moved x y (r.define name) (r'.define name) := by
  obtain ⟨hnext, ⟨id, hid, hid'⟩, hother⟩ := h
  refine ⟨congrArg (· + 1) hnext, ⟨id, ?_, ?_⟩, fun z hzx hzy => ?_⟩
  · simpa only [Resolver.define, Scopes.lookup_define_of_ne _ _ hx.symm] using hid
  · simpa only [Resolver.define, Scopes.lookup_define_of_ne _ _ hy.symm] using hid'
  · by_cases hname : z = name
    · subst hname
      simp only [Resolver.define, Scopes.lookup_define_self, hnext]
    · simp only [Resolver.define, Scopes.lookup_define_of_ne _ _ hname]
      exact hother z hzx hzy

theorem Moved.shadow (h : Moved x y r r') : SameBut y (r.define x) (r'.define x) := by
  refine ⟨congrArg (· + 1) h.1, fun z hz => ?_⟩
  by_cases hzx : z = x
  · subst hzx
    simp only [Resolver.define, Scopes.lookup_define_self, h.1]
  · simp only [Resolver.define, Scopes.lookup_define_of_ne _ _ hzx]
    exact h.2.2 z hzx hz

theorem moved_define (r : Resolver) (x y : String) : Moved x y (r.define x) (r.define y) := by
  refine ⟨rfl, ⟨⟨r.nextLocal⟩, ?_, ?_⟩, fun z hzx hzy => ?_⟩
  · exact Scopes.lookup_define_self _ _
  · exact Scopes.lookup_define_self _ _
  · simp only [Resolver.define, Scopes.lookup_define_of_ne _ _ hzx,
      Scopes.lookup_define_of_ne _ _ hzy]

theorem SameBut.push (h : SameBut y r r') : SameBut y r.push r'.push :=
  ⟨h.1, by simpa [Resolver.push] using h.2⟩

theorem Moved.push (h : Moved x y r r') : Moved x y r.push r'.push :=
  ⟨h.1, by simpa [Resolver.push] using h.2⟩

theorem mintsAll_renameFree : ∀ steps : List Step, mintsAll (renameFree x y steps) = mintsAll steps
  | [] => by simp [renameFree]
  | .use site name :: rest => by
    simp only [renameFree, mintsAll, Step.mints, mintsAll_renameFree rest]
  | .define name :: rest => by
    simp only [renameFree, mintsAll, Step.mints]
    split
    · rfl
    · rw [mintsAll_renameFree rest]
  | .scope inner :: rest => by
    simp only [renameFree, mintsAll, Step.mints, mintsAll_renameFree inner,
      mintsAll_renameFree rest]

/-- What is referred to, in order. -/
def referents (t : Tables) (steps : List Step) (r : Resolver) : List Referent :=
  (lowerAll t steps r).2.map Use.referent

theorem referents_cons (step : Step) (rest : List Step) (r : Resolver) :
    referents t (step :: rest) r =
      (step.lower t r).2.map Use.referent ++ referents t rest (step.lower t r).1 := by
  simp only [referents, lowerAll, List.map_append]

/-- A scope that closes leaves the locals as they were and the minted ones counted. -/
theorem SameBut.scope {inner inner' : List Step} (h : SameBut y r r')
    (hmints : mintsAll inner' = mintsAll inner) :
    SameBut y ((Step.scope inner).lower t r).1 ((Step.scope inner').lower t r').1 := by
  refine ⟨?_, ?_⟩
  · rw [Step.nextLocal_lower, Step.nextLocal_lower, h.1]
    simp only [Step.mints, hmints]
  · rw [scopes_lower_scope, scopes_lower_scope]
    exact h.2

theorem Moved.scope {inner inner' : List Step} (h : Moved x y r r')
    (hmints : mintsAll inner' = mintsAll inner) :
    Moved x y ((Step.scope inner).lower t r).1 ((Step.scope inner').lower t r').1 := by
  refine ⟨?_, ?_⟩
  · rw [Step.nextLocal_lower, Step.nextLocal_lower, h.1]
    simp only [Step.mints, hmints]
  · rw [scopes_lower_scope, scopes_lower_scope]
    exact h.2

theorem referents_sameBut : ∀ (steps : List Step) {r r' : Resolver}, mentions y steps = false →
    SameBut y r r' → referents t steps r' = referents t steps r
  | [], _, _, _, _ => rfl
  | .use site name :: rest, r, r', hy, h => by
    simp only [mentions, Bool.or_eq_false_iff, decide_eq_false_iff_not] at hy
    rw [referents_cons, referents_cons]
    simp only [Step.lower, h.2 name hy.1]
    rw [referents_sameBut rest hy.2 h]
  | .define name :: rest, r, r', hy, h => by
    simp only [mentions, Bool.or_eq_false_iff, decide_eq_false_iff_not] at hy
    rw [referents_cons, referents_cons]
    simp only [Step.lower]
    rw [referents_sameBut rest hy.2 (h.define name)]
  | .scope inner :: rest, r, r', hy, h => by
    simp only [mentions, Bool.or_eq_false_iff] at hy
    have hinner := referents_sameBut inner hy.1 h.push
    rw [referents_cons, referents_cons, referents_sameBut rest hy.2 (h.scope rfl)]
    exact congrArg (· ++ _) hinner

theorem referents_moved : ∀ (steps : List Step) {r r' : Resolver}, mentions y steps = false →
    Moved x y r r' → referents t (renameFree x y steps) r' = referents t steps r
  | [], _, _, _, _ => by simp [renameFree, referents, lowerAll]
  | .use site name :: rest, r, r', hy, h => by
    simp only [mentions, Bool.or_eq_false_iff, decide_eq_false_iff_not] at hy
    rw [renameFree, referents_cons, referents_cons]
    simp only [Step.lower]
    rw [referents_moved rest hy.2 h]
    by_cases hname : name = x
    · subst hname
      obtain ⟨id, hid, hid'⟩ := h.2.1
      simp only [if_true, hid, hid', Tables.refersTo, List.map_cons, List.map_nil]
    · simp only [if_neg hname, h.2.2 name hname hy.1]
  | .define name :: rest, r, r', hy, h => by
    simp only [mentions, Bool.or_eq_false_iff, decide_eq_false_iff_not] at hy
    rw [renameFree, referents_cons, referents_cons]
    simp only [Step.lower]
    by_cases hname : name = x
    · subst hname
      rw [if_pos rfl, referents_sameBut rest hy.2 h.shadow]
    · rw [if_neg hname, referents_moved rest hy.2 (h.define hname hy.1)]
  | .scope inner :: rest, r, r', hy, h => by
    simp only [mentions, Bool.or_eq_false_iff] at hy
    have hinner := referents_moved inner hy.1 h.push
    rw [renameFree, referents_cons, referents_cons,
      referents_moved rest hy.2 (h.scope (mintsAll_renameFree inner))]
    exact congrArg (· ++ _) hinner

theorem Resolver.eq_of (hscopes : r.scopes = r'.scopes) (hnext : r.nextLocal = r'.nextLocal) :
    r = r' := by
  cases r
  cases r'
  cases hscopes
  cases hnext
  rfl

theorem Renamed.mints {steps steps' : List Step} (h : Renamed x y steps steps') :
    mintsAll steps' = mintsAll steps := by
  induction h with
  | here pre post h =>
    simp only [mintsAll_append, mintsAll, Step.mints, mintsAll_renameFree]
  | inside pre post h ih =>
    simp only [mintsAll_append, mintsAll, Step.mints, ih]

theorem referents_append (steps more : List Step) (r : Resolver) :
    referents t (steps ++ more) r =
      referents t steps r ++ referents t more (lowerAll t steps r).1 := by
  simp only [referents, lowerAll_append, List.map_append]

theorem Renamed.referents {steps steps' : List Step} (h : Renamed x y steps steps')
    (r : Resolver) : Scoping.referents t steps' r = Scoping.referents t steps r := by
  induction h generalizing r with
  | here pre post h =>
    rw [referents_append, referents_append, referents_cons, referents_cons]
    simp only [Step.lower]
    rw [referents_moved post h (moved_define _ x y)]
  | @inside pre post inner inner' h ih =>
    rw [referents_append, referents_append, referents_cons, referents_cons]
    generalize (lowerAll t pre r).1 = s
    have hclosed : ((Step.scope inner').lower t s).1 = ((Step.scope inner).lower t s).1 :=
      Resolver.eq_of (by rw [scopes_lower_scope, scopes_lower_scope])
        (by rw [Step.nextLocal_lower, Step.nextLocal_lower, Step.mints, Step.mints, h.mints])
    rw [hclosed]
    exact congrArg (fun uses => _ ++ (uses ++ _)) (ih s.push)

end

/-! ### Names of a body -/

/-- What a name refers to is told from where it stands. -/
structure Lexical (m : ModuleNames) (start : ℕ) (steps : List Step) (uses : List Use) : Prop where
  /-- A local is the one of the innermost binding in front, and any other name has none. -/
  resolved : ∀ levels site name, At steps levels (.use site name) →
    (∃ id, Governs start levels name id ∧
      uses[(levels.map lookupsAll).sum]? = some ⟨name, .localVar id⟩) ∨
    (∀ level ∈ levels, .define name ∉ level) ∧
      uses[(levels.map lookupsAll).sum]? = some ⟨name, m.tables.declared site name⟩
  /-- Every lookup is at some place. -/
  placed : ∀ i < uses.length, ∃ levels site name, At steps levels (.use site name) ∧
    i = (levels.map lookupsAll).sum
  /-- A name that is not a local is read by the names of the module, or reported. -/
  declared : ∀ (closedAliases : String → Bool) (site : Site) (name : String),
    (∃ f, m.functionsByName name = some f ∧ m.tables.declared site name = .function f) ∨
      m.functionsByName name = none ∧ m.Named closedAliases site name
  /-- Another name for a local changes nothing but names. -/
  renamed : ∀ x y steps', Renamed x y steps steps' →
    (lowerAll m.tables steps' (.new start)).2.map Use.referent = uses.map Use.referent ∧
      mintsAll steps' = mintsAll steps

theorem exists_at : ∀ (steps : List Step) (i : ℕ), i < lookupsAll steps →
    ∃ levels site name, At steps levels (.use site name) ∧ i = (levels.map lookupsAll).sum
  | [], _, h => by cases h
  | .use site name :: rest, i, h => by
    simp only [lookupsAll, Step.lookups] at h
    cases i with
    | zero => exact ⟨[[]], site, name, .here [] rest _, rfl⟩
    | succ i =>
      obtain ⟨levels, site', name', hat, hi⟩ := exists_at rest i (by omega)
      obtain ⟨levels', hat', hsum⟩ := hat.cons (.use site name)
      refine ⟨levels', site', name', hat', ?_⟩
      rw [hsum, hi]
      simp only [Step.lookups]
      omega
  | .define name :: rest, i, h => by
    simp only [lookupsAll, Step.lookups] at h
    obtain ⟨levels, site', name', hat, hi⟩ := exists_at rest i (by omega)
    obtain ⟨levels', hat', hsum⟩ := hat.cons (.define name)
    refine ⟨levels', site', name', hat', ?_⟩
    rw [hsum, hi]
    simp only [Step.lookups]
    omega
  | .scope inner :: rest, i, h => by
    simp only [lookupsAll, Step.lookups] at h
    by_cases hlt : i < lookupsAll inner
    · obtain ⟨levels, site', name', hat, hi⟩ := exists_at inner i hlt
      refine ⟨[] :: levels, site', name', .inside [] rest hat, ?_⟩
      simp only [List.map_cons, List.sum_cons, lookupsAll, hi, Nat.zero_add]
    · obtain ⟨levels, site', name', hat, hi⟩ := exists_at rest (i - lookupsAll inner) (by omega)
      obtain ⟨levels', hat', hsum⟩ := hat.cons (.scope inner)
      refine ⟨levels', site', name', hat', ?_⟩
      rw [hsum, ← hi]
      simp only [Step.lookups]
      omega

namespace ModuleNames

/-- A name standing for a value, where it is not a protocol in front of a field. -/
theorem value_named (m : ModuleNames) (closedAliases : String → Bool) {site : Site} {name : String}
    (hsite : site.isBase = true → m.protocolNames name = none) :
    (∃ entry, m.OnlyCase name entry ∧ m.tables.value name = .case entry.1 entry.2) ∨
    (¬∃ entry, m.OnlyCase name entry) ∧
      (diagnostic closedAliases site name (m.tables.value name)).isSome := by
  by_cases hunique : ∃ entry, m.OnlyCase name entry
  · obtain ⟨entry, hentry⟩ := hunique
    refine Or.inl ⟨entry, hentry, ?_⟩
    have hlookup : m.tables.caseLookup name = [entry] := caseLookup_eq_singleton.mpr hentry
    simp only [Tables.value, hlookup]
  · refine Or.inr ⟨hunique, ?_⟩
    cases hlookup : m.tables.caseLookup name with
    | nil =>
      simp only [Tables.value, hlookup, Tables.protocolOr]
      cases hprotocol : m.tables.protocolNames name with
      | none => rfl
      | some item =>
        cases hbase : site.isBase with
        | true => cases (hsite hbase).symm.trans hprotocol
        | false => simp [diagnostic, hbase]
    | cons first rest =>
      cases rest with
      | nil => exact absurd ⟨first, caseLookup_eq_singleton.mp hlookup⟩ hunique
      | cons second rest =>
        simp only [Tables.value, hlookup]
        rfl

theorem declared_named (m : ModuleNames) (closedAliases : String → Bool) (site : Site)
    {name : String} (hfunction : m.functionsByName name = none) : m.Named closedAliases site name := by
  simp only [Named, Tables.declared, tables, hfunction, Tables.protocolOr, Tables.typeOr, Qualifier]
  have hvalue {site : Site} (happlied : site.isApplied = false)
      (hsite : site.isBase = true → m.protocolNames name = none) :=
    (m.value_named closedAliases hsite).imp (And.intro happlied)
      (And.imp_left fun hnone (_ : site.isApplied = false) => hnone)
  cases site with
  | ident => exact Or.inr ⟨nofun, hvalue rfl nofun⟩
  | base =>
    cases hprotocol : m.protocolNames name with
    | some item => exact Or.inl ⟨rfl, Or.inl ⟨item, rfl, rfl⟩⟩
    | none =>
      cases htype : m.typeNames name with
      | some item => exact Or.inl ⟨rfl, Or.inr ⟨rfl, item, rfl, rfl⟩⟩
      | none => exact Or.inr ⟨fun _ => ⟨rfl, rfl⟩, hvalue rfl fun _ => hprotocol⟩
  | applied =>
    refine Or.inr ⟨nofun, Or.inr ⟨nofun, ?_⟩⟩
    cases m.typeNames name <;> cases m.protocolNames name <;> rfl
  | appliedBase =>
    cases hprotocol : m.protocolNames name with
    | some item => exact Or.inl ⟨rfl, Or.inl ⟨item, rfl, rfl⟩⟩
    | none =>
      cases htype : m.typeNames name with
      | some item => exact Or.inl ⟨rfl, Or.inr ⟨rfl, item, rfl, rfl⟩⟩
      | none => exact Or.inr ⟨fun _ => ⟨rfl, rfl⟩, Or.inr ⟨nofun, rfl⟩⟩

end ModuleNames

def lowerFunction (m : ModuleNames) (start : ℕ) (params : List String) (body : Block) : List Use :=
  (lowerAll m.tables (functionSteps params body) (.new start)).2

theorem lowerAll_lexical (m : ModuleNames) (start : ℕ) (steps : List Step) :
    Lexical m start steps (lowerAll m.tables steps (.new start)).2 := by
  constructor
  · intro levels site name hat
    have hlookup := hat.lookup (t := m.tables) rfl (.new start)
    rcases governs_or_unbound start levels name with ⟨id, hid⟩ | hnone
    · refine Or.inl ⟨id, hid, ?_⟩
      rw [hlookup, arrive_bound hid]
      rfl
    · refine Or.inr ⟨hnone, ?_⟩
      rw [hlookup, arrive_unbound hnone]
      rfl
  · intro i hi
    rw [length_lowerAll] at hi
    exact exists_at steps i hi
  · intro closedAliases site name
    cases hfunction : m.functionsByName name with
    | some f =>
      refine Or.inl ⟨f, rfl, ?_⟩
      simp only [Tables.declared, ModuleNames.tables, hfunction]
    | none => exact Or.inr ⟨rfl, m.declared_named closedAliases site hfunction⟩
  · intro x y steps' h
    exact ⟨h.referents (.new start), h.mints⟩

/-- The body of a function or of an extension method is lowered by lexical scoping: frame by
frame as told of its steps, and by the nesting of its syntax tree. -/
theorem lowerFunction_lexical (m : ModuleNames) (start : ℕ) (params : List String) (body : Block) :
    Lexical m start (functionSteps params body) (lowerFunction m start params body) ∧
      lowerFunction m start params body =
        (functionUses m.tables params body (fun _ => none) start).1 :=
  ⟨lowerAll_lexical m start (functionSteps params body),
    (congrArg Prod.fst (functionUses_within m.tables params body (.new start))).symm⟩

end Napitia.Hir.Scoping
