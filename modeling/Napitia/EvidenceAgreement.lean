import Napitia.Typeck.Evidence
import Napitia.Verify.Acceptance

/-!
# Evidence the solver finds against evidence the verifier accepts

The solver and the verifier match heads and instantiate what an extension requires in
the same way, so the verifier follows every piece of evidence the solver finds. What
it does not share is the solver's cache: a requirement met twice is resolved once but
checked twice, so the verifier's budgets are spent on the whole expansion of a
requirement.
-/
namespace Napitia.EvidenceAgreement
open Nir Typeck

/-! ### The same heads -/

theorem foldlM_congr {α β : Type} {f g : β → α → Option β} {l : List α}
    (h : ∀ a ∈ l, ∀ b, f b a = g b a) (b : β) : l.foldlM f b = l.foldlM g b := by
  induction l generalizing b with
  | nil => rfl
  | cons a l ih =>
    rw [List.foldlM_cons, List.foldlM_cons, h a List.mem_cons_self]
    congr 1
    funext b'
    exact ih (fun a' ha' => h a' (List.mem_cons_of_mem a ha')) b'

theorem matchExtendHead_eq {free : List TypeParamId} {n : ℕ} {pattern : Ty} (target : Ty)
    (subst : Subst) (h : ∀ id, .param id ∈ pattern.leaves → id ∈ free) :
    Verify.matchExtendHead free n pattern target subst = matchOne n pattern target subst := by
  induction n generalizing pattern target subst with
  | zero => rfl
  | succ n ih =>
    cases pattern with
    | param id =>
      have hid : id ∈ free := h id (by simp)
      exact if_pos hid
    | applied item args =>
      cases target with
      | applied targetItem targetArgs =>
        simp only [Verify.matchExtendHead, matchOne]
        congr 1
        apply foldlM_congr
        intro p hp s
        apply ih
        intro id hid
        exact h id (by simpa using ⟨p.1, (List.of_mem_zip hp).1, hid⟩)
      | _ => rfl
    | _ => rfl

/-- The layout lowering gives an extension: what it declares, under the names of its
parameters and with the functions implementing it. -/
def extendLayout (e : ExtendInfo) (name : TypeParamId → Symbol) (methods : List ItemId) :
    ExtendLayout where
  protocol := e.protocol
  typeParams := e.typeParams.map fun id => (id, name id)
  protocolArguments := e.protocolArguments
  requirements := e.requirements
  methods := methods

theorem matchExtendHeads_eq {e : ExtendInfo} (name : TypeParamId → Symbol) (methods : List ItemId)
    (h : ∀ ty ∈ e.protocolArguments, ∀ id, .param id ∈ ty.leaves → id ∈ e.typeParams)
    (required : List Ty) :
    Verify.matchExtendHeads (extendLayout e name methods) required =
      matchExtendHead e.protocolArguments required := by
  have hparams : (extendLayout e name methods).typeParams.map (·.1) = e.typeParams := by
    simp [extendLayout, Function.comp_def]
  unfold Verify.matchExtendHeads Typeck.matchExtendHead
  rw [hparams]
  show (if e.protocolArguments.length = required.length then _ else none) = _
  congr 1
  apply foldlM_congr
  intro p hp s
  exact matchExtendHead_eq _ _ (h p.1 (List.of_mem_zip hp).1)

def Lowers (e : ExtendInfo) (entry : ItemId × ExtendLayout) : Prop :=
  ∃ name methods, entry = (e.id, extendLayout e name methods)

/-! ### What a program's extensions promise -/

/-- The extensions of a program typeck accepts, and the module they are lowered to. -/
structure Accepted (accepted : List ExtendInfo) (m : Module) : Prop where
  declared : Declared accepted
  declares : ∀ e ∈ accepted, e.Declares
  checked : (checkExtendOverlaps accepted).2 = []
  ids : (accepted.map (·.id)).Nodup
  lowered : List.Forall₂ Lowers accepted m.extensions

section
variable {accepted : List ExtendInfo} {m : Module}

theorem lowered_ids {extensions : List (ItemId × ExtendLayout)}
    (h : List.Forall₂ Lowers accepted extensions) :
    extensions.map (·.1) = accepted.map (·.id) := by
  induction h with
  | nil => rfl
  | cons hone _ ih =>
    have ⟨_, _, heq⟩ := hone
    rw [List.map_cons, List.map_cons, heq, ih]

theorem lowered_mem {extensions : List (ItemId × ExtendLayout)}
    (h : List.Forall₂ Lowers accepted extensions) {e : ExtendInfo} (hmem : e ∈ accepted) :
    ∃ entry ∈ extensions, Lowers e entry := by
  induction h with
  | nil => exact absurd hmem List.not_mem_nil
  | cons hone _ ih =>
    rcases List.mem_cons.mp hmem with heq | hmem
    · exact ⟨_, List.mem_cons_self, heq ▸ hone⟩
    · have ⟨entry, hin, hlowers⟩ := ih hmem
      exact ⟨entry, List.mem_cons_of_mem _ hin, hlowers⟩

theorem Accepted.extension (h : Accepted accepted m) {e : ExtendInfo} (hmem : e ∈ accepted) :
    ∃ name methods, (Verify.aggregateContext m).extensions e.id =
      some (extendLayout e name methods) := by
  have ⟨entry, hin, name, methods, heq⟩ := lowered_mem h.lowered hmem
  subst heq
  exact ⟨name, methods, Verify.collected_of_mem (lowered_ids h.lowered ▸ h.ids) hin⟩

/-! ### What a requirement expands to -/

/-- What the extension answering a requirement requires in turn. -/
def requires (extends' : List ExtendInfo) (r : CapabilityRequirement) :
    List CapabilityRequirement :=
  (extends'.filter (answers r)).flatMap fun e =>
    ((matchExtendHead e.protocolArguments r.arguments).map (nestedRequirements e)).getD []

/-- The requirement expands within so many levels, and none of the types required is
symbolic or nests too deep. -/
def Expands (extends' : List ExtendInfo) : ℕ → CapabilityRequirement → Prop
  | 0, _ => False
  | n + 1, r => r.arguments.any (Verify.containsSymbolicParam (Limits.maxGenericDepth + 1)) = false ∧
    ∀ r' ∈ requires extends' r, Expands extends' n r'

/-- How many requirements it expands to, each counted as often as it is met. -/
def spread (extends' : List ExtendInfo) : ℕ → CapabilityRequirement → ℕ
  | 0, _ => 0
  | n + 1, r => 1 + ((requires extends' r).map (spread extends' n)).sum

theorem Accepted.requires_eq (h : Accepted accepted m) {e : ExtendInfo} (hmem : e ∈ accepted)
    {r : CapabilityRequirement} (hprotocol : e.protocol = r.protocol) {σ : Subst}
    (hmatch : matchExtendHead e.protocolArguments r.arguments = some σ) :
    requires accepted r = nestedRequirements e σ := by
  have hone := answers_length_le_one h.declared h.checked r
  have hin : e ∈ accepted.filter (answers r) :=
    List.mem_filter.mpr ⟨hmem, by simp [answers, hprotocol, hmatch]⟩
  have hfilter : accepted.filter (answers r) = [e] := by
    cases hlist : accepted.filter (answers r) with
    | nil => exact absurd (hlist ▸ hin) List.not_mem_nil
    | cons x rest =>
      have hrest : rest = [] := by simpa [hlist] using hone
      have heq : e = x := List.mem_singleton.mp (hrest ▸ hlist ▸ hin)
      rw [heq, hrest]
  simp [requires, hfilter, hmatch]

/-! ### What the verifier accepts -/

theorem spend_succ {depth budget : ℕ} (h : depth ≤ Limits.maxCapabilityDepth) :
    Verify.spend depth (budget + 1) = .ok budget := by
  simp [Verify.spend, Nat.not_lt.mpr h, pure, Except.pure]

theorem spend_zero (depth left : ℕ) : Verify.spend depth 0 ≠ .ok left := by
  by_cases h : depth > Limits.maxCapabilityDepth
  · simp [Verify.spend, h, bind, Except.bind, throw, throwThe, MonadExceptOf.throw]
  · simp [Verify.spend, h, bind, Except.bind, throw, throwThe, MonadExceptOf.throw]

theorem spend_deep {depth : ℕ} (h : depth > Limits.maxCapabilityDepth) (budget left : ℕ) :
    Verify.spend depth budget ≠ .ok left := by
  simp [Verify.spend, h, bind, Except.bind, throw, throwThe, MonadExceptOf.throw]

theorem bind_ne_ok {ε α β : Type} {x : Except ε α} {f : α → Except ε β} {b : β}
    (h : ∀ a, x ≠ .ok a) : x >>= f ≠ .ok b := by
  cases x with
  | error e => simp [bind, Except.bind]
  | ok a => exact absurd rfl (h a)

theorem bind_eq_ok {ε α β : Type} {x : Except ε α} {f : α → Except ε β} {b : β} :
    x >>= f = .ok b ↔ ∃ a, x = .ok a ∧ f a = .ok b := by
  cases x with
  | error e => simp [bind, Except.bind]
  | ok a => simp [bind, Except.bind]

variable {own : List CapabilityRequirement}

/-- A requirement under what a match bound. -/
def instantiated (σ : Subst) (r : CapabilityRequirement) : CapabilityRequirement :=
  ⟨r.protocol, r.arguments.map (substitute · σ)⟩

theorem derivesAll_length {extends' : List ExtendInfo} {nested : List Evidence}
    {rs : List CapabilityRequirement} (h : DerivesAll extends' nested rs) :
    nested.length = rs.length := by
  induction nested generalizing rs with
  | nil =>
    have hnil : rs = [] := h
    rw [hnil]
    rfl
  | cons n ns ih =>
    obtain ⟨r, rs', heq, _, hrest⟩ := h
    rw [heq, List.length_cons, List.length_cons, ih hrest]

/-- Within the budgets, and with nothing symbolic required, all that is left of
evidence whose extension answers is what is nested in it. -/
theorem checkEvidence_extension (h : Accepted accepted m) {e : ExtendInfo} (hmem : e ∈ accepted)
    {r : CapabilityRequirement} (hprotocol : e.protocol = r.protocol) {σ : Subst}
    (hmatch : matchExtendHead e.protocolArguments r.arguments = some σ) {nested : List Evidence}
    (hlength : nested.length = e.requirements.length)
    (hsymbolic : r.arguments.any (Verify.containsSymbolicParam (Limits.maxGenericDepth + 1)) = false)
    {depth : ℕ} (hdepth : depth ≤ Limits.maxCapabilityDepth) (allow : Bool) (budget : ℕ) :
    Verify.checkEvidence (Verify.aggregateContext m) own r.protocol r.arguments allow depth
        (budget + 1) (.extension e.id nested) =
      Verify.checkNested (Verify.aggregateContext m) own e.requirements σ (depth + 1) budget
        nested := by
  have ⟨name, methods, hextension⟩ := h.extension hmem
  have hhead : Verify.matchExtendHeads (extendLayout e name methods) r.arguments = some σ :=
    (matchExtendHeads_eq name methods (h.declared.mentions e hmem) r.arguments).trans hmatch
  have hlayout : (extendLayout e name methods).protocol = r.protocol := hprotocol
  have hrequirements : (extendLayout e name methods).requirements = e.requirements := rfl
  rw [Verify.checkEvidence, spend_succ hdepth]
  simp [hsymbolic, hextension, hhead, hlayout, hrequirements, hlength, bind, Except.bind]

mutual

/-- The verifier follows evidence that is right exactly as far as its budgets and the
types required let it. -/
theorem checkEvidence_iff (h : Accepted accepted m) {n depth budget left : ℕ}
    (hdepth : depth + n = Limits.maxCapabilityDepth + 1) {allow : Bool} :
    ∀ {evidence : Evidence} {r : CapabilityRequirement}, Derives accepted evidence r →
      (Verify.checkEvidence (Verify.aggregateContext m) own r.protocol r.arguments allow depth budget
          evidence = .ok left ↔ Expands accepted n r ∧ left + spread accepted n r = budget)
  | .forwarded _, _, hderives => hderives.elim
  | .extension extend nested, r, hderives => by
    have ⟨e, hmem, hid, hprotocol, σ, hmatch, hnested⟩ := hderives
    subst hid
    cases n with
    | zero =>
      rw [Verify.checkEvidence]
      constructor
      · exact fun hok => absurd hok (bind_ne_ok (spend_deep (by omega) budget))
      · exact fun hexpands => hexpands.1.elim
    | succ n =>
      cases budget with
      | zero =>
        rw [Verify.checkEvidence]
        constructor
        · exact fun hok => absurd hok (bind_ne_ok (spend_zero depth))
        · intro hexpands
          have hspread := hexpands.2
          rw [spread] at hspread
          omega
      | succ budget =>
        have hlevel : depth ≤ Limits.maxCapabilityDepth := by omega
        cases hsymbolic : r.arguments.any
            (Verify.containsSymbolicParam (Limits.maxGenericDepth + 1)) with
        | true =>
          rw [Verify.checkEvidence, spend_succ hlevel]
          simp [Expands, hsymbolic, bind, Except.bind, throw, throwThe, MonadExceptOf.throw]
        | false =>
          have hlength : nested.length = e.requirements.length := by
            simpa [nestedRequirements] using derivesAll_length hnested
          rw [checkEvidence_extension h hmem hprotocol hmatch hlength hsymbolic hlevel]
          have hsame : nestedRequirements e σ = e.requirements.map (instantiated σ) := rfl
          have hdepth' : depth + 1 + n = Limits.maxCapabilityDepth + 1 := by omega
          rw [checkNested_iff h hdepth' (hsame ▸ hnested)]
          simp only [Expands, spread, h.requires_eq hmem hprotocol hmatch, hsymbolic, hsame, true_and]
          apply and_congr_right
          intro _
          omega

theorem checkNested_iff (h : Accepted accepted m) {n depth budget left : ℕ}
    (hdepth : depth + n = Limits.maxCapabilityDepth + 1) :
    ∀ {nested : List Evidence} {requirements : List CapabilityRequirement} {σ : Subst},
      DerivesAll accepted nested (requirements.map (instantiated σ)) →
      (Verify.checkNested (Verify.aggregateContext m) own requirements σ depth budget nested =
          .ok left ↔
        (∀ r ∈ requirements.map (instantiated σ), Expands accepted n r) ∧
          left + ((requirements.map (instantiated σ)).map (spread accepted n)).sum = budget)
  | [], requirements, σ, hderives => by
    have hnil : requirements = [] := by
      have hmap : requirements.map (instantiated σ) = [] := hderives
      exact List.map_eq_nil_iff.mp hmap
    subst hnil
    simp [Verify.checkNested, pure, Except.pure, eq_comm]
  | first :: rest, requirements, σ, hderives => by
    have ⟨r, rs, heq, hone, hrest⟩ := hderives
    cases requirements with
    | nil => exact absurd heq (by simp)
    | cons required requirements =>
      rw [List.map_cons, List.cons.injEq] at heq
      have ⟨hfirst, hmap⟩ := heq
      subst hfirst
      subst hmap
      rw [Verify.checkNested]
      rw [bind_eq_ok]
      have hcheck : ∀ mid, Verify.checkEvidence (Verify.aggregateContext m) own required.protocol
          (required.arguments.map (substitute · σ)) false depth budget first = .ok mid ↔
            Expands accepted n (instantiated σ required) ∧
              mid + spread accepted n (instantiated σ required) = budget :=
        fun mid => checkEvidence_iff h hdepth hone
      simp only [hcheck, checkNested_iff h hdepth hrest, List.map_cons, List.forall_mem_cons,
        List.sum_cons]
      constructor
      · intro hboth
        have ⟨mid, ⟨hexpands, hspread⟩, hall, hsum⟩ := hboth
        exact ⟨⟨hexpands, hall⟩, by omega⟩
      · intro hboth
        have ⟨⟨hexpands, hall⟩, hsum⟩ := hboth
        exact ⟨_, ⟨hexpands, Nat.sub_add_cancel (by omega)⟩, hall, by omega⟩

end

/-! ### Agreement -/

/-- The verifier's budgets and its guard on the types required suffice for the whole
expansion of a requirement. -/
def Verifiable (extends' : List ExtendInfo) (r : CapabilityRequirement) : Prop :=
  Expands extends' (Limits.maxCapabilityDepth + 1) r ∧
    spread extends' (Limits.maxCapabilityDepth + 1) r ≤ Limits.maxCapabilityResolutionSteps

/-- What the verifier says of one piece of evidence at the root of a call. -/
def VerifierAccepts (m : Module) (own : List CapabilityRequirement) (r : CapabilityRequirement)
    (evidence : Evidence) : Prop :=
  ∃ left, Verify.checkEvidence (Verify.aggregateContext m) own r.protocol r.arguments true 0
    Limits.maxCapabilityResolutionSteps evidence = .ok left

/-- Declared requirements mention no inference variables. -/
def Plain (own : List CapabilityRequirement) : Prop :=
  ∀ r ∈ own, ∀ a ∈ r.arguments, ∀ v, .var v ∉ a.leaves

theorem finish_of_mem_own (hown : Plain own) {r : CapabilityRequirement} (hmem : r ∈ own)
    (θ : TyVar → Ty) : r.finish θ = r := by
  have hsame : r.arguments.map (Ty.finish θ) = r.arguments :=
    (List.map_congr_left fun a ha => Ty.finish_of_plain (hown r hmem a ha)).trans (List.map_id _)
  rw [CapabilityRequirement.finish, hsame]

theorem accepts_forwarded (hmem : r ∈ own) : VerifierAccepts m own r (.forwarded (own.idxOf r)) := by
  have hget : own[own.idxOf r]? = some r := List.getElem?_idxOf hmem
  have hbudget : Limits.maxCapabilityResolutionSteps = 4095 + 1 := rfl
  refine ⟨4095, ?_⟩
  rw [Verify.checkEvidence, hbudget, spend_succ (Nat.zero_le _)]
  simp [hget, bind, Except.bind, pure, Except.pure]

theorem accepts_iff (h : Accepted accepted m) {e : Evidence} {r : CapabilityRequirement}
    (hderives : Derives accepted e r) : VerifierAccepts m own r e ↔ Verifiable accepted r := by
  have hdepth : 0 + (Limits.maxCapabilityDepth + 1) = Limits.maxCapabilityDepth + 1 := by omega
  unfold VerifierAccepts Verifiable
  simp only [checkEvidence_iff h hdepth hderives]
  constructor
  · intro haccepts
    have ⟨left, hexpands, hspread⟩ := haccepts
    exact ⟨hexpands, by omega⟩
  · exact fun ⟨hexpands, hspread⟩ => ⟨_, hexpands, Nat.sub_add_cancel hspread⟩

/-- What is resolved for a requirement is accepted for it, once its inference variables
are known, when it is forwarded or the expansion of the requirement is verifiable. -/
theorem resolveRequirement_accepts (h : Accepted accepted m) (hown : Plain own) (θ : TyVar → Ty)
    (r : CapabilityRequirement) :
    (resolveRequirement accepted r own).Keeps (CacheRight accepted) fun answer =>
      ∀ e, answer = some e →
        (VerifierAccepts m own (r.finish θ) e ↔ r ∈ own ∨ Verifiable accepted (r.finish θ)) := by
  apply (resolveRequirement_keeps r own).mono
  intro answer hanswer e heq
  rcases hanswer e heq with ⟨hmem, hforwarded⟩ | ⟨hmem, hderives⟩
  · rw [finish_of_mem_own hown hmem θ, hforwarded]
    exact ⟨fun _ => .inl hmem, fun _ => accepts_forwarded hmem⟩
  · rw [accepts_iff h (hderives.finish h.declares θ)]
    exact ⟨.inr, fun hcase => hcase.resolve_left hmem⟩

theorem finish_callRequirement {typeParams : List TypeParamId} {typeArgs : List Ty}
    (hlength : typeParams.length = typeArgs.length) {r : CapabilityRequirement}
    (hwritten : ∀ a ∈ r.arguments, a.Written)
    (hscope : ∀ a ∈ r.arguments, ∀ id, .param id ∈ a.leaves → id ∈ typeParams) (θ : TyVar → Ty) :
    (callRequirement typeParams typeArgs r).finish θ =
      callRequirement typeParams (typeArgs.map (Ty.finish θ)) r := by
  unfold callRequirement CapabilityRequirement.finish
  simp only [List.map_map]
  congr 1
  apply List.map_congr_left
  intro a ha
  simp only [Function.comp, substitute_eq _ (hwritten a ha).depth]
  rw [Ty.finish_instantiate (hwritten a ha).plain]
  apply Ty.instantiate_congr
  intro id hid
  have ⟨bound, _, hlookup⟩ := collectSubst_lookup_mem hlength (hscope a ha id hid)
  simp [Subst.get, collectSubst_lookup_comp, hlookup]

theorem checkCallEvidence_eq_nil {requirements : List CapabilityRequirement} {subst : Subst}
    {evidence : List Evidence} (hlength : evidence.length = requirements.length) :
    Verify.checkCallEvidence (Verify.aggregateContext m) own requirements subst evidence = [] ↔
      List.Forall₂ (fun e r => VerifierAccepts m own (instantiated subst r) e) evidence
        requirements := by
  unfold Verify.checkCallEvidence
  rw [if_neg (not_not.mpr hlength), List.flatMap_eq_nil_iff, List.forall₂_iff_zip]
  unfold VerifierAccepts instantiated
  constructor
  · intro hall
    refine ⟨hlength, ?_⟩
    intro e r hmem
    have hnone := hall (e, r) hmem
    dsimp only at hnone
    split at hnone
    · rename_i left hok
      exact ⟨left, hok⟩
    · simp at hnone
  · intro hall p hmem
    obtain ⟨left, hok⟩ := hall.2 hmem
    simp [hok]

theorem forall₂_iff_of_each {α β : Type} {A : α → β → Prop} {B : α → Prop} {as : List α}
    {bs : List β} (h : List.Forall₂ (fun a b => A a b ↔ B a) as bs) :
    List.Forall₂ (fun b a => A a b) bs as ↔ ∀ a ∈ as, B a := by
  induction h with
  | nil => simp
  | cons hone _ ih => rw [List.forall₂_cons, List.forall_mem_cons, hone, ih]

theorem resolveCallEvidence_accepts (h : Accepted accepted m) (hown : Plain own) (θ : TyVar → Ty)
    {requirements : List CapabilityRequirement} {typeParams : List TypeParamId}
    {typeArgs : List Ty} (hlength : typeParams.length = typeArgs.length)
    (hdeclared : ∀ r ∈ requirements, ∀ a ∈ r.arguments, a.Written ∧
      ∀ id, .param id ∈ a.leaves → id ∈ typeParams) :
    (resolveCallEvidence accepted requirements typeParams typeArgs own).Keeps (CacheRight accepted)
      fun answer => ∀ es, answer = some es → List.Forall₂ (fun r e =>
        (VerifierAccepts m own
            (instantiated (collectSubst typeParams (typeArgs.map (Ty.finish θ))) r) e ↔
          callRequirement typeParams typeArgs r ∈ own ∨
            Verifiable accepted ((callRequirement typeParams typeArgs r).finish θ))) requirements es := by
  have hone : ∀ r ∈ requirements, (resolveRequirement accepted
      (callRequirement typeParams typeArgs r) own).Keeps (CacheRight accepted) fun answer =>
        ∀ e, answer = some e → (VerifierAccepts m own
            (instantiated (collectSubst typeParams (typeArgs.map (Ty.finish θ))) r) e ↔
          callRequirement typeParams typeArgs r ∈ own ∨
            Verifiable accepted ((callRequirement typeParams typeArgs r).finish θ)) := by
    intro r hr
    have hcall := finish_callRequirement hlength (fun a ha => (hdeclared r hr a ha).1)
      (fun a ha => (hdeclared r hr a ha).2) θ
    have hlowered : instantiated (collectSubst typeParams (typeArgs.map (Ty.finish θ))) r =
        (callRequirement typeParams typeArgs r).finish θ := hcall.symm
    rw [hlowered]
    exact resolveRequirement_accepts h hown θ _
  apply (resolveEach_keeps hone).mono
  intro answer hanswer es heq
  exact (hanswer es heq).imp fun r e hpiece => hpiece e rfl

/-- Evidence agreement: whatever extensions a program has declared and whatever was
resolved before, the evidence of a protocol call or of a call is accepted once lowered
exactly when each requirement is forwarded or its expansion is verifiable. -/
theorem evidence_agreement (h : Accepted accepted m) (hown : Plain own) {s : SolverState}
    (hs : Reached (registeredExtends accepted) s) (θ : TyVar → Ty) :
    (∀ r e s', (resolveRequirement (registeredExtends accepted) r own).run s = (some e, s') →
      (VerifierAccepts m own (r.finish θ) e ↔ r ∈ own ∨ Verifiable accepted (r.finish θ))) ∧
    ∀ requirements typeParams typeArgs es s', typeParams.length = typeArgs.length →
      (∀ r ∈ requirements, ∀ a ∈ r.arguments, a.Written ∧
        ∀ id, .param id ∈ a.leaves → id ∈ typeParams) →
      (resolveCallEvidence (registeredExtends accepted) requirements typeParams typeArgs own).run s =
        (some es, s') →
      (Verify.checkCallEvidence (Verify.aggregateContext m) own requirements
          (collectSubst typeParams (typeArgs.map (Ty.finish θ))) es = [] ↔
        ∀ r ∈ requirements, callRequirement typeParams typeArgs r ∈ own ∨
          Verifiable accepted ((callRequirement typeParams typeArgs r).finish θ)) := by
  have hregistered := registeredExtends_of_checked h.checked
  rw [hregistered] at hs ⊢
  have hright := hs.cacheRight
  constructor
  · intro r e s' hrun
    have ⟨answer, _, hrun', hanswer, _⟩ := resolveRequirement_accepts h hown θ r s hright
    have heq : (some e, s') = (answer, _) := hrun.symm.trans hrun'
    cases heq
    exact hanswer e rfl
  · intro requirements typeParams typeArgs es s' hlength hdeclared hrun
    have ⟨answer, _, hrun', hanswer, _⟩ :=
      resolveCallEvidence_accepts h hown θ hlength hdeclared s hright
    have heq : (some es, s') = (answer, _) := hrun.symm.trans hrun'
    cases heq
    have heach := hanswer es rfl
    rw [checkCallEvidence_eq_nil heach.length_eq.symm]
    exact forall₂_iff_of_each heach

end

/-! ### Requirements met again and again -/

/-- `i64` in so many boxes. -/
def boxed : ℕ → Ty
  | 0 => .i64
  | n + 1 => .applied ⟨2⟩ [boxed n]

/-- `extend P[K, i64]` and `extend[T] P[K, Box[T]] uses P[bool, T], P[char, T]`, each for
`bool` and for `char` as `K`. -/
def doubling : List ExtendInfo :=
  [⟨⟨10⟩, [], ⟨0⟩, [.bool, .i64], []⟩, ⟨⟨11⟩, [], ⟨0⟩, [.char, .i64], []⟩,
    ⟨⟨12⟩, [⟨0⟩], ⟨0⟩, [.bool, .applied ⟨2⟩ [.param ⟨0⟩]],
      [⟨⟨0⟩, [.bool, .param ⟨0⟩]⟩, ⟨⟨0⟩, [.char, .param ⟨0⟩]⟩]⟩,
    ⟨⟨13⟩, [⟨1⟩], ⟨0⟩, [.char, .applied ⟨2⟩ [.param ⟨1⟩]],
      [⟨⟨0⟩, [.bool, .param ⟨1⟩]⟩, ⟨⟨0⟩, [.char, .param ⟨1⟩]⟩]⟩]

def doublingModule : Module where
  extensions := doubling.map fun e => (e.id, extendLayout e (fun _ => ⟨0⟩) [])

/-- `P[bool, B]` for `B` so many boxes. -/
def boxRequirement (n : ℕ) : CapabilityRequirement := ⟨⟨0⟩, [.bool, boxed n]⟩

theorem doubling_declares : ∀ e ∈ doubling, e.Declares := by
  have hbool : Ty.bool.Written := ⟨by simp [Ty.leaves], rfl⟩
  have hchar : Ty.char.Written := ⟨by simp [Ty.leaves], rfl⟩
  have hground : Ty.i64.Written := ⟨by simp [Ty.leaves], rfl⟩
  have hparam : ∀ id, (Ty.param id).Written := fun id => ⟨by simp, rfl⟩
  have hbox : ∀ id, (Ty.applied ⟨2⟩ [.param id]).Written := fun id => ⟨by simp, rfl⟩
  intro e hmem
  simp only [doubling, List.mem_cons, List.not_mem_nil, or_false] at hmem
  rcases hmem with rfl | rfl | rfl | rfl
  all_goals
    constructor
    all_goals simp [hbool, hchar, hground, hparam, hbox, Ty.leaves]

theorem doubling_accepted : Accepted doubling doublingModule where
  declared := ⟨by simp [doubling, Ty.leaves], by simp [doubling]⟩
  declares := doubling_declares
  checked := by decide +kernel
  ids := by decide
  lowered := by
    rw [doublingModule, List.forall₂_map_right_iff, List.forall₂_same]
    exact fun e _ => ⟨_, _, rfl⟩

theorem spread_boxed (n : ℕ) : ∀ levels, n < levels → ∀ k : Ty, k = .bool ∨ k = .char →
    2 ^ (n + 1) ≤ spread doubling levels ⟨⟨0⟩, [k, boxed n]⟩ + 1 := by
  have hrequires : ∀ n (k : Ty), k = .bool ∨ k = .char →
      requires doubling ⟨⟨0⟩, [k, boxed (n + 1)]⟩ =
        [⟨⟨0⟩, [.bool, boxed n]⟩, ⟨⟨0⟩, [.char, boxed n]⟩] := by
    intro n k hk
    rcases hk with rfl | rfl <;> with_unfolding_all rfl
  induction n with
  | zero =>
    intro levels hlevels k _
    cases levels with
    | zero => omega
    | succ levels =>
      rw [spread]
      omega
  | succ n ih =>
    intro levels hlevels k hk
    cases levels with
    | zero => omega
    | succ levels =>
      have hbool := ih levels (by omega) .bool (.inl rfl)
      have hchar := ih levels (by omega) .char (.inr rfl)
      rw [spread, hrequires n k hk]
      simp only [List.map_cons, List.map_nil, List.sum_cons, List.sum_nil]
      omega

/-- What is found for one box. -/
theorem evidence_agreement_box :
    ∃ e s', (resolveRequirement (registeredExtends doubling) (boxRequirement 1) []).run {} =
        (some e, s') ∧
      (VerifierAccepts doublingModule [] ((boxRequirement 1).finish .var) e ↔
        boxRequirement 1 ∈ ([] : List CapabilityRequirement) ∨
          Verifiable doubling ((boxRequirement 1).finish .var)) := by
  have hfound : ∀ out, (resolveRequirement (registeredExtends doubling) (boxRequirement 1) []).run
      {} = out → out.1.isSome = true := by
    rintro _ rfl
    decide +kernel
  match hrun : (resolveRequirement (registeredExtends doubling) (boxRequirement 1) []).run {} with
  | (none, s') => exact absurd (hfound _ hrun) (by simp)
  | (some e, s') =>
    exact ⟨e, s', rfl, (evidence_agreement doubling_accepted (by simp [Plain]) .start .var).1 _ e s'
      hrun⟩

/-- Twelve boxes are resolved without a diagnostic, in a few steps, and what is found is
refused by the verifier. -/
theorem boxed_evidence_refused :
    Accepted doubling doublingModule ∧
      ∃ e s', (resolveRequirement (registeredExtends doubling) (boxRequirement 12) []).run {} =
          (some e, s') ∧ s'.diagnostics = [] ∧ s'.steps ≤ 30 ∧
        ¬ VerifierAccepts doublingModule [] (boxRequirement 12) e := by
  have hregistered := registeredExtends_of_checked doubling_accepted.checked
  rw [hregistered]
  have hresolved : ((resolveRequirement doubling (boxRequirement 12) []).run {}).1.isSome = true ∧
      ((resolveRequirement doubling (boxRequirement 12) []).run {}).2.diagnostics = [] ∧
      ((resolveRequirement doubling (boxRequirement 12) []).run {}).2.steps ≤ 30 := by
    decide +kernel
  have ⟨answer, s', hrun, hanswer, _⟩ := resolveRequirement_keeps (boxRequirement 12) [] {}
    (@Reached.cacheRight doubling {} .start)
  have hsome : answer.isSome = true := by
    have hfirst := hresolved.1
    rw [hrun] at hfirst
    exact hfirst
  have ⟨e, heq⟩ := Option.isSome_iff_exists.mp hsome
  have hstate : s'.diagnostics = [] ∧ s'.steps ≤ 30 := by
    have hlast := hresolved.2
    rw [hrun] at hlast
    exact hlast
  refine ⟨doubling_accepted, e, s', heq ▸ hrun, hstate.1, hstate.2, ?_⟩
  rcases hanswer e heq with ⟨hmem, _⟩ | ⟨_, hderives⟩
  · exact absurd hmem List.not_mem_nil
  · rw [accepts_iff doubling_accepted hderives]
    intro hverifiable
    have hspread := spread_boxed 12 (Limits.maxCapabilityDepth + 1) (by decide) .bool (.inl rfl)
    have hbudget := hverifiable.2
    have hsteps : Limits.maxCapabilityResolutionSteps = 4096 := rfl
    unfold boxRequirement at hbudget
    omega

end Napitia.EvidenceAgreement
