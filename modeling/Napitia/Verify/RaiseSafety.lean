import Napitia.Interpreter.Declarations
import Napitia.Verify.Outcomes

/-!
# What leaves a function by a raise

Along every run of an accepted module, a value defined at the type of a variant is a
value of that variant until it is moved away: the interpreter compares what each
instruction computes, and what each parameter is bound to, with the type declared for
it, and no step changes the declaration of what it leaves in place. A slot is left
out, for it holds nothing of its type before its first store. What a function raises
is therefore a case of a variant it declares.
-/
namespace Napitia.Verify
open Nir Interpreter

/-- The function raises what it has computed or was given, and not a slot. -/
def RaisesComputed (f : Function) : Prop :=
  ∀ block ∈ f.blocks, ∀ id, block.terminator = .raise id → id ∉ allocSlots f

/-- A module the verifier accepts, none of whose functions raises a slot. -/
structure OutcomesAccepted (m : Module) : Prop where
  checked : verifyModule m = []
  outcomes : ∀ f ∈ m.functions, verifyOutcomes m f = []
  computed : ∀ f ∈ m.functions, RaisesComputed f

/-- The point is somewhere in a block of a function of the module. -/
def InCode (m : Module) (p : Point) : Prop :=
  p.ctx.function ∈ m.functions ∧ ∃ block ∈ p.ctx.function.blocks,
    p.instructions <:+ block.instructions ∧ p.terminator = block.terminator

/-- What is defined at the type of a declaration that is no record is of that
declaration, or has been moved away. -/
def Holding (m : Module) (f : Function) (values : Values) : Prop :=
  ∀ id item v, id ∉ allocSlots f → valueTypes f id = some (.named item) →
    m.findRecord item = none → values.lookup id = some v →
    v.isTombstone = true ∨ v.declaration = some item

/-- A value of a case of a variant that the function declares to raise. -/
def DeclaredError (m : Module) (f : Function) (e : Value) : Prop :=
  ∃ item ∈ f.raises, ∃ typeArgs case payload declared,
    e = .variant item typeArgs case payload ∧ casePayloadTypes m item typeArgs case = .ok declared

/-- What a call leaves and what it may raise. -/
def OutcomePost (m : Module) (request : CallRequest) (_ : InterpreterState) (outcome : Outcome)
    (i' : InterpreterState) : Prop :=
  ItemsDeclared m i'.resources ∧ ∀ e, outcome = .raised e → DeclaredError m request.function e

/-- The invariant of a frame. -/
structure FrameDeclared (m : Module) (request : CallRequest) (ctx : FrameContext)
    (st : FrameState) : Prop where
  function : ctx.function = request.function
  member : request.function ∈ m.functions
  items : ItemsDeclared m st.resources
  holding : Holding m ctx.function st.values

section
variable {m : Module} {fpu : FloatUnit} {call : Call} {request : CallRequest} {ctx : FrameContext}
  {st st' : FrameState} {f : Function} {values values' : Values}

theorem mem_definitions_of_mem {block : BasicBlock} {result : ValueId} {ty : Ty} {kind : ValueKind}
    (hblock : block ∈ f.blocks) (hmem : .value result ty kind ∈ block.instructions) :
    (result, ty) ∈ definitions f := by
  refine List.mem_append_right _ (List.mem_filterMap.mpr ⟨.value result ty kind, ?_, rfl⟩)
  exact List.mem_flatMap.mpr ⟨block, hblock, hmem⟩

theorem mem_allocSlots_of_mem {block : BasicBlock} {result : ValueId} {ty : Ty}
    (hblock : block ∈ f.blocks) (hmem : .value result ty .alloc ∈ block.instructions) :
    result ∈ allocSlots f :=
  List.mem_filterMap.mpr ⟨.value result ty .alloc, List.mem_flatMap.mpr ⟨block, hblock, hmem⟩, rfl⟩

theorem itemsDeclaredRule : TableRule m (ItemsDeclared m) := itemsRule findRecord_of_isResource

theorem OutcomePost.guarantees {p : Point} (h : Guarantees m (OutcomePost m) call p) :
    Guarantees m (TablePost (ItemsDeclared m)) call p :=
  fun request outcome i hr hcall => (h request outcome i hr hcall).1

theorem Holding.carries {written : Option ValueId} (h : Holding m f values)
    (hcarries : Carries written values values') {id : ValueId} {item : ItemId} {v : Value}
    (hid : written ≠ some id) (hslot : id ∉ allocSlots f)
    (hty : valueTypes f id = some (.named item)) (hrecord : m.findRecord item = none)
    (hv : values'.lookup id = some v) : v.isTombstone = true ∨ v.declaration = some item := by
  rcases hcarries id hid v hv with htomb | ⟨w, hw, hdecl, htomb⟩
  · exact .inl htomb
  · rw [hdecl, htomb]
    exact h id item w hslot hty hrecord hw

theorem Holding.slot (h : Holding m f values) {slot : ValueId} (hslot : slot ∈ allocSlots f)
    (v : Value) : Holding m f (values.insert slot v) := by
  intro id item w hid hty hrecord hw
  have hne : id ≠ slot := fun heq => hid (heq ▸ hslot)
  rw [AList.lookup_insert_ne hne] at hw
  exact h id item w hid hty hrecord hw

theorem holding_enter {i i' : InterpreterState} (haccepted : OutcomesAccepted m)
    (hf : request.function ∈ m.functions) (hitems : ItemsDeclared m i.resources)
    (hbind : bindParameters m request i = .ok (ctx, values) i') :
    Holding m request.function values := by
  intro id item v _ hty hrecord hv
  obtain ⟨param, hparam, rfl, hdeclared⟩ := bindParameters_declared hbind hitems hv
  have hmem : (param.value, param.ty) ∈ definitions request.function :=
    List.mem_append_left _ (List.mem_map_of_mem (f := fun p : Param => (p.value, p.ty)) hparam)
  have htypes := (sound_of_accepted haccepted.checked hf).valueTypes_of_mem hmem
  have heq : param.ty = .named item := Option.some.inj (htypes.symm.trans hty)
  exact .inr (hdeclared item heq hrecord)

theorem holding_instruction {i : Instruction} {rest : List Instruction} {terminator : Terminator}
    (haccepted : OutcomesAccepted m) (hcode : InCode m ⟨ctx, st, i :: rest, terminator⟩)
    (hholding : Holding m ctx.function st.values) (hitems : ItemsDeclared m st'.resources)
    (h : execInstruction m fpu call ctx i st = .ok ⟨⟩ st') :
    Holding m ctx.function st'.values := by
  obtain ⟨hf, block, hblock, hsuffix, -⟩ := hcode
  have hmem : i ∈ block.instructions := hsuffix.subset List.mem_cons_self
  have hcarries := instruction_carries h
  intro id item v hslot hty hrecord hv
  by_cases hid : targetOf i = some id
  · cases i with
    | value result ty kind =>
      obtain rfl : result = id := Option.some.inj hid
      have hkind : kind ≠ .alloc := by
        rintro rfl
        exact hslot (mem_allocSlots_of_mem hblock hmem)
      have htypes := (sound_of_accepted haccepted.checked hf).valueTypes_of_mem
        (mem_definitions_of_mem hblock hmem)
      obtain rfl : ty = .named item := Option.some.inj (htypes.symm.trans hty)
      have hexec : execValue m fpu call ctx result (.named item) kind st = .ok ⟨⟩ st' := h
      obtain ⟨w, hw, hdeclared⟩ := execValue_declared hkind hexec
      rw [hv] at hw
      cases hw
      exact .inr (declaration_of_named hitems hrecord hdeclared)
    | store slot value mode =>
      obtain rfl : slot = id := Option.some.inj hid
      have hnil := (verifyOutcomes_eq_nil (haccepted.outcomes _ hf) hblock).1 _ hmem
      exact absurd (verifyStore_slot hnil) hslot
    | _ => cases hid
  · exact hholding.carries hcarries hid hslot hty hrecord hv

theorem resumeInvoke_edge {okSlot slot : ValueId} {okTarget target : BlockId}
    {errTargets : List InvokeErrTarget} {outcome : Outcome} {v : Value}
    (h : resumeInvoke okSlot okTarget errTargets outcome = .ok (slot, v, target)) :
    (target = okTarget ∧ slot = okSlot) ∨ ∃ t ∈ errTargets, t.target = target ∧ t.slot = slot := by
  unfold resumeInvoke at h
  cases outcome with
  | returned value =>
    cases h
    exact .inl ⟨rfl, rfl⟩
  | raised value =>
    cases value with
    | variant item typeArgs case payload =>
      dsimp only at h
      cases hfind : errTargets.find? fun t => decide (t.variant = item) with
      | none =>
        simp only [hfind] at h
        exact absurd h Except.throw_ne_ok
      | some t =>
        simp only [hfind] at h
        cases h
        exact .inr ⟨t, List.mem_of_find?_eq_some hfind, rfl, rfl⟩
    | _ => exact absurd h Except.throw_ne_ok

theorem holding_jump {terminator : Terminator} {next : BlockId}
    (haccepted : OutcomesAccepted m) (hcode : InCode m ⟨ctx, st, [], terminator⟩)
    (hholding : Holding m ctx.function st.values)
    (h : execTerminator m call ctx terminator st = .ok (.goto next) st') :
    Holding m ctx.function st'.values := by
  obtain ⟨hf, block, hblock, -, rfl⟩ := hcode
  have hnil := (verifyOutcomes_eq_nil (haccepted.outcomes _ hf) hblock).2
  generalize block.terminator = terminator at h hnil
  cases execTerminator_effect h with
  | jump => exact hholding
  | invoke _ _ hresume =>
    obtain ⟨hok, herr⟩ := verifyInvokeOutcome_slots hnil
    rcases resumeInvoke_edge hresume with ⟨-, rfl⟩ | ⟨t, ht, -, rfl⟩
    · exact hholding.slot hok _
    · exact hholding.slot (herr t ht) _

theorem declaredError_of_exit {terminator : Terminator} {e : Value}
    (haccepted : OutcomesAccepted m) (hcode : InCode m ⟨ctx, st, [], terminator⟩)
    (hholding : Holding m ctx.function st.values)
    (h : execTerminator m call ctx terminator st = .ok (.exit (.raised e)) st') :
    DeclaredError m ctx.function e := by
  obtain ⟨hf, block, hblock, -, hterm⟩ := hcode
  obtain ⟨id, rfl⟩ := raise_of_raised h
  obtain ⟨v, e', plan, heq, hv, hplan⟩ := execTerminator_raise h
  cases heq
  have hnil := (verifyOutcomes_eq_nil (haccepted.outcomes _ hf) hblock).2
  rw [← hterm] at hnil
  obtain ⟨item, hitem, hty⟩ := verifyRaise_declared hnil
  obtain ⟨layout, hlayout, -⟩ := (sound_of_accepted haccepted.checked hf).raises item hitem
  have hrecord := (distinct_of_accepted haccepted.checked).findRecord_of_variant hlayout
  have hslot := haccepted.computed _ hf block hblock id hterm.symm
  have hlive := (planTransfer_declaration hplan).2
  rcases hholding id item v hslot hty hrecord hv with htomb | hdecl
  · rw [hlive] at htomb
    cases htomb
  · obtain ⟨typeArgs, case, payload, declared, rfl, hcase⟩ :=
      planTransfer_variant hplan hdecl hrecord
    exact ⟨item, hitem, typeArgs, case, payload, declared, rfl, hcase⟩

theorem raiseRule (haccepted : OutcomesAccepted m) : FrameRule m fpu (InCode m)
    (fun request s => request.function ∈ m.functions ∧ ItemsDeclared m s.resources)
    (OutcomePost m) (fun request _ ctx st => FrameDeclared m request ctx st) where
  enter := by
    intro request s ctx values s' hpre hbind
    obtain ⟨_, _, _, -, -, -, hctx, -⟩ := bindParameters_eq_ok hbind
    have hfunction : ctx.function = request.function := by rw [hctx]
    have hitems : ItemsDeclared m s.enter.resources := hpre.2
    refine ⟨hfunction, hpre.1, itemsDeclaredRule.enter hitems hbind, ?_⟩
    rw [hfunction]
    exact holding_enter haccepted hpre.1 hitems hbind
  nested := fun hJ hr => ⟨requests_function_mem hr, hJ.items⟩
  instruction := by
    intro request s call ctx st st' i rest terminator hJ hP hcall h
    have hitems := itemsDeclaredRule.instruction hJ.items (OutcomePost.guarantees hcall) h
    exact ⟨hJ.function, hJ.member, hitems,
      holding_instruction haccepted hP hJ.holding hitems h⟩
  jump := by
    intro request s call ctx st st' terminator next hJ hP hcall h
    have hitems := jump_table hJ.items (OutcomePost.guarantees hcall) h
    exact ⟨hJ.function, hJ.member, hitems, holding_jump haccepted hP hJ.holding h⟩
  exit := by
    intro request s call ctx st st' terminator outcome hJ hP h
    refine ⟨itemsDeclaredRule.exit hJ.items h, ?_⟩
    rintro e rfl
    exact hJ.function ▸ declaredError_of_exit haccepted hP hJ.holding h

theorem meets_inCode {s : InterpreterState} (hf : request.function ∈ m.functions) :
    Meets m fpu (InCode m) request s :=
  fun _ _ hp _ => hp.code hf

/-- A call of an accepted module that raises, raises what its function declares. -/
theorem declaredError_of_call {n : ℕ} {i i' : InterpreterState} {e : Value}
    (haccepted : OutcomesAccepted m) (hitems : ItemsDeclared m i.resources)
    (hf : request.function ∈ m.functions)
    (h : callFunction m fpu n request i = .ok (.raised e) i') :
    DeclaredError m request.function e :=
  ((raiseRule haccepted).call (meets_inCode hf) ⟨hf, hitems⟩ h).2 e rfl

/-- The invariant at every point a call comes to. -/
theorem frameDeclared_of_reached {i : InterpreterState} {p : Point}
    (haccepted : OutcomesAccepted m) (hitems : ItemsDeclared m i.resources)
    (hf : request.function ∈ m.functions) (hp : Reached m fpu request i p) :
    ∃ request', FrameDeclared m request' p.ctx p.state := by
  obtain ⟨request', _, hJ⟩ := (raiseRule haccepted).reached (meets_inCode hf) ⟨hf, hitems⟩ hp
  exact ⟨request', hJ⟩

/-- What leaves a call of an accepted module by a raise is a case of a variant that its
function declares, and in every frame such a call comes to what is defined at the type of a
variant is of that variant until it is moved. -/
theorem raises_declared {P : Point → Prop} {i : InterpreterState}
    (haccepted : OutcomesAccepted m) (hs : Session m fpu P i)
    (hf : request.function ∈ m.functions) :
    (∀ n e i', callFunction m fpu n request i = .ok (.raised e) i' →
      DeclaredError m request.function e) ∧
    ∀ p, Reached m fpu request i p → Holding m p.ctx.function p.state.values := by
  refine ⟨fun n e i' h => declaredError_of_call haccepted hs.items hf h, fun p hp => ?_⟩
  obtain ⟨_, hframe⟩ := frameDeclared_of_reached haccepted hs.items hf hp
  exact hframe.holding

end

/-- A function that finds no file, and a caller that passes the error on. -/
def missing : Function :=
  ⟨⟨2⟩, ⟨2⟩, [], [], [], .unit, [⟨1⟩],
    [⟨⟨0⟩, [.value ⟨0⟩ (.named ⟨1⟩) (.variantCreate ⟨1⟩ 0 [] [])], .raise ⟨0⟩⟩]⟩

def opening : Function :=
  ⟨⟨0⟩, ⟨0⟩, [], [], [], .unit, [⟨1⟩],
    [⟨⟨0⟩, [.value ⟨0⟩ .unit .alloc, .value ⟨1⟩ (.named ⟨1⟩) .alloc],
        .invoke ⟨2⟩ [] [] [] ⟨0⟩ ⟨1⟩ [⟨⟨1⟩, ⟨1⟩, ⟨2⟩⟩]⟩,
      ⟨⟨1⟩, [], .ret none⟩,
      ⟨⟨2⟩, [.value ⟨2⟩ (.named ⟨1⟩) (.load ⟨1⟩)], .raise ⟨2⟩⟩]⟩

def openingModule : Module :=
  { functions := [opening, missing]
    variants := [(⟨1⟩, ⟨⟨1⟩, [], [⟨⟨3⟩, []⟩]⟩)] }

theorem openingModule_accepted : OutcomesAccepted openingModule where
  checked := by decide
  outcomes := by decide
  computed := by
    intro f hf block hblock id hraise
    simp only [openingModule, List.mem_cons, List.not_mem_nil, or_false] at hf
    rcases hf with rfl | rfl
    · simp only [opening, List.mem_cons, List.not_mem_nil, or_false] at hblock
      rcases hblock with rfl | rfl | rfl <;> cases hraise
      decide
    · simp only [missing, List.mem_cons, List.not_mem_nil, or_false] at hblock
      cases hblock
      cases hraise
      decide

theorem raises_declared_opening : ∃ e i',
    callFunction openingModule idleUnit 9 ⟨opening, [], [], []⟩ {} = .ok (.raised e) i' ∧
      DeclaredError openingModule opening e := by
  have hsession : Session openingModule idleUnit (fun _ => True) {} := .fresh
  have hrun : ∃ e i', callFunction openingModule idleUnit 9 ⟨opening, [], [], []⟩ {} =
      .ok (.raised e) i' := ⟨_, _, rfl⟩
  obtain ⟨e, i', hrun⟩ := hrun
  have hmember : (⟨opening, [], [], []⟩ : CallRequest).function ∈ openingModule.functions := by
    simp [openingModule]
  exact ⟨e, i', hrun, (raises_declared openingModule_accepted hsession hmember).1 9 e i' hrun⟩

end Napitia.Verify
