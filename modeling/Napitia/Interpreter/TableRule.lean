import Napitia.Interpreter.Paths

/-!
# Predicates on the resource table

A frame changes the table in few ways: it commits a transfer, changes a status, constructs a
resource, rewrites the end of a path and begins or ends a lease. What all of these keep holds
of every table of a run.
-/
namespace Napitia.Interpreter
open Nir EStateM ResourceTable StateT

/-- Every handle of the value is an owner's. -/
def Owning (v : Value) : Prop := ∀ k ∈ v.handles, k.role = .owner

section Moves
variable {m : Module} {t : ResourceTable}

theorem Moved.owning {p p' : StorePlan} {before after : List ResourceHandle}
    (h : Moved t p p' before after) :
    (∀ k ∈ before, k.role = .owner) ∧ ∀ k ∈ after, k.role = .owner := by
  constructor
  · intro k hk
    obtain ⟨_, -, hrole, -⟩ := h.reissued.exists_right hk
    exact hrole
  · intro k hk
    obtain ⟨_, -, -, r, -, -, rfl⟩ := h.reissued.exists_left hk
    rfl

theorem planTransfer_owning {v w : Value} {p p' : StorePlan}
    (h : (planTransfer m t v).run p = .ok (w, p')) : Owning v ∧ Owning w :=
  (planTransfer_eq_ok h).1.owning

theorem mapM_planTransfer_owning {vs ws : List Value} {p p' : StorePlan}
    (h : (vs.mapM (planTransfer m t)).run p = .ok (ws, p')) :
    (∀ v ∈ vs, Owning v) ∧ ∀ w ∈ ws, Owning w := by
  obtain ⟨-, hall⟩ := StateT.run_mapM_induction (R := fun _ _ => True)
    (P := fun v w => Owning v ∧ Owning w) (fun _ => trivial) (fun _ _ => trivial)
    (fun _ _ _ _ _ hv => ⟨trivial, planTransfer_owning hv⟩) h
  constructor
  · intro v hv
    obtain ⟨_, -, howning⟩ := hall.exists_right hv
    exact howning.1
  · intro w hw
    obtain ⟨_, -, howning⟩ := hall.exists_left hw
    exact howning.2

end Moves

/-- The changes to the table keep what `J` says of it. Whatever a path is made to end in, and
whatever a resource is made of, is planned for and owns. -/
structure TableRule (m : Module) (J : ResourceTable → Prop) : Prop where
  records : ∀ {t t'}, t'.records = t.records → J t → J t'
  transfer : ∀ {t} plan, J t → J (t.commitTransfer plan)
  setStatus : ∀ {t} id status, J t → J (t.setStatus id status)
  construct : ∀ {t item fields}, isResource m item = true → (∀ f ∈ fields, Owning f) → J t →
    J (t.construct item fields).2
  rewrites : ∀ {t t' slot slot' container container' projections},
    Rewrites t slot slot' container projections container' t' → Owning slot' → J t → J t'

/-- What a call guarantees of the table. -/
def TablePost (J : ResourceTable → Prop) (_ : CallRequest) (_ : InterpreterState) (_ : Outcome)
    (i : InterpreterState) : Prop := J i.resources

section
variable {m : Module} {fpu : FloatUnit} {call : Call} {ctx : FrameContext} {s s' : FrameState}
  {J : ResourceTable → Prop}

theorem jump_table (hs : J s.resources) {terminator : Terminator} {next : BlockId}
    (hcall : Guarantees m (TablePost J) call ⟨ctx, s, [], terminator⟩)
    (h : execTerminator m call ctx terminator s = .ok (.goto next) s') : J s'.resources := by
  cases execTerminator_effect h with
  | jump => exact hs
  | invoke hrequest hi _ => exact hcall _ _ _ (.invoke hrequest) hi

namespace TableRule
variable (rule : TableRule m J)
include rule

theorem dropped {t : ResourceTable} (h : J t) (plan : List ResourceHandle) :
    J (plan.foldl (fun t k => t.setStatus k.id .dropped) t) := by
  induction plan generalizing t with
  | nil => exact h
  | cons k plan ih => exact ih (rule.setStatus k.id .dropped h)

theorem parts {i i' : InterpreterState} (h : J i.resources) {values : Values}
    {declared : List Ty} {ids : List ValueId} {parts : List Value}
    (hparts : constructParts m values declared ids i = .ok parts i') :
    J i'.resources ∧ ∀ f ∈ parts, Owning f := by
  obtain ⟨_, plan, -, -, hplan, rfl⟩ := constructParts_eq_ok hparts
  exact ⟨rule.transfer plan h, (mapM_planTransfer_owning hplan).2⟩

theorem eval (hs : J s.resources) {kind : ValueKind} {v : Value} {i : InterpreterState}
    {result : ValueId} {ty : Ty} {rest : List Instruction} {terminator : Terminator}
    (hexec : (unexecutableNumericName (substitute ty ctx.subst)).isSome = false)
    (hcall : Guarantees m (TablePost J) call ⟨ctx, s, .value result ty kind :: rest, terminator⟩)
    (h : EvalEffect m call ctx s.values s.interpreter kind v i) : J i.resources := by
  cases h with
  | scalar | load | recordField | variantPayload => exact hs
  | move _ _ hplan => exact rule.transfer _ hs
  | call hrequest hi => exact hcall _ _ _ (.call hexec hrequest) hi
  | protocolCall hrequest hi => exact hcall _ _ _ (.protocolCall hexec hrequest) hi
  | resource hparts _ hresource =>
    obtain ⟨hkept, hfields⟩ := rule.parts hs hparts
    exact rule.construct hresource hfields hkept
  | record hparts _ => exact (rule.parts hs hparts).1
  | variant hparts _ => exact (rule.parts hs hparts).1

theorem value (hs : J s.resources) {result : ValueId} {ty : Ty} {kind : ValueKind}
    {rest : List Instruction} {terminator : Terminator}
    (hcall : Guarantees m (TablePost J) call ⟨ctx, s, .value result ty kind :: rest, terminator⟩)
    (h : execValue m fpu call ctx result ty kind s = .ok ⟨⟩ s') : J s'.resources := by
  obtain ⟨v, u, heffect, hexec, rfl⟩ := execValue_eq_ok h
  change J u.resources
  cases heffect with
  | @placeRead place mode _ _ hread =>
    cases mode with
    | observe =>
      obtain ⟨_, _, -, -, -, rfl⟩ := accessPlace_observe_eq_ok.mp hread
      exact hs
    | transfer =>
      obtain ⟨_, _, _, _, -, -, -, hvalid, hcommit, rfl⟩ := accessPlace_transfer_eq_ok hread
      rcases commitTake_rewrites hvalid hcommit with ⟨-, -, rfl⟩ | ⟨-, hrw⟩
      · exact hs
      · exact rule.rewrites hrw (by simp [Owning, Value.handles]) hs
  | observePlace hobserve =>
    obtain ⟨_, _, _, -, -, -, -, -, rfl⟩ := beginObserve_eq_ok hobserve
    exact rule.records (by rfl) hs
  | eval heval => exact rule.eval hs hexec hcall heval

theorem instruction (hs : J s.resources) {i : Instruction} {rest : List Instruction}
    {terminator : Terminator}
    (hcall : Guarantees m (TablePost J) call ⟨ctx, s, i :: rest, terminator⟩)
    (h : execInstruction m fpu call ctx i s = .ok ⟨⟩ s') : J s'.resources := by
  cases i with
  | value result ty kind => exact rule.value hs hcall h
  | store slot value mode =>
    cases mode with
    | transfer =>
      obtain ⟨_, _, _, -, -, -, -, rfl⟩ := execStore_transfer_eq_ok (perform_eq_ok.mp h)
      exact rule.transfer _ hs
    | observe =>
      obtain ⟨_, _, -, -, -, rfl⟩ := execStore_observe_eq_ok (perform_eq_ok.mp h)
      exact hs
  | drop value =>
    obtain ⟨_, _, -, hdrop, rfl⟩ := execDrop_eq_ok (perform_eq_ok.mp h)
    obtain ⟨_, plan, -, -, -, rfl⟩ := dropValue_eq_ok hdrop
    exact rule.dropped hs plan
  | decomposeVariant value variant case taken =>
    obtain ⟨_, _, -, -, -, -, rfl⟩ := decomposeVariant_eq_ok (perform_eq_ok.mp h)
    exact hs
  | storePlace place value =>
    obtain ⟨_, _, _, plan, _, t, _, _, -, -, -, -, hplan, htarget, -, -, -, hvalid, hcommit, rfl⟩ :=
      storePlaceTransfer_eq_ok (perform_eq_ok.mp h)
    have hne : place.projections ≠ [] := by
      intro hnil
      rw [hnil] at htarget
      exact absurd htarget Except.throw_ne_ok
    obtain ⟨_, -, hrw⟩ := commitStore_rewrites hne hvalid hcommit
    exact rule.transfer plan (rule.rewrites hrw (planTransfer_owning hplan).2 hs)
  | endObserve observation =>
    obtain ⟨_, -, rfl⟩ := endObserve_eq_ok (perform_eq_ok.mp h)
    exact rule.records (by rfl) hs

theorem exit (hs : J s.resources) {terminator : Terminator} {outcome : Outcome}
    (h : execTerminator m call ctx terminator s = .ok (.exit outcome) s') : J s'.resources := by
  have hexit : ∀ {v : Value}, ExitEffect m ctx s v s' → J s'.resources := by
    intro v hv
    cases hv with
    | nothing _ => exact hs
    | value _ _ _ => exact rule.transfer _ hs
  cases execTerminator_effect h with
  | ret _ hv => exact hexit hv
  | raise _ hv => exact hexit hv

theorem enter {request : CallRequest} {i i' : InterpreterState} {values : Values}
    (hi : J i.resources) (h : bindParameters m request i = .ok (ctx, values) i') :
    J i'.resources := by
  obtain ⟨_, _, planned, -, -, -, -, -, rfl⟩ := bindParameters_eq_ok h
  exact rule.transfer planned.plan hi

/-- A run keeps what every change to the table keeps. -/
theorem frame : FrameRule m fpu (fun _ => True) (fun _ i => J i.resources) (TablePost J)
    (fun _ _ _ st => J st.resources) where
  enter := fun {_ s _ _ _} hpre hbind => rule.enter (i := s.enter) hpre hbind
  nested := fun hJ _ => hJ
  instruction := fun hJ _ hcall h => rule.instruction hJ hcall h
  jump := fun hJ _ hcall h => jump_table hJ hcall h
  exit := fun hJ _ h => rule.exit hJ h

end TableRule

end

end Napitia.Interpreter
