import Napitia.Interpreter.Declarations
import Napitia.Interpreter.Parts

/-!
# Observation never yields ownership

Every way of reading without taking (a place read in observe mode, a selected field, an
observing parameter, an observing store, an observed place) leaves a value that holds
observing handles only, at whatever depth a handle stands. In the other direction nothing is
taken, stored, destroyed or transferred through an observing handle. What a resource stores
is its owner's in every table of a run, so that a transfer goes through no other handles
than owning ones however deep they are stored.
-/
namespace Napitia.Interpreter
open Nir EStateM ResourceTable StateT

/-- Every handle of the value observes. -/
def Observing (v : Value) : Prop := ∀ k ∈ v.handles, k.role = .observer

/-- Whatever resources store is held by owners. -/
def StoredOwned (t : ResourceTable) : Prop := ∀ r ∈ t.records, ∀ f ∈ r.fields, Owning f

section Tables
variable {m : Module} {t t' : ResourceTable}

theorem storedOwned_empty : StoredOwned {} := by
  intro r hr
  cases hr

theorem StoredOwned.of_fields (h : StoredOwned t)
    (hfields : ∀ r' ∈ t'.records, ∃ r ∈ t.records, r'.fields = r.fields) : StoredOwned t' := by
  intro r' hr' f hf
  obtain ⟨r, hr, heq⟩ := hfields r' hr'
  exact h r hr f (heq ▸ hf)

theorem StoredOwned.commitTransfer (h : StoredOwned t) (plan : StorePlan) :
    StoredOwned (t.commitTransfer plan) := by
  refine h.of_fields fun r' hr' => ?_
  obtain ⟨j, hj⟩ := List.mem_iff_getElem?.mp hr'
  obtain ⟨bump, hbump, -⟩ := commitTransfer_records (t := t) plan j
  rw [hbump] at hj
  obtain ⟨r, hr, rfl⟩ := Option.map_eq_some_iff.mp hj
  exact ⟨r, List.mem_of_getElem? hr, rfl⟩

theorem StoredOwned.setStatus (h : StoredOwned t) (id : ResourceId) (status : ResourceStatus) :
    StoredOwned (t.setStatus id status) := by
  refine h.of_fields fun r' hr' => ?_
  obtain ⟨j, hj⟩ := List.mem_iff_getElem?.mp hr'
  rw [setStatus_records] at hj
  split at hj
  · obtain ⟨r, hr, rfl⟩ := Option.map_eq_some_iff.mp hj
    exact ⟨r, List.mem_of_getElem? hr, rfl⟩
  · exact ⟨r', List.mem_of_getElem? hj, rfl⟩

theorem StoredOwned.construct (h : StoredOwned t) {item : ItemId} {fields : List Value}
    (hfields : ∀ f ∈ fields, Owning f) : StoredOwned (t.construct item fields).2 := by
  intro r hr f hf
  rcases List.mem_append.mp hr with hr | hr
  · exact h r hr f hf
  · obtain rfl := List.mem_singleton.mp hr
    exact hfields f hf

theorem Rewrites.storedOwned {slot slot' container container' : Value}
    {projections : List Projection} (h : Rewrites t slot slot' container projections container' t')
    (hstored : StoredOwned t) (hslot : Owning slot') : StoredOwned t' :=
  (h.stored hstored hslot).1

theorem StoredOwned.touches (h : StoredOwned t) {v : Value} {k : ResourceHandle}
    (hk : Touches t v k) (hv : Owning v) : k.role = .owner := by
  induction hk with
  | inline hk => exact hv _ hk
  | field hh hr hf _ ih =>
    exact ih (h _ (List.mem_of_getElem? (record_eq_ok.mp hr).2.1) _ hf)

end Tables

/-! ### What a run stores -/

section Runs
variable {m : Module} {fpu : FloatUnit} {call : Call} {ctx : FrameContext} {s s' : FrameState}

theorem storedRule : TableRule m StoredOwned where
  records heq h := h.of_fields fun r hr => ⟨r, heq ▸ hr, rfl⟩
  transfer plan h := h.commitTransfer plan
  setStatus id status h := h.setStatus id status
  construct _ hfields h := h.construct hfields
  rewrites hrw hslot h := hrw.storedOwned h hslot

theorem Session.storedOwned {P : Point → Prop} {i : InterpreterState} (h : Session m fpu P i) :
    StoredOwned i.resources := by
  induction h with
  | fresh => exact storedOwned_empty
  | call _ _ hcall ih => exact storedRule.frame.call (fun _ _ _ _ => trivial) ih hcall

theorem Reached.storedOwned {request : CallRequest} {i : InterpreterState} {p : Point}
    (hi : StoredOwned i.resources) (hp : Reached m fpu request i p) :
    StoredOwned p.state.resources := by
  obtain ⟨_, _, hstored⟩ := storedRule.frame.reached (fun _ _ _ _ => trivial) hi hp
  exact hstored

end Runs

/-! ### Views -/

section Views
variable {m : Module} {fpu : FloatUnit} {ctx : FrameContext} {t : ResourceTable} {v w : Value}

theorem toObserver_observing (h : toObserverIfResource t v = .ok w) : Observing w := by
  intro k hk
  obtain ⟨k', -, rfl⟩ := toObserver_mem h hk
  rfl

theorem beginObserve_observing {loadOrigin : LoadOrigin} {observation : ObservationId}
    {place : Place ValueId} {declared : Ty} {s s' : FrameState}
    (h : beginObserve m loadOrigin observation place declared s = .ok v s') : Observing v := by
  obtain ⟨_, -, hviews⟩ := beginObserve_views h
  exact fun k hk => (hviews k hk).1

theorem evalRecordField_observing {values : Values} {base : ValueId} {record : ItemId} {field : ℕ}
    (h : evalRecordField t values base record field = .ok v) : Observing v := by
  obtain ⟨_, -, h⟩ := Except.bind_eq_ok.mp h
  obtain ⟨_, -, h⟩ := Except.bind_eq_ok.mp h
  exact toObserver_observing h

/-- What a parameter is bound to: a view, or what a planned transfer has reissued from an
argument that owns. -/
theorem bindParameter_binds {subst : Subst} {param : Param} {arg : Value} {b : ValueId × Value}
    {p p' : BindingPlan} (h : (bindParameter m t subst param arg).run p = .ok (b, p')) :
    b.1 = param.value ∧ (param.take = false → Observing b.2) ∧
      (param.take = true → Owning arg) := by
  unfold bindParameter at h
  obtain ⟨_, u, -, h⟩ := StateT.run_bind_eq_ok.mp h
  obtain ⟨_, u, -, h⟩ := StateT.run_bind_eq_ok.mp h
  split at h
  · rename_i htake
    obtain ⟨⟨bound, plan⟩, u, hplan, h⟩ := StateT.run_bind_eq_ok.mp h
    obtain ⟨hrun, rfl⟩ := StateT.run_liftM_eq_ok.mp hplan
    obtain ⟨_, u, -, h⟩ := StateT.run_bind_eq_ok.mp h
    obtain ⟨rfl, -⟩ := StateT.run_pure_eq_ok.mp h
    refine ⟨rfl, fun hno => ?_, fun _ => (planTransfer_owning hrun).1⟩
    rw [htake] at hno
    cases hno
  · rename_i htake
    obtain ⟨⟨⟨⟩, reached⟩, u, -, h⟩ := StateT.run_bind_eq_ok.mp h
    obtain ⟨_, u, -, h⟩ := StateT.run_bind_eq_ok.mp h
    obtain ⟨bound, u, hview, h⟩ := StateT.run_bind_eq_ok.mp h
    obtain ⟨hshown, -⟩ := StateT.run_liftM_eq_ok.mp hview
    obtain ⟨rfl, -⟩ := StateT.run_pure_eq_ok.mp h
    exact ⟨rfl, fun _ => toObserver_observing hshown, fun hyes => absurd hyes htake⟩

/-- What a frame starts with under an observing parameter is a view, and what it is handed
under a taking one was owned. -/
theorem bindParameters_binds {request : CallRequest} {i i' : InterpreterState} {values : Values}
    (h : bindParameters m request i = .ok (ctx, values) i') :
    (∀ id v, values.lookup id = some v →
      ∃ param ∈ request.function.params, param.value = id ∧ (param.take = false → Observing v)) ∧
    ∀ p ∈ request.function.params.zip request.args, p.1.take = true → Owning p.2 := by
  obtain ⟨subst, bindings, planned, hbind, -, -, -, rfl, -⟩ := bindParameters_eq_ok h
  obtain ⟨-, hbound⟩ := StateT.run_mapM_induction (R := fun _ _ => True)
    (P := fun (p : Param × Value) b => b.1 = p.1.value ∧ (p.1.take = false → Observing b.2) ∧
      (p.1.take = true → Owning p.2))
    (fun _ => trivial) (fun _ _ => trivial)
    (fun _ _ _ _ _ hb => ⟨trivial, bindParameter_binds hb⟩) hbind
  constructor
  · intro id v hv
    have hmem : (id, v) ∈ bindings := by
      rcases AList.mem_of_lookup_foldl hv with hmem | hnone
      · exact hmem
      · simp at hnone
    obtain ⟨p, hp, hid, hview, -⟩ := hbound.exists_left hmem
    exact ⟨p.1, (List.of_mem_zip hp).1, hid.symm, hview⟩
  · intro p hp htake
    obtain ⟨_, -, -, -, howning⟩ := hbound.exists_right hp
    exact howning htake

end Views

/-! ### Going through a handle -/

section Through
variable {m : Module} {t t' : ResourceTable} {k : ResourceHandle}

/-- A path goes through a handle: a projection out of the resource the handle names is one
of its steps. -/
inductive Crosses (t : ResourceTable) : Value → List Projection → ResourceHandle → Prop
  | here {h : ResourceHandle} {first : Projection} {rest : List Projection} :
      Crosses t (.resource h) (first :: rest) h
  | resource {h k : ResourceHandle} {r : ResourceRecord} {first : Projection} {index : ℕ}
      {rest : List Projection} {inner : Value} : projectionIndex first = .ok index →
      t.observe h = .ok r → r.fields[index]? = some inner → Crosses t inner rest k →
      Crosses t (.resource h) (first :: rest) k
  | record {item : ItemId} {typeArgs : List Ty} {fields : List Value} {k : ResourceHandle}
      {first : Projection} {index : ℕ} {rest : List Projection} {inner : Value} :
      projectionIndex first = .ok index → fields[index]? = some inner → Crosses t inner rest k →
      Crosses t (.record item typeArgs fields) (first :: rest) k

theorem Rewrites.crosses {slot slot' container container' : Value} {projections : List Projection}
    (h : Rewrites t slot slot' container projections container' t')
    (hk : Crosses t container projections k) : k.role = .owner := by
  induction h with
  | resourceLast hindex hrole hr hf =>
    cases hk with
    | here => exact hrole
    | resource _ _ _ hrest => cases hrest
  | recordLast hindex hf =>
    cases hk with
    | record _ _ hrest => cases hrest
  | resource hindex hrole hr hf _ ih =>
    cases hk with
    | here => exact hrole
    | resource hindex' hr' hf' hrest =>
      rw [hindex] at hindex'
      cases hindex'
      rw [hr] at hr'
      cases hr'
      rw [hf] at hf'
      cases hf'
      exact ih hrest
  | record hindex hf _ ih =>
    cases hk with
    | record hindex' hf' hrest =>
      rw [hindex] at hindex'
      cases hindex'
      rw [hf] at hf'
      cases hf'
      exact ih hrest

/-- The handles a destruction goes through: those at the live positions of affine types, and
behind each of them the same in what its resource stores. -/
inductive Destroys (m : Module) (t : ResourceTable) : Value → ResourceHandle → Prop
  | handle {h : ResourceHandle} : Destroys m t (.resource h) h
  | field {h k : ResourceHandle} {r : ResourceRecord} {declared : List Ty} {p : Value × Ty} :
      t.observe h = .ok r → recordFieldTypes m r.item [] = .ok declared →
      p ∈ r.fields.zip declared → isAffine m p.2 = true → p.1.isTombstone = false →
      Destroys m t p.1 k → Destroys m t (.resource h) k
  | record {item : ItemId} {typeArgs : List Ty} {fields : List Value} {k : ResourceHandle}
      {declared : List Ty} {p : Value × Ty} :
      recordFieldTypes m item typeArgs = .ok declared → p ∈ fields.zip declared →
      isAffine m p.2 = true → p.1.isTombstone = false → Destroys m t p.1 k →
      Destroys m t (.record item typeArgs fields) k
  | «variant» {item : ItemId} {typeArgs : List Ty} {case : ℕ} {payload : List Value}
      {k : ResourceHandle} {declared : List Ty} {p : Value × Ty} :
      casePayloadTypes m item typeArgs case = .ok declared → p ∈ payload.zip declared →
      isAffine m p.2 = true → p.1.isTombstone = false → Destroys m t p.1 k →
      Destroys m t (.variant item typeArgs case payload) k

theorem planDropFields_each {planOne : Value → Destroying Unit} {fields : List Value}
    {declared : List Ty} {st st' : List ResourceId × List ResourceHandle}
    (h : (planDropFields m planOne fields declared).run st = .ok (⟨⟩, st')) {p : Value × Ty}
    (hp : p ∈ fields.zip declared) (haffine : isAffine m p.2 = true)
    (hlive : p.1.isTombstone = false) : ∃ u u', (planOne p.1).run u = .ok (⟨⟩, u') := by
  obtain ⟨-, hall⟩ := StateT.run_forM_covers (R := fun _ _ => True)
    (Q := fun (p : Value × Ty) _ => isAffine m p.2 = true → p.1.isTombstone = false →
      ∃ u u', (planOne p.1).run u = .ok (⟨⟩, u'))
    (fun _ => trivial) (fun _ _ => trivial) (fun hQ _ => hQ) (fun q _ u u' hq => by
      refine ⟨trivial, fun haffine hlive => ?_⟩
      simp only [haffine, hlive, Bool.not_true, Bool.or_self, Bool.false_eq_true, if_false] at hq
      exact ⟨u, u', hq⟩) h
  exact hall p (List.mem_reverse.mpr hp) haffine hlive

theorem planDrop_owner {v : Value} (hk : Destroys m t v k) {n : ℕ}
    {st st' : List ResourceId × List ResourceHandle}
    (h : (planDrop m t n v).run st = .ok (⟨⟩, st')) : k.role = .owner := by
  induction hk generalizing n st st' with
  | handle =>
    cases n with
    | zero => exact absurd h run_throw_ne_ok
    | succ n => exact (planDrop_resource.mp h).1
  | field hr hdeclared hp haffine hlive _ ih =>
    cases n with
    | zero => exact absurd h run_throw_ne_ok
    | succ n =>
      obtain ⟨-, -, r', declared', u, hr', hdeclared', -, hfields, -⟩ := planDrop_resource.mp h
      rw [hr] at hr'
      cases hr'
      rw [hdeclared] at hdeclared'
      cases hdeclared'
      obtain ⟨w, w', hrun⟩ := planDropFields_each hfields hp haffine hlive
      exact ih hrun
  | record hdeclared hp haffine hlive _ ih =>
    cases n with
    | zero => exact absurd h run_throw_ne_ok
    | succ n =>
      obtain ⟨declared', hdeclared', -, h⟩ := planDrop_record.mp h
      rw [hdeclared] at hdeclared'
      cases hdeclared'
      obtain ⟨w, w', hrun⟩ := planDropFields_each h hp haffine hlive
      exact ih hrun
  | «variant» hdeclared hp haffine hlive _ ih =>
    cases n with
    | zero => exact absurd h run_throw_ne_ok
    | succ n =>
      obtain ⟨declared', hdeclared', -, h⟩ := planDrop_variant.mp h
      rw [hdeclared] at hdeclared'
      cases hdeclared'
      obtain ⟨w, w', hrun⟩ := planDropFields_each h hp haffine hlive
      exact ih hrun

end Through

/-! ### The next step of a run -/

/-- The next step reads without taking, into the value it names. -/
inductive ViewsInto (p : Point) : ValueId → Prop
  | placeRead {result : ValueId} {ty : Ty} {place : Place ValueId} {rest : List Instruction} :
      p.instructions = .value result ty (.placeRead place .observe) :: rest → ViewsInto p result
  | recordField {result base : ValueId} {ty : Ty} {record : ItemId} {field : ℕ}
      {rest : List Instruction} :
      p.instructions = .value result ty (.recordField base record field) :: rest →
      ViewsInto p result
  | observePlace {result : ValueId} {ty : Ty} {observation : ObservationId}
      {place : Place ValueId} {rest : List Instruction} :
      p.instructions = .value result ty (.observePlace observation place) :: rest →
      ViewsInto p result
  | store {slot value : ValueId} {rest : List Instruction} :
      p.instructions = .store slot value .observe :: rest → ViewsInto p slot

/-- A value that the next step would hand over. -/
inductive Hands (m : Module) (p : Point) : Value → Prop
  | move {result source : ValueId} {ty : Ty} {kind : ValueKind} {rest : List Instruction}
      {v : Value} : p.instructions = .value result ty kind :: rest →
      kind = .move source ∨ kind = .deferCapture source → p.state.values.read source = .ok v →
      Hands m p v
  | store {slot value : ValueId} {rest : List Instruction} {v : Value} :
      p.instructions = .store slot value .transfer :: rest → p.state.values.read value = .ok v →
      Hands m p v
  | storePlace {place : Place ValueId} {value : ValueId} {rest : List Instruction} {v : Value} :
      p.instructions = .storePlace place value :: rest → p.state.values.read value = .ok v →
      Hands m p v
  | record {result id : ValueId} {ty : Ty} {item : ItemId} {typeArgs : List Ty}
      {ids : List ValueId} {rest : List Instruction} {v : Value} :
      p.instructions = .value result ty (.recordCreate item typeArgs ids) :: rest → id ∈ ids →
      p.state.values.read id = .ok v → Hands m p v
  | «variant» {result id : ValueId} {ty : Ty} {item : ItemId} {case : ℕ} {typeArgs : List Ty}
      {ids : List ValueId} {rest : List Instruction} {v : Value} :
      p.instructions = .value result ty (.variantCreate item case typeArgs ids) :: rest →
      id ∈ ids → p.state.values.read id = .ok v → Hands m p v
  | argument {request : CallRequest} {param : Param} {v : Value} :
      Requests m p.ctx p.state p.instructions p.terminator request →
      (param, v) ∈ request.function.params.zip request.args → param.take = true → Hands m p v
  | ret {id : ValueId} {v : Value} : p.instructions = [] → p.terminator = .ret (some id) →
      p.state.values.read id = .ok v → Hands m p v
  | raise {id : ValueId} {v : Value} : p.instructions = [] → p.terminator = .raise id →
      p.state.values.read id = .ok v → Hands m p v

/-- A handle that the next step would take, store, destroy or transfer through. -/
inductive Passes (m : Module) (p : Point) (k : ResourceHandle) : Prop
  | take {result : ValueId} {ty : Ty} {place : Place ValueId} {rest : List Instruction}
      {root : Value} : p.instructions = .value result ty (.placeRead place .transfer) :: rest →
      p.state.values.read (canonicalRoot p.ctx.loadOrigin place.root) = .ok root →
      Crosses p.state.resources root place.projections k → Passes m p k
  | store {place : Place ValueId} {value : ValueId} {rest : List Instruction} {root : Value} :
      p.instructions = .storePlace place value :: rest →
      p.state.values.read (canonicalRoot p.ctx.loadOrigin place.root) = .ok root →
      Crosses p.state.resources root place.projections k → Passes m p k
  | drop {value : ValueId} {rest : List Instruction} {v : Value} :
      p.instructions = .drop value :: rest → p.state.values.read value = .ok v →
      Destroys m p.state.resources v k → Passes m p k
  | transfer {v : Value} : Hands m p v → Touches p.state.resources v k → Passes m p k

section Steps
variable {m : Module} {fpu : FloatUnit} {call : Call} {ctx : FrameContext} {values : Values}
  {i i' : InterpreterState} {v w : Value} {p : Point} {s' : FrameState}

theorem eval_recordField_observing {base : ValueId} {record : ItemId} {field : ℕ}
    (h : eval m fpu call ctx values (.recordField base record field) i = .ok v i') :
    Observing v := by
  have hask : ask (evalRecordField i.resources values base record field) i = .ok v i' := h
  exact evalRecordField_observing (ask_eq_ok.mp hask).1

theorem eval_move_owning {kind : ValueKind} {source : ValueId}
    (h : eval m fpu call ctx values kind i = .ok v i')
    (hkind : kind = .move source ∨ kind = .deferCapture source)
    (hread : values.read source = .ok w) : Owning w := by
  have hmove : perform (liftExcept (values.read source) >>= fun value =>
      onResources (transferIfResource m value)) i = .ok v i' := by
    rcases hkind with rfl | rfl
    · exact h
    · exact h
  obtain ⟨w', hread', hmove⟩ := ask_bind_eq_ok.mp (perform_eq_ok.mp hmove)
  rw [hread] at hread'
  cases hread'
  obtain ⟨t, ht, -⟩ := zoom_eq_ok.mp hmove
  obtain ⟨plan, hplan, -⟩ := transferIfResource_eq_ok.mp ht
  exact (planTransfer_owning hplan).1

theorem constructParts_owning {declared : List Ty} {ids : List ValueId} {parts : List Value}
    (h : constructParts m values declared ids i = .ok parts i') {id : ValueId} (hid : id ∈ ids)
    (hread : values.read id = .ok w) : Owning w := by
  obtain ⟨supplied, plan, hsupplied, -, hplan, -⟩ := constructParts_eq_ok h
  obtain ⟨w', hw', hread'⟩ := (Except.mapM_eq_ok.mp hsupplied).exists_right hid
  rw [hread] at hread'
  cases hread'
  exact (mapM_planTransfer_owning hplan).1 w hw'

theorem eval_record_owning {item : ItemId} {typeArgs : List Ty} {ids : List ValueId} {id : ValueId}
    (h : eval m fpu call ctx values (.recordCreate item typeArgs ids) i = .ok v i') (hid : id ∈ ids)
    (hread : values.read id = .ok w) : Owning w := by
  have hcreate : perform (evalRecordCreate m ctx values item typeArgs ids) i = .ok v i' := h
  have hcreate := perform_eq_ok.mp hcreate
  unfold evalRecordCreate at hcreate
  obtain ⟨_, -, hcreate⟩ := ask_bind_eq_ok.mp hcreate
  obtain ⟨_, -, hcreate⟩ := ask_bind_eq_ok.mp hcreate
  obtain ⟨-, hcreate⟩ := guard_eq_ok.mp hcreate
  obtain ⟨_, _, hparts, -⟩ := bind_eq_ok.mp hcreate
  exact constructParts_owning hparts hid hread

theorem eval_variant_owning {item : ItemId} {case : ℕ} {typeArgs : List Ty} {ids : List ValueId}
    {id : ValueId} (h : eval m fpu call ctx values (.variantCreate item case typeArgs ids) i = .ok v i')
    (hid : id ∈ ids) (hread : values.read id = .ok w) : Owning w := by
  have hcreate : perform (evalVariantCreate m ctx values item case typeArgs ids) i = .ok v i' := h
  have hcreate := perform_eq_ok.mp hcreate
  unfold evalVariantCreate at hcreate
  obtain ⟨_, -, hcreate⟩ := ask_bind_eq_ok.mp hcreate
  obtain ⟨_, -, hcreate⟩ := ask_bind_eq_ok.mp hcreate
  obtain ⟨-, hcreate⟩ := guard_eq_ok.mp hcreate
  obtain ⟨_, _, hparts, -⟩ := bind_eq_ok.mp hcreate
  exact constructParts_owning hparts hid hread

theorem callFunction_owning {n : ℕ} {request : CallRequest} {outcome : Outcome}
    (h : callFunction m fpu n request i = .ok outcome i') {param : Param}
    (hmem : (param, w) ∈ request.function.params.zip request.args) (htake : param.take = true) :
    Owning w := by
  cases n with
  | zero => exact absurd h throw_ne_ok
  | succ n =>
    obtain ⟨_, _, _, _, -, hbind, -⟩ := callFunction_succ_eq_ok h
    exact (bindParameters_binds hbind).2 (param, w) hmem htake

theorem Steps.executes (hstep : Steps m fpu p s') {instr : Instruction} {rest : List Instruction}
    (heq : p.instructions = instr :: rest) :
    ∃ n, execInstruction m fpu (callFunction m fpu n) p.ctx instr p.state = .ok ⟨⟩ s' := by
  cases hstep with
  | terminator h => cases heq
  | instruction h =>
    cases heq
    exact ⟨_, h⟩

theorem Steps.leaves (hstep : Steps m fpu p s') (hnil : p.instructions = []) :
    ∃ n next, execTerminator m (callFunction m fpu n) p.ctx p.terminator p.state = .ok next s' := by
  cases hstep with
  | instruction h => cases hnil
  | terminator h => exact ⟨_, _, h⟩

theorem Steps.computes (hstep : Steps m fpu p s') {result : ValueId} {ty : Ty} {kind : ValueKind}
    {rest : List Instruction} (heq : p.instructions = .value result ty kind :: rest) :
    ∃ n v u, computeValue m fpu (callFunction m fpu n) p.ctx (substitute ty p.ctx.subst) kind
      p.state = .ok v u ∧ s' = u.insert result v := by
  obtain ⟨n, h⟩ := hstep.executes heq
  obtain ⟨v, u, hvalue, -, -, hs'⟩ := execValue_computes h
  exact ⟨n, v, u, hvalue, hs'⟩

theorem Steps.completes (hstep : Steps m fpu p s') {request : CallRequest}
    (hrequest : Requests m p.ctx p.state p.instructions p.terminator request) :
    ∃ n outcome i', callFunction m fpu n request p.state.interpreter = .ok outcome i' := by
  cases hstep with
  | @instruction n ctx s _ instr rest terminator h =>
    cases hrequest with
    | call _ hrequest | protocolCall _ hrequest =>
      obtain ⟨v, u, hvalue, -⟩ := execValue_computes h
      obtain ⟨i, hi, -⟩ := inInterpreter_eq_ok.mp (get_bind_eq_ok.mp hvalue)
      obtain ⟨request', hrequest', hi⟩ := asked_eq_ok.mp hi
      rw [hrequest] at hrequest'
      cases hrequest'
      exact ⟨n, _, _, callReturning_eq_ok hi⟩
  | @terminator n ctx s _ terminator next h =>
    cases hrequest with
    | invoke hrequest =>
      obtain ⟨request', outcome, i', _, _, _, hrequest', hi, -⟩ := execInvoke_eq_ok h
      rw [hrequest] at hrequest'
      cases hrequest'
      exact ⟨n, outcome, i', hi⟩

theorem Steps.owning (hstep : Steps m fpu p s') (h : Hands m p v) : Owning v := by
  cases h with
  | argument hrequest hmem htake =>
    obtain ⟨n, outcome, i', hcall⟩ := hstep.completes hrequest
    exact callFunction_owning hcall hmem htake
  | ret hnil hret hread =>
    obtain ⟨n, next, h⟩ := hstep.leaves hnil
    rw [hret] at h
    obtain ⟨⟨⟩, u, hopen, h⟩ := bind_eq_ok.mp h
    obtain ⟨v', u', hexit, -⟩ := bind_eq_ok.mp h
    obtain ⟨-, rfl⟩ := refuseOpenObservation_eq_ok (perform_eq_ok.mp hopen)
    have hexit := perform_eq_ok.mp hexit
    unfold exitReturn at hexit
    obtain ⟨w, hread', hexit⟩ := ask_bind_eq_ok.mp (get_bind_eq_ok.mp hexit)
    obtain ⟨⟨⟩, -, hexit⟩ := ask_bind_eq_ok.mp (get_bind_eq_ok.mp hexit)
    obtain ⟨plan, hplan, -⟩ := exitTransfer_eq_ok hexit
    rw [hread] at hread'
    cases hread'
    exact (planTransfer_owning hplan).1
  | raise hnil hraise hread =>
    obtain ⟨n, next, h⟩ := hstep.leaves hnil
    rw [hraise] at h
    obtain ⟨⟨⟩, u, hopen, h⟩ := bind_eq_ok.mp h
    obtain ⟨v', u', hexit, -⟩ := bind_eq_ok.mp h
    obtain ⟨-, rfl⟩ := refuseOpenObservation_eq_ok (perform_eq_ok.mp hopen)
    have hexit := perform_eq_ok.mp hexit
    unfold exitRaise at hexit
    obtain ⟨w, hread', hexit⟩ := ask_bind_eq_ok.mp (get_bind_eq_ok.mp hexit)
    obtain ⟨plan, hplan, -⟩ := exitTransfer_eq_ok hexit
    rw [hread] at hread'
    cases hread'
    exact (planTransfer_owning hplan).1
  | move heq hkind hread =>
    obtain ⟨n, v', u, hvalue, -⟩ := hstep.computes heq
    rcases hkind with rfl | rfl
    · obtain ⟨i, hi, -⟩ := inInterpreter_eq_ok.mp (get_bind_eq_ok.mp hvalue)
      exact eval_move_owning hi (.inl rfl) hread
    · obtain ⟨i, hi, -⟩ := inInterpreter_eq_ok.mp (get_bind_eq_ok.mp hvalue)
      exact eval_move_owning hi (.inr rfl) hread
  | record heq hid hread =>
    obtain ⟨n, v', u, hvalue, -⟩ := hstep.computes heq
    obtain ⟨i, hi, -⟩ := inInterpreter_eq_ok.mp (get_bind_eq_ok.mp hvalue)
    exact eval_record_owning hi hid hread
  | «variant» heq hid hread =>
    obtain ⟨n, v', u, hvalue, -⟩ := hstep.computes heq
    obtain ⟨i, hi, -⟩ := inInterpreter_eq_ok.mp (get_bind_eq_ok.mp hvalue)
    exact eval_variant_owning hi hid hread
  | store heq hread =>
    obtain ⟨n, h⟩ := hstep.executes heq
    obtain ⟨_, _, _, hread', -, hplan, -, -⟩ := execStore_transfer_eq_ok (perform_eq_ok.mp h)
    rw [hread] at hread'
    cases hread'
    exact (planTransfer_owning hplan).1
  | storePlace heq hread =>
    obtain ⟨n, h⟩ := hstep.executes heq
    obtain ⟨_, _, _, _, _, _, _, _, -, -, hread', -, hplan, -⟩ :=
      storePlaceTransfer_eq_ok (perform_eq_ok.mp h)
    rw [hread] at hread'
    cases hread'
    exact (planTransfer_owning hplan).1

theorem Steps.owner (hstep : Steps m fpu p s') (hstored : StoredOwned p.state.resources)
    {k : ResourceHandle} (h : Passes m p k) : k.role = .owner := by
  cases h with
  | transfer hhands htouches => exact hstored.touches htouches (hstep.owning hhands)
  | take heq hread hcross =>
    obtain ⟨n, v, u, hvalue, -⟩ := hstep.computes heq
    obtain ⟨root, _, _, _, hread', -, -, hvalid, hcommit, -⟩ :=
      accessPlace_transfer_eq_ok (perform_eq_ok.mp hvalue)
    rw [hread] at hread'
    cases hread'
    rcases commitTake_rewrites hvalid hcommit with ⟨hnil, -, -⟩ | ⟨-, hrw⟩
    · rw [hnil] at hcross
      cases hcross
    · exact hrw.crosses hcross
  | @store place _ _ _ heq hread hcross =>
    obtain ⟨n, h⟩ := hstep.executes heq
    obtain ⟨root, _, _, _, _, _, _, _, -, hread', -, -, -, htarget, -, -, -, hvalid, hcommit, -⟩ :=
      storePlaceTransfer_eq_ok (perform_eq_ok.mp h)
    rw [hread] at hread'
    cases hread'
    have hne : place.projections ≠ [] := by
      intro hnil
      rw [hnil] at htarget
      exact absurd htarget Except.throw_ne_ok
    obtain ⟨_, -, hrw⟩ := commitStore_rewrites hne hvalid hcommit
    exact hrw.crosses hcross
  | drop heq hread hdestroys =>
    obtain ⟨n, h⟩ := hstep.executes heq
    obtain ⟨v, t, hread', hdrop, -⟩ := execDrop_eq_ok (perform_eq_ok.mp h)
    rw [hread] at hread'
    cases hread'
    obtain ⟨seen, plan, -, -, hplan, -⟩ := dropValue_eq_ok hdrop
    exact planDrop_owner hdestroys hplan

theorem Steps.observing (hstep : Steps m fpu p s') {id : ValueId} (h : ViewsInto p id) :
    ∃ v, s'.values.lookup id = some v ∧ Observing v := by
  cases h with
  | placeRead heq =>
    obtain ⟨n, v, u, hvalue, rfl⟩ := hstep.computes heq
    obtain ⟨_, _, -, -, hview, -⟩ := accessPlace_observe_eq_ok.mp (perform_eq_ok.mp hvalue)
    exact ⟨v, AList.lookup_insert _, toObserver_observing hview⟩
  | recordField heq =>
    obtain ⟨n, v, u, hvalue, rfl⟩ := hstep.computes heq
    obtain ⟨i, hi, -⟩ := inInterpreter_eq_ok.mp (get_bind_eq_ok.mp hvalue)
    exact ⟨v, AList.lookup_insert _, eval_recordField_observing hi⟩
  | observePlace heq =>
    obtain ⟨n, v, u, hvalue, rfl⟩ := hstep.computes heq
    exact ⟨v, AList.lookup_insert _, beginObserve_observing (perform_eq_ok.mp hvalue)⟩
  | store heq =>
    obtain ⟨n, h⟩ := hstep.executes heq
    obtain ⟨_, view, -, hview, -, rfl⟩ := execStore_observe_eq_ok (perform_eq_ok.mp h)
    exact ⟨view, AList.lookup_insert _, toObserver_observing hview⟩

/-- On every interpreter, between whatever calls: a step that only reads leaves a view of
which every handle observes, a frame is entered with views under its observing parameters,
and no step that completes has taken, stored, destroyed or transferred anything through a
handle that merely observes. -/
theorem observation_never_owns {P : Point → Prop} {request : CallRequest} (hs : Session m fpu P i)
    (hp : Reached m fpu request i p) (hstep : Steps m fpu p s') :
    (∀ id, ViewsInto p id → ∃ v, s'.values.lookup id = some v ∧ Observing v) ∧
    (∀ callee j ctx values j', bindParameters m callee j = .ok (ctx, values) j' →
      ∀ id v, values.lookup id = some v → ∃ param ∈ callee.function.params, param.value = id ∧
        (param.take = false → Observing v)) ∧
    ∀ k, Passes m p k → k.role = .owner :=
  ⟨fun _ h => hstep.observing h, fun _ _ _ _ _ hbind => (bindParameters_binds hbind).1,
    fun _ h => hstep.owner (hp.storedOwned hs.storedOwned) h⟩

/-- An open file, read without being taken. -/
def readFile : Instruction := .value ⟨3⟩ (.named ⟨1⟩) (.placeRead ⟨⟨1⟩, []⟩ .observe)

/-- A `main` that opens a file and drops it. -/
def dropFunction : Function :=
  ⟨⟨0⟩, ⟨0⟩, [], [], [], .unit, [], [⟨⟨0⟩, observeFile.take 2 ++ [.drop ⟨1⟩], .ret none⟩]⟩

def dropModule : Module :=
  { functions := [dropFunction]
    records := [(⟨1⟩, ⟨⟨1⟩, [], [(⟨2⟩, .i64)], true⟩)] }

/-- The frame of `main` behind the file it opened. -/
def fileOpened : FrameState :=
  ⟨{ resources := { records := [⟨⟨1⟩, 0, .alive, [.int 3]⟩] }, callDepth := 1 },
    (AList.insert ⟨0⟩ (.int 3) ∅ : Values).insert ⟨1⟩ (.resource ⟨⟨0⟩, 0, .owner, none⟩), []⟩

/-- A read leaves a view, and the handle a file is dropped through is its owner. -/
theorem observation_never_owns_file :
    (∃ s', Reached (fileModule readFile) idleUnit ⟨fileFunction readFile, [], [], []⟩ {}
        (filePoint readFile) ∧
      (filePoint readFile).state.values.lookup ⟨1⟩ = some (.resource ⟨⟨0⟩, 0, .owner, none⟩) ∧
      Steps (fileModule readFile) idleUnit (filePoint readFile) s' ∧
      ∃ v, s'.values.lookup ⟨3⟩ = some v ∧ Observing v) ∧
    ∃ p s', Reached dropModule idleUnit ⟨dropFunction, [], [], []⟩ {} p ∧
      Steps dropModule idleUnit p s' ∧
      ∃ k, Passes dropModule p k ∧ k.role = .owner := by
  constructor
  · have hreached : Reached (fileModule readFile) idleUnit ⟨fileFunction readFile, [], [], []⟩ {}
        (filePoint readFile) := filePoint_reached rfl
    have hstep : Steps (fileModule readFile) idleUnit (filePoint readFile)
        ((fileObserved (.int 3)).insert ⟨3⟩ (.resource ⟨⟨0⟩, 0, .observer, none⟩)) :=
      .instruction (n := 0) rfl
    have hsession : Session (fileModule readFile) idleUnit (fun _ => True) {} := .fresh
    obtain ⟨hviews, -, -⟩ := observation_never_owns hsession hreached hstep
    exact ⟨_, hreached, rfl, hstep, hviews ⟨3⟩ (.placeRead rfl)⟩
  · have hbind : bindParameters dropModule ⟨dropFunction, [], [], []⟩ (InterpreterState.enter {}) =
        .ok (⟨dropFunction, [], ∅, [], ∅⟩, ∅) { callDepth := 1 } := rfl
    have hrun : (observeFile.take 2).forM (execInstruction dropModule idleUnit
        (callFunction dropModule idleUnit 0) ⟨dropFunction, [], ∅, [], ∅⟩)
        ⟨{ callDepth := 1 }, ∅, []⟩ = .ok ⟨⟩ fileOpened := rfl
    have hreached : Reached dropModule idleUnit ⟨dropFunction, [], [], []⟩ {}
        ⟨⟨dropFunction, [], ∅, [], ∅⟩, fileOpened, [.drop ⟨1⟩], .ret none⟩ :=
      Reached.instructions (.enter (by decide) hbind rfl) hrun
    have hstep : Steps dropModule idleUnit
        ⟨⟨dropFunction, [], ∅, [], ∅⟩, fileOpened, [.drop ⟨1⟩], .ret none⟩ _ :=
      .instruction (n := 0) rfl
    have hsession : Session dropModule idleUnit (fun _ => True) {} := .fresh
    have hpasses : Passes dropModule
        ⟨⟨dropFunction, [], ∅, [], ∅⟩, fileOpened, [.drop ⟨1⟩], .ret none⟩
        ⟨⟨0⟩, 0, .owner, none⟩ := .drop rfl rfl .handle
    obtain ⟨-, -, howner⟩ := observation_never_owns hsession hreached hstep
    exact ⟨_, _, hreached, hstep, _, hpasses, howner _ hpasses⟩

end Steps

end Napitia.Interpreter
