import Napitia.Interpreter.Atomicity
import Napitia.Interpreter.Graph

/-!
# What a successful operation did

One inversion for each operation of the interpreter: the questions it was
answered on the way and the state it left. Every property of a run is derived
from these, so that none of the proofs about runs opens an operation again.
-/
namespace Napitia.Interpreter
open Nir EStateM ResourceTable

section Tables
variable {t t' : ResourceTable}

@[simp] theorem commitTransfer_leases (plan : StorePlan) :
    (t.commitTransfer plan).leases = t.leases := by
  unfold commitTransfer
  generalize plan.transitions = l
  induction l generalizing t with
  | nil => rfl
  | cons p l ih => exact ih

@[simp] theorem commitTransfer_active (plan : StorePlan) :
    (t.commitTransfer plan).active = t.active := by
  unfold commitTransfer
  generalize plan.transitions = l
  induction l generalizing t with
  | nil => rfl
  | cons p l ih => exact ih

/-- A committed plan moves generations and nothing else, and only those of the
identities it names. -/
theorem commitTransfer_records (plan : StorePlan) (j : ℕ) :
    ∃ bump : ℕ → ℕ, (t.commitTransfer plan).records[j]? =
        (t.records[j]?).map (fun r => { r with generation := bump r.generation }) ∧
      (⟨j⟩ ∉ plan.transitions.map (·.1) → bump = id) := by
  unfold commitTransfer
  generalize plan.transitions = l
  induction l generalizing t with
  | nil => exact ⟨id, by simp, fun _ => rfl⟩
  | cons p l ih =>
    obtain ⟨bump, hbump, hid⟩ := ih (t := t.setGeneration p.1 p.2)
    rw [List.foldl_cons, hbump, setGeneration_records]
    by_cases hj : p.1.index = j
    · refine ⟨fun _ => bump p.2, ?_, ?_⟩
      · rw [if_pos hj, Option.map_map]
        rfl
      · intro hmem
        exact absurd (List.mem_map.mpr ⟨p, List.mem_cons_self .., hj ▸ rfl⟩) hmem
    · exact ⟨bump, by rw [if_neg hj], fun hmem =>
        hid fun h => hmem (List.mem_cons_of_mem _ h)⟩

theorem commitTransfer_records_of_not_mem {plan : StorePlan} {id : ResourceId}
    (h : id ∉ plan.transitions.map (·.1)) :
    (t.commitTransfer plan).records[id.index]? = t.records[id.index]? := by
  obtain ⟨bump, hbump, hid⟩ := commitTransfer_records (t := t) plan id.index
  rw [hbump, hid h]
  exact Option.map_id'

theorem forM_dropResource_eq_ok {plan : List ResourceHandle}
    (h : plan.forM dropResource t = .ok ⟨⟩ t') :
    t' = plan.foldl (fun t k => t.setStatus k.id .dropped) t := by
  induction plan generalizing t with
  | nil => exact (pure_eq_ok.mp h).2
  | cons k plan ih =>
    obtain ⟨⟨⟩, u, hu, h⟩ := bind_eq_ok.mp h
    rw [ih h, List.foldl_cons]
    unfold dropResource at hu
    obtain ⟨-, hu⟩ := guard_eq_ok.mp hu
    obtain ⟨r, -, hu⟩ := ask_bind_eq_ok.mp (get_bind_eq_ok.mp hu)
    obtain ⟨-, hu⟩ := guard_eq_ok.mp hu
    cases hu
    rfl

end Tables

section Operations
variable {m : Module} {loadOrigin : LoadOrigin}

theorem transferIfResource_eq_ok {value rebuilt : Value} {t t' : ResourceTable} :
    transferIfResource m value t = .ok rebuilt t' ↔
      ∃ plan, (planTransfer m t value).run {} = .ok (rebuilt, plan) ∧
        t' = t.commitTransfer plan := by
  unfold transferIfResource
  rw [get_bind_eq_ok, ask_bind_eq_ok]
  constructor
  · rintro ⟨⟨v, plan⟩, hplan, h⟩
    cases h
    exact ⟨plan, hplan, rfl⟩
  · rintro ⟨plan, hplan, rfl⟩
    exact ⟨(rebuilt, plan), hplan, rfl⟩

theorem dropValue_eq_ok {value : Value} {t t' : ResourceTable}
    (h : dropValue m value t = .ok ⟨⟩ t') :
    ∃ seen plan, validateOwnedGraph m t value = .ok ⟨⟩ ∧
      rejectLeasedValue t value "dropped" = .ok ⟨⟩ ∧
      (planDrop m t Limits.maxGenericDepth value).run ([], []) = .ok (⟨⟩, seen, plan) ∧
      t' = plan.foldl (fun t k => t.setStatus k.id .dropped) t := by
  unfold dropValue at h
  obtain ⟨⟨⟩, hvalid, h⟩ := ask_bind_eq_ok.mp (get_bind_eq_ok.mp h)
  obtain ⟨⟨⟩, hlease, h⟩ := ask_bind_eq_ok.mp (get_bind_eq_ok.mp h)
  obtain ⟨⟨⟨⟩, seen, plan⟩, hplan, h⟩ := ask_bind_eq_ok.mp (get_bind_eq_ok.mp h)
  exact ⟨seen, plan, hvalid, hlease, hplan, forM_dropResource_eq_ok h⟩

theorem onTable_eq_ok {α : Type} {x : Op ResourceTable α} {s s' : FrameState} {a : α} :
    onTable x s = .ok a s' ↔ ∃ t, x s.resources = .ok a t ∧ s' = s.withResources t :=
  zoom_eq_ok

theorem accessPlace_observe_eq_ok {place : Place ValueId} {s s' : FrameState} {value : Value} :
    accessPlace loadOrigin place .observe s = .ok value s' ↔
      ∃ root seen, s.values.read (canonicalRoot loadOrigin place.root) = .ok root ∧
        observeProjections s.resources root place.projections = .ok seen ∧
        toObserverIfResource s.resources seen = .ok value ∧ s' = s := by
  unfold accessPlace
  rw [get_bind_eq_ok, ask_bind_eq_ok]
  refine exists_congr fun root => ?_
  simp only [get_bind_eq_ok, ask_bind_eq_ok, liftExcept_eq_ok, exists_and_left]

theorem accessPlace_transfer_eq_ok {place : Place ValueId} {s s' : FrameState} {value : Value}
    (h : accessPlace loadOrigin place .transfer s = .ok value s') :
    ∃ root seen container t, s.values.read (canonicalRoot loadOrigin place.root) = .ok root ∧
      observeProjections s.resources root place.projections = .ok seen ∧
      rejectLeasedValue s.resources seen "moved out of its place" = .ok ⟨⟩ ∧
      validatePlacePath s.resources .take Limits.maxGenericDepth root place.projections false =
        .ok ⟨⟩ ∧
      commitTakeProjections root place.projections s.resources = .ok ⟨value, container⟩ t ∧
      s' = (s.withResources t).insert (canonicalRoot loadOrigin place.root) container := by
  unfold accessPlace at h
  obtain ⟨root, hroot, h⟩ := ask_bind_eq_ok.mp (get_bind_eq_ok.mp h)
  obtain ⟨seen, hseen, h⟩ := ask_bind_eq_ok.mp (get_bind_eq_ok.mp h)
  obtain ⟨⟨⟩, hlease, h⟩ := ask_bind_eq_ok.mp (get_bind_eq_ok.mp h)
  obtain ⟨result, u, hu, h⟩ := bind_eq_ok.mp h
  obtain ⟨t, ht, rfl⟩ := onTable_eq_ok.mp hu
  obtain ⟨⟨⟩, hvalid, ht⟩ := ask_bind_eq_ok.mp (get_bind_eq_ok.mp ht)
  cases h
  exact ⟨root, seen, result.container, t, hroot, hseen, hlease, hvalid, ht, rfl⟩

theorem storePlaceTransfer_eq_ok {place : Place ValueId} {source : ValueId} {s s' : FrameState}
    (h : storePlaceTransfer m loadOrigin place source s = .ok ⟨⟩ s') :
    ∃ root incoming rebuilt plan updated t destination owned,
      canonicalRoot loadOrigin source ≠ canonicalRoot loadOrigin place.root ∧
      s.values.read (canonicalRoot loadOrigin place.root) = .ok root ∧
      s.values.read source = .ok incoming ∧
      validateOwnedGraph m s.resources incoming = .ok ⟨⟩ ∧
      (planTransfer m s.resources incoming).run {} = .ok (rebuilt, plan) ∧
      validateStoreTarget s.resources root place.projections = .ok ⟨⟩ ∧
      destinationIdentities s.resources root place.projections = .ok destination ∧
      (collectOwnedIdentities s.resources Limits.maxGenericDepth root).run [] =
        .ok (⟨⟩, owned) ∧
      (∀ id ∈ owned ++ destination, id ∉ plan.reachable) ∧
      validatePlacePath s.resources .store Limits.maxGenericDepth root place.projections false =
        .ok ⟨⟩ ∧
      commitStoreProjections rebuilt root place.projections s.resources = .ok updated t ∧
      s' = (((s.withResources (t.commitTransfer plan)).insert
        (canonicalRoot loadOrigin place.root) updated).insert source .moved).insert
          (canonicalRoot loadOrigin source) .moved := by
  unfold storePlaceTransfer at h
  obtain ⟨hne, h⟩ := guard_eq_ok.mp h
  obtain ⟨root, hroot, h⟩ := ask_bind_eq_ok.mp (get_bind_eq_ok.mp h)
  obtain ⟨incoming, hincoming, h⟩ := ask_bind_eq_ok.mp (get_bind_eq_ok.mp h)
  obtain ⟨⟨⟩, hgraph, h⟩ := ask_bind_eq_ok.mp (get_bind_eq_ok.mp h)
  obtain ⟨⟨rebuilt, plan⟩, hplan, h⟩ := ask_bind_eq_ok.mp (get_bind_eq_ok.mp h)
  obtain ⟨⟨⟩, htarget, h⟩ := ask_bind_eq_ok.mp (get_bind_eq_ok.mp h)
  obtain ⟨destination, hdest, h⟩ := ask_bind_eq_ok.mp (get_bind_eq_ok.mp h)
  obtain ⟨⟨⟨⟩, owned⟩, howned, h⟩ := ask_bind_eq_ok.mp (get_bind_eq_ok.mp h)
  obtain ⟨hshare, h⟩ := guard_eq_ok.mp h
  obtain ⟨updated, u, hu, h⟩ := bind_eq_ok.mp h
  obtain ⟨t, ht, rfl⟩ := onTable_eq_ok.mp hu
  obtain ⟨⟨⟩, hvalid, ht⟩ := ask_bind_eq_ok.mp (get_bind_eq_ok.mp ht)
  cases h
  refine ⟨root, incoming, rebuilt, plan, updated, t, destination, owned, hne, hroot, hincoming,
    hgraph, hplan, htarget, hdest, howned, ?_, hvalid, ht, rfl⟩
  intro id hid hmem
  exact hshare (List.any_eq_true.mpr ⟨id, hid, decide_eq_true hmem⟩)

theorem decomposeVariant_eq_ok {value : ValueId} {variant : ItemId} {case : ℕ}
    {taken : List (ℕ × ValueId)} {s s' : FrameState}
    (h : decomposeVariant m loadOrigin value variant case taken s = .ok ⟨⟩ s') :
    ∃ typeArgs payload,
      s.values.read (canonicalRoot loadOrigin value) = .ok (.variant variant typeArgs case payload) ∧
      (∀ slot ∈ payload,
        rejectLeasedValue s.resources slot "decomposed out of its variant" = .ok ⟨⟩) ∧
      validateOwnedGraph m s.resources (.variant variant typeArgs case payload) = .ok ⟨⟩ ∧
      validateClaims s.values payload [] taken = .ok ⟨⟩ ∧
      s' = s.insert (canonicalRoot loadOrigin value) (.variant variant typeArgs case
        (taken.foldl (fun slots claim => slots.set claim.1 .moved) payload)) := by
  unfold decomposeVariant at h
  obtain ⟨shell, hshell, h⟩ := ask_bind_eq_ok.mp (get_bind_eq_ok.mp h)
  cases shell with
  | variant item typeArgs activeCase payload =>
    obtain ⟨hitem, h₁⟩ := guard_eq_ok.mp h
    obtain ⟨hcase, h₂⟩ := guard_eq_ok.mp h₁
    obtain ⟨⟨⟩, hlease, h₃⟩ := ask_bind_eq_ok.mp (get_bind_eq_ok.mp h₂)
    obtain ⟨⟨⟩, hgraph, h₄⟩ := ask_bind_eq_ok.mp h₃
    obtain ⟨⟨⟩, hclaims, h₅⟩ := ask_bind_eq_ok.mp (get_bind_eq_ok.mp h₄)
    rw [not_ne_iff] at hitem hcase
    subst hitem hcase
    cases h₅
    exact ⟨typeArgs, payload, hshell, Except.forM_eq_ok.mp hlease, hgraph, hclaims, rfl⟩
  | _ => exact absurd h throw_ne_ok

theorem beginObserve_eq_ok {observation : ObservationId} {place : Place ValueId} {declared : Ty}
    {s s' : FrameState} {view : Value}
    (h : beginObserve m loadOrigin observation place declared s = .ok view s') :
    ∃ root seen observed,
      s.values.read (canonicalRoot loadOrigin place.root) = .ok root ∧
      observeProjections s.resources root place.projections = .ok seen ∧
      validateObservationSource s.resources Limits.maxGenericDepth seen = .ok ⟨⟩ ∧
      (collectReachableResources s.resources Limits.maxGenericDepth seen).run [] =
        .ok (⟨⟩, observed) ∧
      toLeasedView s.resources s.resources.reservedLeaseId Limits.maxGenericDepth seen =
        .ok view ∧
      s' = { s.withResources { s.resources with
          leases := s.resources.leases ++ [⟨s.resources.reservedLeaseId, .active, observed,
            s.activeLeases.getLast?.map (·.2)⟩],
          active := s.resources.active ++ [s.resources.reservedLeaseId] } with
        activeLeases := s.activeLeases ++ [(observation, s.resources.reservedLeaseId)] } := by
  unfold beginObserve at h
  have h := get_bind_eq_ok.mp h
  obtain ⟨-, h⟩ := guard_eq_ok.mp h
  obtain ⟨root, hroot, h⟩ := ask_bind_eq_ok.mp (get_bind_eq_ok.mp h)
  obtain ⟨seen, hseen, h⟩ := ask_bind_eq_ok.mp (get_bind_eq_ok.mp h)
  obtain ⟨⟨⟩, hsource, h⟩ := ask_bind_eq_ok.mp (get_bind_eq_ok.mp h)
  obtain ⟨⟨⟩, -, h⟩ := ask_bind_eq_ok.mp (get_bind_eq_ok.mp h)
  obtain ⟨⟨⟨⟩, observed⟩, hobserved, h⟩ := ask_bind_eq_ok.mp (get_bind_eq_ok.mp h)
  obtain ⟨view', hview, h⟩ := ask_bind_eq_ok.mp (get_bind_eq_ok.mp (get_bind_eq_ok.mp h))
  obtain ⟨⟨⟩, u, hu, h⟩ := bind_eq_ok.mp (get_bind_eq_ok.mp h)
  obtain ⟨t, ht, rfl⟩ := onTable_eq_ok.mp hu
  rw [commitLease_ok] at ht
  cases ht
  cases h
  exact ⟨root, seen, observed, hroot, hseen, hsource, hobserved, hview, rfl⟩

theorem endLease_eq_ok {id : RuntimeObservationId} {t t' : ResourceTable}
    (h : endLease id t = .ok ⟨⟩ t') :
    t' = { t.setLeaseStatus id .ended with active := t.active.filter (· ≠ id) } := by
  unfold endLease at h
  obtain ⟨l, -, h⟩ := ask_bind_eq_ok.mp (get_bind_eq_ok.mp h)
  obtain ⟨-, h⟩ := guard_eq_ok.mp h
  obtain ⟨-, h⟩ := guard_eq_ok.mp h
  cases h
  rfl

theorem endObserve_eq_ok {observation : ObservationId} {s s' : FrameState}
    (h : endObserve observation s = .ok ⟨⟩ s') :
    ∃ id, s.activeLeases.getLast? = some (observation, id) ∧
      s' = { s.withResources { s.resources.setLeaseStatus id .ended with
          active := s.resources.active.filter (· ≠ id) } with
        activeLeases := s.activeLeases.dropLast } := by
  unfold endObserve at h
  have h := get_bind_eq_ok.mp h
  cases hlast : s.activeLeases.getLast? with
  | none => simp [hlast] at h
  | some p =>
    obtain ⟨o, id⟩ := p
    simp only [hlast] at h
    split at h
    · obtain ⟨⟨⟩, u, hu, h⟩ := bind_eq_ok.mp h
      obtain ⟨t, ht, rfl⟩ := onTable_eq_ok.mp hu
      rw [endLease_eq_ok ht] at h
      cases h
      exact ⟨id, by rw [‹o = observation›], rfl⟩
    · exact absurd h throw_ne_ok

end Operations

section Runs
variable {m : Module} {fpu : FloatUnit} {call : Call} {ctx : FrameContext}

theorem perform_eq_ok {σ α : Type} {x : Op σ α} {s s' : σ} {a : α} :
    perform x s = .ok a s' ↔ x s = .ok a s' :=
  adaptExcept_eq_ok

theorem ask_eq_ok {σ α : Type} {x : Except InterpreterError α} {s s' : σ} {a : α} :
    (ask x : Run σ α) s = .ok a s' ↔ x = .ok a ∧ s' = s := by
  unfold ask
  rw [perform_eq_ok, liftExcept_eq_ok]

theorem asked_eq_ok {σ α β : Type} {x : Except InterpreterError α} {f : α → Run σ β} {s s' : σ}
    {b : β} : (ask x >>= f) s = .ok b s' ↔ ∃ a, x = .ok a ∧ f a s = .ok b s' := by
  simp only [bind_eq_ok, ask_eq_ok]
  exact ⟨fun ⟨a, _, ⟨hx, rfl⟩, hf⟩ => ⟨a, hx, hf⟩, fun ⟨a, hx, hf⟩ => ⟨a, s, ⟨hx, rfl⟩, hf⟩⟩

theorem fail_ne_ok {σ α : Type} {message : String} {s s' : σ} {a : α} :
    (fail message : Run σ α) s ≠ .ok a s' :=
  throw_ne_ok

/-- The interpreter with another resource table. -/
def InterpreterState.withTable (s : InterpreterState) (t : ResourceTable) : InterpreterState :=
  { s with resources := t }

theorem bindParameters_eq_ok {request : CallRequest} {s s' : InterpreterState}
    {values : Values} (h : bindParameters m request s = .ok (ctx, values) s') :
    ∃ subst bindings planned,
      ((request.function.params.zip request.args).mapM
        fun p => bindParameter m s.resources subst p.1 p.2).run {} = .ok (bindings, planned) ∧
      request.function.params.length = request.args.length ∧
      (∀ id ∈ planned.plan.reachable, id ∉ planned.observed) ∧
      ctx = ⟨request.function, request.evidence, subst,
        (request.function.params.filter fun p => !p.take).map (·.value),
        loadOriginOf request.function⟩ ∧
      values = bindings.foldl (fun values b => values.insert b.1 b.2) ∅ ∧
      s' = s.withTable (s.resources.commitTransfer planned.plan) := by
  obtain ⟨function, typeArgs, args, evidence⟩ := request
  unfold bindParameters at h
  obtain ⟨hlen, h⟩ := guard_eq_ok.mp h
  obtain ⟨-, h⟩ := guard_eq_ok.mp h
  cases hsubst : checkedSubstitution (function.typeParams.map (·.1)) typeArgs with
  | none => simp [hsubst] at h
  | some subst =>
    simp only [hsubst] at h
    have h := get_bind_eq_ok.mp h
    obtain ⟨⟨bindings, planned⟩, hbind, h⟩ := ask_bind_eq_ok.mp h
    cases hfind : planned.plan.reachable.find? (· ∈ planned.observed) with
    | some id =>
      simp only [hfind] at h
      obtain ⟨_, _, h, -⟩ := bind_eq_ok.mp h
      exact absurd h throw_ne_ok
    | none =>
      simp only [hfind] at h
      obtain ⟨-, h⟩ := guard_eq_ok.mp h
      cases h
      refine ⟨subst, bindings, planned, hbind, by simpa using hlen, ?_, rfl, rfl, rfl⟩
      simpa using List.find?_eq_none.mp hfind

theorem constructParts_eq_ok {values : Values} {declared : List Ty} {ids : List ValueId}
    {s s' : InterpreterState} {parts : List Value}
    (h : constructParts m values declared ids s = .ok parts s') :
    ∃ supplied plan, ids.mapM values.read = .ok supplied ∧
      (∀ p ∈ supplied.zip declared,
        (validateValueAgainstTy m s.resources Limits.maxGenericDepth p.1 (some p.2)).run' [] =
          .ok ⟨⟩) ∧
      (supplied.mapM (planTransfer m s.resources)).run {} = .ok (parts, plan) ∧
      s' = s.withTable (s.resources.commitTransfer plan) := by
  unfold constructParts at h
  obtain ⟨supplied, hread, h⟩ := ask_bind_eq_ok.mp h
  obtain ⟨⟨⟩, hvalid, h⟩ := ask_bind_eq_ok.mp (get_bind_eq_ok.mp h)
  obtain ⟨⟨rebuilt, plan⟩, hplan, h⟩ := ask_bind_eq_ok.mp h
  cases h
  exact ⟨supplied, plan, hread, Except.forM_eq_ok.mp hvalid, hplan, rfl⟩

/-- What evaluating a kind did: the value it gave and the interpreter it left. -/
inductive EvalEffect (m : Module) (call : Call) (ctx : FrameContext) (values : Values)
    (s : InterpreterState) : ValueKind → Value → InterpreterState → Prop
  | scalar {kind : ValueKind} {v : Value} : v.handles = [] → EvalEffect m call ctx values s kind v s
  | load {id : ValueId} {v : Value} : values.read id = .ok v →
      EvalEffect m call ctx values s (.load id) v s
  | move {kind : ValueKind} {source : ValueId} {v w : Value} {plan : StorePlan} :
      kind = .move source ∨ kind = .deferCapture source →
      values.read source = .ok w →
      (planTransfer m s.resources w).run {} = .ok (v, plan) →
      EvalEffect m call ctx values s kind v (s.withTable (s.resources.commitTransfer plan))
  | call {item : ItemId} {typeArgs : List Ty} {args : List ValueId} {evidence : List Evidence}
      {request : CallRequest} {v : Value} {s' : InterpreterState} :
      requestCall m ctx values item typeArgs args evidence = .ok request →
      call request s = .ok (.returned v) s' →
      EvalEffect m call ctx values s (.call item typeArgs args evidence) v s'
  | protocolCall {protocol : ItemId} {arguments : List Ty} {method : ℕ} {evidence : Evidence}
      {args : List ValueId} {request : CallRequest} {v : Value} {s' : InterpreterState} :
      requestProtocolCall m ctx values arguments method evidence args = .ok request →
      call request s = .ok (.returned v) s' →
      EvalEffect m call ctx values s (.protocolCall protocol arguments method evidence args) v s'
  | resource {item : ItemId} {typeArgs : List Ty} {ids : List ValueId} {declared : List Ty}
      {fields : List Value} {s' : InterpreterState} :
      constructParts m values declared ids s = .ok fields s' →
      declared.length = ids.length → isResource m item = true →
      EvalEffect m call ctx values s (.recordCreate item typeArgs ids)
        (.resource (s'.resources.construct item fields).1)
        (s'.withTable (s'.resources.construct item fields).2)
  | record {item : ItemId} {typeArgs typeArgs' : List Ty} {ids : List ValueId}
      {declared : List Ty} {fields : List Value} {s' : InterpreterState} :
      constructParts m values declared ids s = .ok fields s' →
      declared.length = ids.length →
      EvalEffect m call ctx values s (.recordCreate item typeArgs ids)
        (.record item typeArgs' fields) s'
  | recordField {base : ValueId} {record : ItemId} {field : ℕ} {v : Value} :
      evalRecordField s.resources values base record field = .ok v →
      EvalEffect m call ctx values s (.recordField base record field) v s
  | variant {item : ItemId} {case : ℕ} {typeArgs typeArgs' : List Ty} {ids : List ValueId}
      {declared : List Ty} {payload : List Value} {s' : InterpreterState} :
      constructParts m values declared ids s = .ok payload s' →
      declared.length = ids.length →
      EvalEffect m call ctx values s (.variantCreate item case typeArgs ids)
        (.variant item typeArgs' case payload) s'
  | variantPayload {base : ValueId} {variant item : ItemId} {case index activeCase : ℕ}
      {typeArgs : List Ty} {payload : List Value} {v : Value} :
      values.read base = .ok (.variant item typeArgs activeCase payload) → v ∈ payload →
      EvalEffect m call ctx values s (.variantPayload base variant case index) v s

section Scalars
variable {v a b : Value}

theorem ofArith_handles {x : Except Numeric.ArithFailure Numeric.I64}
    (h : ofArith x = .ok v) : v.handles = [] := by
  cases x with
  | ok n =>
    obtain rfl := Except.pure_eq_ok.mp h
    simp [Value.handles]
  | error e => exact absurd h Except.throw_ne_ok

theorem numericOp_handles {what : String}
    {intOp : Numeric.I64 → Numeric.I64 → Except Numeric.ArithFailure Numeric.I64}
    {floatOp : F64 → F64 → F64} (h : numericOp what intOp floatOp a b = .ok v) :
    v.handles = [] := by
  unfold numericOp at h
  split at h
  · exact ofArith_handles h
  · obtain rfl := Except.pure_eq_ok.mp h
    simp [Value.handles]
  · exact absurd h Except.throw_ne_ok

theorem bitop_handles {op : Numeric.I64 → Numeric.I64 → Numeric.I64}
    (h : bitop op a b = .ok v) : v.handles = [] := by
  unfold bitop at h
  split at h
  · obtain rfl := Except.pure_eq_ok.mp h
    simp [Value.handles]
  · exact absurd h Except.throw_ne_ok

theorem shift_handles {op : Numeric.I64 → Numeric.I64 → Except Numeric.ArithFailure Numeric.I64}
    (h : shift op a b = .ok v) : v.handles = [] := by
  unfold shift at h
  split at h
  · exact ofArith_handles h
  · exact absurd h Except.throw_ne_ok

theorem negate_handles (h : negate a = .ok v) : v.handles = [] := by
  unfold negate at h
  split at h
  · exact ofArith_handles h
  · obtain rfl := Except.pure_eq_ok.mp h
    simp [Value.handles]
  · exact absurd h Except.throw_ne_ok

theorem invert_handles (h : invert a = .ok v) : v.handles = [] := by
  unfold invert at h
  split at h
  · obtain rfl := Except.pure_eq_ok.mp h
    simp [Value.handles]
  · obtain rfl := Except.pure_eq_ok.mp h
    simp [Value.handles]
  · exact absurd h Except.throw_ne_ok

theorem constValue_handles {c : Const} (h : constValue c = .ok v) : v.handles = [] := by
  unfold constValue at h
  split at h
  · split at h
    · obtain rfl := Except.pure_eq_ok.mp h
      simp [Value.handles]
    · exact absurd h Except.throw_ne_ok
  all_goals
    obtain rfl := Except.pure_eq_ok.mp h
    simp [Value.handles]

theorem evalScalar_handles {values : Values} {kind : ValueKind}
    (h : evalScalar fpu values kind = some (.ok v)) : v.handles = [] := by
  unfold evalScalar at h
  split at h
  case h_19 => exact absurd h (by simp)
  all_goals
    rw [Option.some.injEq] at h
    obtain ⟨x, -, h⟩ := Except.bind_eq_ok.mp h
  case h_6 => exact negate_handles h
  case h_7 => exact invert_handles h
  all_goals obtain ⟨y, -, h⟩ := Except.bind_eq_ok.mp h
  case h_1 | h_2 | h_3 | h_4 | h_5 => exact numericOp_handles h
  case h_8 | h_9 | h_10 => exact bitop_handles h
  case h_11 | h_12 => exact shift_handles h
  all_goals
    obtain ⟨z, -, h⟩ := Except.bind_eq_ok.mp h
    obtain rfl := Except.pure_eq_ok.mp h
    simp [Value.handles]

end Scalars

theorem callReturning_eq_ok {refusal : String} {request : CallRequest}
    {s s' : InterpreterState} {v : Value}
    (h : callReturning call refusal request s = .ok v s') :
    call request s = .ok (.returned v) s' := by
  unfold callReturning at h
  obtain ⟨outcome, u, hcall, h⟩ := bind_eq_ok.mp h
  cases outcome with
  | returned w =>
    cases h
    exact hcall
  | raised w => exact absurd h fail_ne_ok

theorem evalRecordCreate_effect {values : Values} {item : ItemId} {typeArgs : List Ty}
    {ids : List ValueId} {s s' : InterpreterState} {v : Value}
    (h : evalRecordCreate m ctx values item typeArgs ids s = .ok v s') :
    EvalEffect m call ctx values s (.recordCreate item typeArgs ids) v s' := by
  unfold evalRecordCreate at h
  obtain ⟨typeArgs', -, h⟩ := ask_bind_eq_ok.mp h
  obtain ⟨declared, -, h⟩ := ask_bind_eq_ok.mp h
  obtain ⟨hlen, h⟩ := guard_eq_ok.mp h
  obtain ⟨fields, u, hparts, h⟩ := bind_eq_ok.mp h
  have hlen : declared.length = ids.length := by simpa using hlen
  split at h
  · rename_i hresource
    cases h
    exact .resource hparts hlen hresource
  · cases h
    exact .record hparts hlen

theorem evalVariantCreate_effect {values : Values} {item : ItemId} {case : ℕ}
    {typeArgs : List Ty} {ids : List ValueId} {s s' : InterpreterState} {v : Value}
    (h : evalVariantCreate m ctx values item case typeArgs ids s = .ok v s') :
    EvalEffect m call ctx values s (.variantCreate item case typeArgs ids) v s' := by
  unfold evalVariantCreate at h
  obtain ⟨typeArgs', -, h⟩ := ask_bind_eq_ok.mp h
  obtain ⟨declared, -, h⟩ := ask_bind_eq_ok.mp h
  obtain ⟨hlen, h⟩ := guard_eq_ok.mp h
  obtain ⟨fields, u, hparts, h⟩ := bind_eq_ok.mp h
  cases h
  exact .variant hparts (by simpa using hlen)

theorem evalVariantPayload_eq_ok {values : Values} {base : ValueId} {variant : ItemId}
    {case index : ℕ} {v : Value}
    (h : evalVariantPayload values base variant case index = .ok v) :
    ∃ typeArgs payload, values.read base = .ok (.variant variant typeArgs case payload) ∧
      v ∈ payload := by
  unfold evalVariantPayload at h
  obtain ⟨w, hread, h⟩ := Except.bind_eq_ok.mp h
  split at h
  · rename_i item typeArgs activeCase payload
    split at h
    · rename_i heq
      split at h
      · rename_i x hx
        obtain rfl := Except.pure_eq_ok.mp h
        exact ⟨typeArgs, payload, heq.1 ▸ heq.2 ▸ hread, List.mem_of_getElem? hx⟩
      · exact absurd h Except.throw_ne_ok
    · exact absurd h Except.throw_ne_ok
  · exact absurd h Except.throw_ne_ok

theorem eval_effect {values : Values} {kind : ValueKind} {s s' : InterpreterState} {v : Value}
    (h : eval m fpu call ctx values kind s = .ok v s') :
    EvalEffect m call ctx values s kind v s' := by
  unfold eval at h
  cases hscalar : evalScalar fpu values kind with
  | some result =>
    simp only [hscalar] at h
    obtain ⟨hresult, rfl⟩ := ask_eq_ok.mp h
    exact .scalar (evalScalar_handles (hresult ▸ hscalar))
  | none =>
    simp only [hscalar] at h
    clear hscalar
    cases kind with
    | alloc =>
      cases h
      exact .scalar (by simp [Value.handles])
    | const c =>
      obtain ⟨hc, rfl⟩ := ask_eq_ok.mp h
      exact .scalar (constValue_handles hc)
    | load id =>
      obtain ⟨hread, rfl⟩ := ask_eq_ok.mp h
      exact .load hread
    | move source | deferCapture source =>
      obtain ⟨w, hread, h⟩ := ask_bind_eq_ok.mp (perform_eq_ok.mp h)
      obtain ⟨t, ht, rfl⟩ := zoom_eq_ok.mp h
      obtain ⟨plan, hplan, rfl⟩ := transferIfResource_eq_ok.mp ht
      exact .move (by simp) hread hplan
    | call item typeArgs args evidence =>
      obtain ⟨request, hrequest, h⟩ := asked_eq_ok.mp h
      exact .call hrequest (callReturning_eq_ok h)
    | protocolCall protocol arguments method evidence args =>
      obtain ⟨request, hrequest, h⟩ := asked_eq_ok.mp h
      exact .protocolCall hrequest (callReturning_eq_ok h)
    | recordCreate item typeArgs fields =>
      exact evalRecordCreate_effect (perform_eq_ok.mp h)
    | recordField base record field =>
      have h : ask (evalRecordField s.resources values base record field) s = .ok v s' := h
      obtain ⟨hv, rfl⟩ := ask_eq_ok.mp h
      exact .recordField hv
    | variantCreate item case typeArgs payload =>
      exact evalVariantCreate_effect (perform_eq_ok.mp h)
    | variantPayload base variant case index =>
      obtain ⟨hv, rfl⟩ := ask_eq_ok.mp h
      obtain ⟨typeArgs, payload, hread, hmem⟩ := evalVariantPayload_eq_ok hv
      exact .variantPayload hread hmem
    | _ => exact absurd h fail_ne_ok

theorem inInterpreter_eq_ok {α : Type} {x : Run InterpreterState α} {s s' : FrameState} {a : α} :
    inInterpreter x s = .ok a s' ↔
      ∃ i, x s.interpreter = .ok a i ∧ s' = { s with interpreter := i } :=
  zoom_eq_ok

/-- What computing the value of an instruction did to the frame, before the
value was installed under the instruction's result. -/
inductive ValueEffect (m : Module) (call : Call) (ctx : FrameContext) (ty : Ty)
    (s : FrameState) : ValueKind → Value → FrameState → Prop
  | placeRead {place : Place ValueId} {mode : OwnershipMode} {v : Value} {u : FrameState} :
      accessPlace ctx.loadOrigin place mode s = .ok v u →
      ValueEffect m call ctx ty s (.placeRead place mode) v u
  | observePlace {observation : ObservationId} {place : Place ValueId} {v : Value}
      {u : FrameState} :
      beginObserve m ctx.loadOrigin observation place (substitute ty ctx.subst) s = .ok v u →
      ValueEffect m call ctx ty s (.observePlace observation place) v u
  | eval {kind : ValueKind} {v : Value} {i : InterpreterState} :
      EvalEffect m call ctx s.values s.interpreter kind v i →
      ValueEffect m call ctx ty s kind v { s with interpreter := i }

theorem computeValue_effect {ty : Ty} {kind : ValueKind} {v : Value} {s s' : FrameState}
    (h : computeValue m fpu call ctx (substitute ty ctx.subst) kind s = .ok v s') :
    ValueEffect m call ctx ty s kind v s' := by
  unfold computeValue at h
  split at h
  · exact .placeRead (perform_eq_ok.mp h)
  · exact .observePlace (perform_eq_ok.mp h)
  · obtain ⟨i, hi, rfl⟩ := inInterpreter_eq_ok.mp (get_bind_eq_ok.mp h)
    exact .eval (eval_effect hi)

theorem checkComputed_eq_ok {result : ValueId} {declared : Ty} {kind : ValueKind} {v : Value}
    {s s' : FrameState} (h : checkComputed result declared kind v s = .ok ⟨⟩ s') : s = s' := by
  unfold checkComputed at h
  split at h
  · exact (pure_eq_ok.mp h).2.symm
  · have h := get_bind_eq_ok.mp h
    obtain ⟨ok, -, h⟩ := asked_eq_ok.mp h
    split at h
    · exact absurd h fail_ne_ok
    · exact (pure_eq_ok.mp h).2.symm

theorem execValue_computes {result : ValueId} {ty : Ty} {kind : ValueKind} {s s' : FrameState}
    (h : execValue m fpu call ctx result ty kind s = .ok ⟨⟩ s') :
    ∃ v u, computeValue m fpu call ctx (substitute ty ctx.subst) kind s = .ok v u ∧
      (unexecutableNumericName (substitute ty ctx.subst)).isSome = false ∧
      checkComputed result (substitute ty ctx.subst) kind v u = .ok ⟨⟩ u ∧
      s' = u.insert result v := by
  unfold execValue at h
  obtain ⟨hnumeric, h⟩ := guard_eq_ok.mp h
  obtain ⟨v, u, hv, h⟩ := bind_eq_ok.mp h
  obtain ⟨⟨⟩, u', hcheck, h⟩ := bind_eq_ok.mp h
  obtain rfl := checkComputed_eq_ok hcheck
  exact ⟨v, u, hv, by simpa using hnumeric, hcheck, modify_eq_ok.mp h⟩

theorem execValue_eq_ok {result : ValueId} {ty : Ty} {kind : ValueKind} {s s' : FrameState}
    (h : execValue m fpu call ctx result ty kind s = .ok ⟨⟩ s') :
    ∃ v u, ValueEffect m call ctx ty s kind v u ∧
      (unexecutableNumericName (substitute ty ctx.subst)).isSome = false ∧
      s' = u.insert result v := by
  obtain ⟨v, u, hv, hnumeric, -, rfl⟩ := execValue_computes h
  exact ⟨v, u, computeValue_effect hv, hnumeric, rfl⟩

theorem planStore_transfer_eq_ok {t : ResourceTable} {incoming : Value}
    {installed : Option Value} {plan : StorePlan}
    (h : planStore m t incoming .transfer = .ok (installed, plan)) :
    ∃ rebuilt, installed = some rebuilt ∧ validateOwnedGraph m t incoming = .ok ⟨⟩ ∧
      (planTransfer m t incoming).run {} = .ok (rebuilt, plan) := by
  unfold planStore at h
  obtain ⟨⟨⟩, hgraph, h⟩ := Except.bind_eq_ok.mp h
  obtain ⟨⟨rebuilt, plan'⟩, hplan, h⟩ := Except.bind_eq_ok.mp h
  cases h
  exact ⟨rebuilt, rfl, hgraph, hplan⟩

theorem checkSlot_eq_ok {what : String} {t : ResourceTable} {values : Values}
    {retired : List ResourceId} {slot : ValueId}
    (h : checkSlot what t values retired slot = .ok ⟨⟩) {existing : Value}
    (hslot : values.lookup slot = some existing) : ownsLive t retired existing = false := by
  unfold checkSlot at h
  rw [hslot] at h
  cases howns : ownsLive t retired existing with
  | false => rfl
  | true => simp [howns, Except.throw_ne_ok] at h

theorem commitStore_some {incoming rebuilt : Value} {plan : StorePlan} {s : FrameState} :
    commitStore incoming plan (some rebuilt) s =
      .ok rebuilt (s.withResources (s.resources.commitTransfer plan)) := rfl

theorem commitStore_none {incoming : Value} {plan : StorePlan} {s : FrameState} :
    commitStore incoming plan none s =
      (liftExcept (toObserverIfResource s.resources incoming) : Op FrameState Value) s := rfl

/-- A store that succeeded: it was planned, its slot was free to be overwritten
and what it installed was committed. -/
theorem execStore_eq_ok {slot value : ValueId} {mode : OwnershipMode} {s s' : FrameState}
    (h : execStore m slot value mode s = .ok ⟨⟩ s') :
    ∃ incoming installed plan v u, s.values.read value = .ok incoming ∧
      planStore m s.resources incoming mode = .ok (installed, plan) ∧
      checkSlot "a store" s.resources s.values plan.reachable slot = .ok ⟨⟩ ∧
      commitStore incoming plan installed s = .ok v u ∧ s' = u.insert slot v := by
  unfold execStore at h
  rw [get_bind_eq_ok, ask_bind_eq_ok] at h
  obtain ⟨incoming, hread, h⟩ := h
  rw [get_bind_eq_ok, ask_bind_eq_ok] at h
  obtain ⟨⟨installed, plan⟩, hplan, h⟩ := h
  dsimp only at h
  rw [get_bind_eq_ok, get_bind_eq_ok, ask_bind_eq_ok] at h
  obtain ⟨⟨⟩, hslot, h⟩ := h
  rw [bind_eq_ok] at h
  obtain ⟨v, u, hv, h⟩ := h
  exact ⟨incoming, installed, plan, v, u, hread, hplan, hslot, hv, modify_eq_ok.mp h⟩

theorem execStore_transfer_eq_ok {slot value : ValueId} {s s' : FrameState}
    (h : execStore m slot value .transfer s = .ok ⟨⟩ s') :
    ∃ incoming rebuilt plan, s.values.read value = .ok incoming ∧
      validateOwnedGraph m s.resources incoming = .ok ⟨⟩ ∧
      (planTransfer m s.resources incoming).run {} = .ok (rebuilt, plan) ∧
      (∀ existing, s.values.lookup slot = some existing →
        ownsLive s.resources plan.reachable existing = false) ∧
      s' = (s.withResources (s.resources.commitTransfer plan)).insert slot rebuilt := by
  obtain ⟨incoming, installed, plan, v, u, hread, hplan, hslot, hv, rfl⟩ := execStore_eq_ok h
  obtain ⟨rebuilt, rfl, hgraph, hplan⟩ := planStore_transfer_eq_ok hplan
  rw [commitStore_some] at hv
  cases hv
  exact ⟨incoming, v, plan, hread, hgraph, hplan, fun _ => checkSlot_eq_ok hslot, rfl⟩

theorem execStore_observe_eq_ok {slot value : ValueId} {s s' : FrameState}
    (h : execStore m slot value .observe s = .ok ⟨⟩ s') :
    ∃ incoming view, s.values.read value = .ok incoming ∧
      toObserverIfResource s.resources incoming = .ok view ∧
      (∀ existing, s.values.lookup slot = some existing →
        ownsLive s.resources [] existing = false) ∧
      s' = s.insert slot view := by
  obtain ⟨incoming, installed, plan, v, u, hread, hplan, hslot, hv, rfl⟩ := execStore_eq_ok h
  cases hplan
  rw [commitStore_none, liftExcept_eq_ok] at hv
  obtain ⟨hview, rfl⟩ := hv
  exact ⟨incoming, v, hread, hview, fun _ => checkSlot_eq_ok hslot, rfl⟩

theorem dropAffine_eq_ok {v : Value} {s s' : FrameState} (h : dropAffine m v s = .ok ⟨⟩ s') :
    ∃ t, dropValue m v s.resources = .ok ⟨⟩ t ∧ s' = s.withResources t := by
  have hdecide : ∀ w : Value, (do
      if ← liftExcept (isAffineValue m w) then onTable (dropValue m w)
      else refuseDrop w : Op FrameState Unit) s = .ok ⟨⟩ s' →
      ∃ t, dropValue m w s.resources = .ok ⟨⟩ t ∧ s' = s.withResources t := by
    intro w hw
    obtain ⟨affine, -, hw⟩ := ask_bind_eq_ok.mp hw
    split at hw
    · exact onTable_eq_ok.mp hw
    · exact absurd hw throw_ne_ok
  cases v with
  | resource handle => exact onTable_eq_ok.mp h
  | record item typeArgs fields => exact hdecide _ h
  | variant item typeArgs case payload => exact hdecide _ h
  | _ => exact absurd h throw_ne_ok

theorem execDrop_eq_ok {value : ValueId} {s s' : FrameState}
    (h : execDrop m value s = .ok ⟨⟩ s') :
    ∃ v t, s.values.read value = .ok v ∧ dropValue m v s.resources = .ok ⟨⟩ t ∧
      s' = { s.withResources t with values := s.values.erase value } := by
  unfold execDrop at h
  obtain ⟨v, hread, h⟩ := ask_bind_eq_ok.mp (get_bind_eq_ok.mp h)
  obtain ⟨⟨⟩, u, hdrop, h⟩ := bind_eq_ok.mp h
  obtain ⟨t, ht, rfl⟩ := dropAffine_eq_ok hdrop
  cases h
  exact ⟨v, t, hread, ht, rfl⟩

theorem exitTransfer_eq_ok {verb : String} {value leaving : Value} {s s' : FrameState}
    (h : exitTransfer m ctx verb value s = .ok leaving s') :
    ∃ plan, (planTransfer m s.resources value).run {} = .ok (leaving, plan) ∧
      leakedResource s.resources s.values ctx.observingParams plan.reachable = none ∧
      s' = s.withResources (s.resources.commitTransfer plan) := by
  unfold exitTransfer at h
  have h := get_bind_eq_ok.mp h
  obtain ⟨⟨v, plan⟩, hplan, h⟩ := ask_bind_eq_ok.mp h
  have h := get_bind_eq_ok.mp h
  cases hleak : leakedResource s.resources s.values ctx.observingParams plan.reachable with
  | some id =>
    simp only [hleak] at h
    obtain ⟨_, _, h, -⟩ := bind_eq_ok.mp h
    exact absurd h throw_ne_ok
  | none =>
    simp only [hleak] at h
    cases h
    exact ⟨plan, hplan, hleak, rfl⟩

/-- What the exit of a frame did: the value it leaves with and what the backstop
was asked. -/
inductive ExitEffect (m : Module) (ctx : FrameContext) (s : FrameState) :
    Value → FrameState → Prop
  | nothing : leakedResource s.resources s.values ctx.observingParams [] = none →
      ExitEffect m ctx s .unit s
  | value {id : ValueId} {v leaving : Value} {plan : StorePlan} : s.values.read id = .ok v →
      (planTransfer m s.resources v).run {} = .ok (leaving, plan) →
      leakedResource s.resources s.values ctx.observingParams plan.reachable = none →
      ExitEffect m ctx s leaving (s.withResources (s.resources.commitTransfer plan))

theorem exitReturn_effect {id : Option ValueId} {v : Value} {s s' : FrameState}
    (h : exitReturn m ctx id s = .ok v s') : ExitEffect m ctx s v s' := by
  unfold exitReturn at h
  cases id with
  | some id =>
    obtain ⟨value, hread, h⟩ := ask_bind_eq_ok.mp (get_bind_eq_ok.mp h)
    obtain ⟨⟨⟩, -, h⟩ := ask_bind_eq_ok.mp (get_bind_eq_ok.mp h)
    obtain ⟨plan, hplan, hleak, rfl⟩ := exitTransfer_eq_ok h
    exact .value hread hplan hleak
  | none =>
    rw [get_bind_eq_ok, get_bind_eq_ok] at h
    cases hleak : leakedResource s.resources s.values ctx.observingParams [] with
    | some id =>
      simp only [hleak] at h
      exact absurd h throw_ne_ok
    | none =>
      simp only [hleak] at h
      cases h
      exact .nothing hleak

theorem exitRaise_effect {id : ValueId} {v : Value} {s s' : FrameState}
    (h : exitRaise m ctx id s = .ok v s') : ExitEffect m ctx s v s' := by
  unfold exitRaise at h
  obtain ⟨value, hread, h⟩ := ask_bind_eq_ok.mp (get_bind_eq_ok.mp h)
  obtain ⟨plan, hplan, hleak, rfl⟩ := exitTransfer_eq_ok h
  exact .value hread hplan hleak

theorem refuseOpenObservation_eq_ok {s s' : FrameState}
    (h : refuseOpenObservation s = .ok ⟨⟩ s') : s.activeLeases = [] ∧ s' = s := by
  unfold refuseOpenObservation at h
  have h := get_bind_eq_ok.mp h
  cases hlast : s.activeLeases.getLast? with
  | some p =>
    simp only [hlast] at h
    exact absurd h throw_ne_ok
  | none =>
    simp only [hlast] at h
    cases h
    exact ⟨List.getLast?_eq_none_iff.mp hlast, rfl⟩

/-- What a terminator did: it left the frame, moved inside it, or resumed after
the call it made. -/
inductive TerminatorEffect (m : Module) (call : Call) (ctx : FrameContext) (s : FrameState) :
    Terminator → Next → FrameState → Prop
  | ret {id : Option ValueId} {v : Value} {s' : FrameState} : s.activeLeases = [] →
      ExitEffect m ctx s v s' → TerminatorEffect m call ctx s (.ret id) (.exit (.returned v)) s'
  | raise {id : ValueId} {v : Value} {s' : FrameState} : s.activeLeases = [] →
      ExitEffect m ctx s v s' → TerminatorEffect m call ctx s (.raise id) (.exit (.raised v)) s'
  | jump {terminator : Terminator} {target : BlockId} :
      TerminatorEffect m call ctx s terminator (.goto target) s
  | invoke {callee : ItemId} {typeArgs : List Ty} {args : List ValueId}
      {evidence : List Evidence} {okSlot slot : ValueId} {okTarget target : BlockId}
      {errTargets : List InvokeErrTarget} {request : CallRequest} {outcome : Outcome}
      {i : InterpreterState} {v : Value} :
      requestInvoke m ctx s.resources s.values callee typeArgs args evidence
        (okSlot :: errTargets.map (·.slot)) = .ok request →
      call request s.interpreter = .ok outcome i →
      resumeInvoke okSlot okTarget errTargets outcome = .ok (slot, v, target) →
      TerminatorEffect m call ctx s
        (.invoke callee typeArgs args evidence okSlot okTarget errTargets) (.goto target)
        (({ s with interpreter := i } : FrameState).insert slot v)

theorem execInvoke_eq_ok {callee : ItemId} {typeArgs : List Ty} {args : List ValueId}
    {evidence : List Evidence} {okSlot : ValueId} {okTarget : BlockId}
    {errTargets : List InvokeErrTarget} {next : Next} {s s' : FrameState}
    (h : execInvoke m call ctx callee typeArgs args evidence okSlot okTarget errTargets s =
      .ok next s') :
    ∃ request outcome i slot v target,
      requestInvoke m ctx s.resources s.values callee typeArgs args evidence
        (okSlot :: errTargets.map (·.slot)) = .ok request ∧
      call request s.interpreter = .ok outcome i ∧
      resumeInvoke okSlot okTarget errTargets outcome = .ok (slot, v, target) ∧
      next = .goto target ∧ s' = ({ s with interpreter := i } : FrameState).insert slot v := by
  unfold execInvoke at h
  rw [get_bind_eq_ok, get_bind_eq_ok, asked_eq_ok] at h
  obtain ⟨request, hrequest, h⟩ := h
  rw [bind_eq_ok] at h
  obtain ⟨outcome, u, hcall, h⟩ := h
  obtain ⟨i, hi, rfl⟩ := inInterpreter_eq_ok.mp hcall
  obtain ⟨⟨slot, v, target⟩, hresume, h⟩ := asked_eq_ok.mp h
  cases h
  exact ⟨request, outcome, i, slot, v, target, hrequest, hi, hresume, rfl, rfl⟩

theorem execInvoke_effect {callee : ItemId} {typeArgs : List Ty} {args : List ValueId}
    {evidence : List Evidence} {okSlot : ValueId} {okTarget : BlockId}
    {errTargets : List InvokeErrTarget} {next : Next} {s s' : FrameState}
    (h : execInvoke m call ctx callee typeArgs args evidence okSlot okTarget errTargets s =
      .ok next s') :
    TerminatorEffect m call ctx s
      (.invoke callee typeArgs args evidence okSlot okTarget errTargets) next s' := by
  obtain ⟨_, _, _, _, _, _, hrequest, hi, hresume, rfl, rfl⟩ := execInvoke_eq_ok h
  exact .invoke hrequest hi hresume

theorem execTerminator_effect {terminator : Terminator} {next : Next} {s s' : FrameState}
    (h : execTerminator m call ctx terminator s = .ok next s') :
    TerminatorEffect m call ctx s terminator next s' := by
  unfold execTerminator at h
  split at h
  · obtain ⟨⟨⟩, u, hopen, h⟩ := bind_eq_ok.mp h
    obtain ⟨v, w, hv, hpure⟩ := bind_eq_ok.mp h
    obtain ⟨hnil, rfl⟩ := refuseOpenObservation_eq_ok (perform_eq_ok.mp hopen)
    obtain ⟨rfl, rfl⟩ := pure_eq_ok.mp hpure
    exact .ret hnil (exitReturn_effect (perform_eq_ok.mp hv))
  · obtain ⟨⟨⟩, u, hopen, h⟩ := bind_eq_ok.mp h
    obtain ⟨v, w, hv, hpure⟩ := bind_eq_ok.mp h
    obtain ⟨hnil, rfl⟩ := refuseOpenObservation_eq_ok (perform_eq_ok.mp hopen)
    obtain ⟨rfl, rfl⟩ := pure_eq_ok.mp hpure
    exact .raise hnil (exitRaise_effect (perform_eq_ok.mp hv))
  · cases h
    exact .jump
  · obtain ⟨v, -, h⟩ := asked_eq_ok.mp (get_bind_eq_ok.mp h)
    obtain ⟨target, -, h⟩ := asked_eq_ok.mp h
    obtain ⟨rfl, rfl⟩ := pure_eq_ok.mp h
    exact .jump
  · obtain ⟨v, -, h⟩ := asked_eq_ok.mp (get_bind_eq_ok.mp h)
    obtain ⟨target, -, h⟩ := asked_eq_ok.mp h
    obtain ⟨rfl, rfl⟩ := pure_eq_ok.mp h
    exact .jump
  · exact execInvoke_effect h

end Runs

end Napitia.Interpreter
