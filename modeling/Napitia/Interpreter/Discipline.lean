import Napitia.Lib.Always
import Napitia.Interpreter.Frozen

/-!
# The discipline of leases and frames

Whatever an interpreter is asked to run, the active list names exactly the open leases, in
the order in which they were opened. A frame opens and ends leases behind those it was
entered with, and when it is left, with an outcome or with an error at any point, those are
the open leases again and its frame of the depth budget is given back.
-/
namespace Napitia.Interpreter
open Nir EStateM ResourceTable

/-- The active list names the open leases in ascending order, and no lease is older than
the one it was opened inside. -/
structure LeaseOrder (t : ResourceTable) : Prop where
  active : ∀ id, id ∈ t.active ↔ ∃ lease, t.Holds id lease
  ascending : t.active.Pairwise fun a b => a.index < b.index
  numbered : ∀ (i : ℕ) lease, t.leases[i]? = some lease → lease.id = ⟨i⟩
  parents : ∀ (i : ℕ) lease, t.leases[i]? = some lease → ∀ p, lease.parent = some p → p.index < i

section Tables
variable {base t t' u : ResourceTable} {own : List RuntimeObservationId}
  {id : RuntimeObservationId}

theorem leaseOrder_empty : LeaseOrder {} where
  active := by simp [Holds]
  ascending := .nil
  numbered := by simp
  parents := by simp

theorem LeaseOrder.congr (h : LeaseOrder t) (hleases : t'.leases = t.leases)
    (hactive : t'.active = t.active) : LeaseOrder t' where
  active := by
    unfold Holds
    rw [hleases, hactive]
    exact h.active
  ascending := hactive ▸ h.ascending
  numbered := hleases ▸ h.numbered
  parents := hleases ▸ h.parents

theorem LeaseOrder.lt_of_mem (h : LeaseOrder t) (hid : id ∈ t.active) :
    id.index < t.leases.length := by
  obtain ⟨_, hl, -⟩ := (h.active id).mp hid
  exact (List.getElem?_eq_some_iff.mp hl).choose

theorem LeaseOrder.opened (h : LeaseOrder t) {lease : RuntimeObservation}
    (hactive : lease.status = .active) (hid : lease.id = t.reservedLeaseId)
    (hparent : ∀ p, lease.parent = some p → p ∈ t.active) : LeaseOrder (t.opened lease) := by
  have hlease : ∀ {i l}, (t.opened lease).leases[i]? = some l →
      t.leases[i]? = some l ∨ i = t.leases.length ∧ l = lease := by
    intro i l hl
    have hl : (t.leases ++ [lease])[i]? = some l := hl
    by_cases hlt : i < t.leases.length
    · rw [List.getElem?_append_left hlt] at hl
      exact .inl hl
    · obtain ⟨hi, rfl⟩ := List.getElem?_eq_some_iff.mp hl
      rw [List.length_append, List.length_singleton] at hi
      have heq : i = t.leases.length := by omega
      subst heq
      exact .inr ⟨rfl, by simp⟩
  refine ⟨fun id => ?_, ?_, fun i l hl => ?_, fun i l hl p hp => ?_⟩
  · have hmem : id ∈ (t.opened lease).active ↔ id ∈ t.active ∨ id = t.reservedLeaseId := by
      simp [ResourceTable.opened]
    rw [hmem, h.active]
    simp only [opened_holds hactive, exists_or, exists_and_left, exists_eq, and_true]
  · refine List.pairwise_append.mpr ⟨h.ascending, List.pairwise_singleton _ _, ?_⟩
    intro a ha b hb
    obtain rfl := List.mem_singleton.mp hb
    exact h.lt_of_mem ha
  · rcases hlease hl with hl | ⟨rfl, rfl⟩
    · exact h.numbered i l hl
    · exact hid
  · rcases hlease hl with hl | ⟨rfl, rfl⟩
    · exact h.parents i l hl p hp
    · exact h.lt_of_mem (hparent p hp)

theorem LeaseOrder.closed (h : LeaseOrder t) (id : RuntimeObservationId) :
    LeaseOrder (t.closed id) := by
  have hlease : ∀ {i : ℕ} {l : RuntimeObservation}, (t.closed id).leases[i]? = some l →
      ∃ l' : RuntimeObservation, t.leases[i]? = some l' ∧ l.id = l'.id ∧ l.parent = l'.parent := by
    intro i l hl
    rw [closed_leases] at hl
    split at hl
    · obtain ⟨l', hl', rfl⟩ := Option.map_eq_some_iff.mp hl
      exact ⟨l', hl', rfl, rfl⟩
    · exact ⟨l, hl, rfl, rfl⟩
  refine ⟨fun i => ?_, h.ascending.filter _, fun i l hl => ?_, fun i l hl p hp => ?_⟩
  · have hmem : i ∈ (t.closed id).active ↔ i ∈ t.active ∧ i ≠ id := by
      simp [ResourceTable.closed]
    rw [hmem, h.active]
    simp only [closed_holds, exists_and_right]
  · obtain ⟨l', hl', heq, -⟩ := hlease hl
    rw [heq]
    exact h.numbered i l' hl'
  · obtain ⟨l', hl', -, heq⟩ := hlease hl
    exact h.parents i l' hl' p (heq ▸ hp)

/-- What has become of a table since a frame was entered with it: the leases it was entered
with are as they were, and the open ones are those and, behind them, the frame's own. -/
structure Stacked (base t : ResourceTable) (own : List RuntimeObservationId) : Prop where
  order : LeaseOrder t
  older : ∀ i < base.leases.length, t.leases[i]? = base.leases[i]?
  active : t.active = base.active ++ own
  own : ∀ id ∈ own, base.leases.length ≤ id.index

theorem Stacked.refl (h : LeaseOrder t) : Stacked t t [] where
  order := h
  older := fun _ _ => rfl
  active := (List.append_nil _).symm
  own := by simp

theorem Stacked.congr (h : Stacked base t own) (hleases : t'.leases = t.leases)
    (hactive : t'.active = t.active) : Stacked base t' own where
  order := h.order.congr hleases hactive
  older := hleases ▸ h.older
  active := hactive.trans h.active
  own := h.own

theorem Stacked.length_le (h : Stacked base t own) : base.leases.length ≤ t.leases.length := by
  by_contra hlt
  have hsome := h.older t.leases.length (by omega)
  rw [List.getElem?_eq_none (Nat.le_refl _)] at hsome
  exact absurd hsome.symm (by simp; omega)

theorem Stacked.trans (h : Stacked base t own) (h' : Stacked t u []) : Stacked base u own where
  order := h'.order
  older := fun i hi => (h'.older i (Nat.lt_of_lt_of_le hi h.length_le)).trans (h.older i hi)
  active := by rw [h'.active, List.append_nil, h.active]
  own := h.own

theorem Stacked.opened (h : Stacked base t own) {lease : RuntimeObservation}
    (hactive : lease.status = .active) (hid : lease.id = t.reservedLeaseId)
    (hparent : ∀ p, lease.parent = some p → p ∈ own) :
    Stacked base (t.opened lease) (own ++ [t.reservedLeaseId]) where
  order := h.order.opened hactive hid fun p hp => by
    rw [h.active]
    exact List.mem_append_right _ (hparent p hp)
  older := by
    intro i hi
    rw [← h.older i hi]
    exact List.getElem?_append_left (Nat.lt_of_lt_of_le hi h.length_le)
  active := by
    change t.active ++ [t.reservedLeaseId] = _
    rw [h.active, List.append_assoc]
  own := by
    intro i hi
    rcases List.mem_append.mp hi with hi | hi
    · exact h.own i hi
    · obtain rfl := List.mem_singleton.mp hi
      exact h.length_le

theorem Stacked.filter_active (h : Stacked base t (own ++ [id])) :
    t.active.filter (· ≠ id) = base.active ++ own := by
  have hbefore : ∀ i ∈ base.active ++ own, i ≠ id := by
    intro i hi heq
    have hlt := h.order.ascending
    rw [h.active, ← List.append_assoc] at hlt
    exact absurd ((List.pairwise_append.mp hlt).2.2 i hi id (by simp)) (by rw [heq]; omega)
  rw [h.active, ← List.append_assoc, List.filter_append, List.filter_eq_self.mpr (by simpa using hbefore)]
  simp

theorem Stacked.closed (h : Stacked base t (own ++ [id])) : Stacked base (t.closed id) own where
  order := h.order.closed id
  older := by
    intro i hi
    have hne : id.index ≠ i := by
      have hown := h.own id (by simp)
      omega
    rw [closed_leases, if_neg hne, h.older i hi]
  active := h.filter_active
  own := fun i hi => h.own i (List.mem_append_left _ hi)

theorem Stacked.abandon (hbase : LeaseOrder base) (h : Stacked base t own) :
    Stacked base (t.abandonLeasesFrom base.leaseMark) [] := by
  induction own using List.reverseRecOn generalizing t with
  | nil =>
    have hnone : (t.active.reverse.takeWhile fun id => base.leaseMark ≤ id.index) = [] := by
      cases hactive : t.active.reverse with
      | nil => rfl
      | cons id rest =>
        have hid : id ∈ base.active := by
          rw [← List.append_nil base.active, ← h.active, ← List.mem_reverse, hactive]
          exact List.mem_cons_self
        have hlt : ¬ base.leaseMark ≤ id.index := Nat.not_le.mpr (hbase.lt_of_mem hid)
        exact List.takeWhile_cons_of_neg (by simpa using hlt)
    unfold abandonLeasesFrom
    rw [hnone]
    exact h
  | append_singleton own id ih =>
    have hmark : base.leaseMark ≤ id.index := h.own id (by simp)
    have hdrop : t.active.dropLast = t.active.filter (· ≠ id) := by
      rw [h.filter_active, h.active, ← List.append_assoc, List.dropLast_concat]
    have hclosed : (⟨t.records, (t.setLeaseStatus id .ended).leases, t.active.dropLast⟩ :
        ResourceTable) = t.closed id := by
      rw [hdrop]
      rfl
    -- the innermost lease is the last of the list and the first to be given up
    have hstep : t.abandonLeasesFrom base.leaseMark =
        (t.closed id).abandonLeasesFrom base.leaseMark := by
      unfold abandonLeasesFrom
      rw [h.active, h.closed.active, ← List.append_assoc, List.reverse_append,
        List.reverse_singleton, List.singleton_append,
        List.takeWhile_cons_of_pos (by simpa using hmark), List.foldl_cons]
      change List.foldl _ (⟨t.records, (t.setLeaseStatus id .ended).leases, t.active.dropLast⟩ :
        ResourceTable) _ = _
      rw [hclosed]
    rw [hstep]
    exact ih h.closed

theorem Stacked.holds (hbase : LeaseOrder base) (h : Stacked base t [])
    {lease : RuntimeObservation} : t.Holds id lease ↔ base.Holds id lease := by
  have hactive : t.active = base.active := by rw [h.active, List.append_nil]
  have hlt : id ∈ base.active → t.leases[id.index]? = base.leases[id.index]? :=
    fun hid => h.older _ (hbase.lt_of_mem hid)
  constructor
  · intro hholds
    have hid : id ∈ base.active := hactive ▸ (h.order.active id).mpr ⟨lease, hholds⟩
    exact ⟨hlt hid ▸ hholds.1, hholds.2⟩
  · intro hholds
    have hid : id ∈ base.active := (hbase.active id).mpr ⟨lease, hholds⟩
    exact ⟨(hlt hid).trans hholds.1, hholds.2⟩

end Tables

/-! ### Operations -/

/-- The interpreter while a frame runs on it that was entered with the table `base`. -/
structure Holding (base : ResourceTable) (own : List RuntimeObservationId) (depth : ℕ)
    (i : InterpreterState) : Prop where
  stacked : Stacked base i.resources own
  depth : i.callDepth = depth

/-- A frame that was entered with the table `base`. -/
def FrameHolding (base : ResourceTable) (depth : ℕ) (s : FrameState) : Prop :=
  Holding base (s.activeLeases.map (·.2)) depth s.interpreter

/-- A table operation that touches no lease, completed or failed. -/
def Quiet {α : Type} (x : Op ResourceTable α) : Prop :=
  ∀ t, (x t).left.leases = t.leases ∧ (x t).left.active = t.active

/-- A call that leaves the leases and the depth budget as it found them. -/
def Disciplined (call : Call) : Prop :=
  ∀ base own depth request, Always (Holding base own depth) (call request)

section Operations
variable {m : Module} {fpu : FloatUnit} {call : Call} {ctx : FrameContext} {base : ResourceTable}
  {own : List RuntimeObservationId} {depth : ℕ} {i : InterpreterState} {s : FrameState}
  {α : Type}

theorem Holding.withTable (h : Holding base own depth i) {t : ResourceTable}
    (hleases : t.leases = i.resources.leases) (hactive : t.active = i.resources.active) :
    Holding base own depth (i.withTable t) where
  stacked := h.stacked.congr hleases hactive
  depth := h.depth

theorem Holding.commit (h : Holding base own depth i) (plan : StorePlan) :
    Holding base own depth (i.withTable (i.resources.commitTransfer plan)) :=
  h.withTable (commitTransfer_leases plan) (commitTransfer_active plan)

theorem Quiet.of_atomic {x : Op ResourceTable α} (hx : Atomic x)
    (h : ∀ t a t', x t = .ok a t' → t'.leases = t.leases ∧ t'.active = t.active) : Quiet x := by
  intro t
  cases hrun : x t with
  | ok a t' => exact h t a t' hrun
  | error e t' =>
    rw [hx t e t' hrun]
    exact ⟨rfl, rfl⟩

theorem quiet_transferIfResource (v : Value) : Quiet (transferIfResource m v) := by
  refine .of_atomic (transferIfResource_atomic v) fun t w t' h => ?_
  obtain ⟨plan, -, rfl⟩ := transferIfResource_eq_ok.mp h
  exact ⟨commitTransfer_leases plan, commitTransfer_active plan⟩

theorem quiet_commit (plan : StorePlan) :
    Quiet (modify (·.commitTransfer plan) : Op ResourceTable PUnit) :=
  fun _ => ⟨commitTransfer_leases plan, commitTransfer_active plan⟩

theorem quiet_dropValue (v : Value) : Quiet (dropValue m v) := by
  refine .of_atomic (dropValue_atomic v) fun t u t' h => ?_
  obtain ⟨_, plan, -, -, -, rfl⟩ := dropValue_eq_ok h
  clear h
  induction plan generalizing t with
  | nil => exact ⟨rfl, rfl⟩
  | cons k plan ih => exact ih (t.setStatus k.id .dropped)

theorem Quiet.onResources {x : Op ResourceTable α} (hx : Quiet x) :
    Always (Holding base own depth) (onResources x) :=
  Always.zoom fun i hi => hi.withTable (hx i.resources).1 (hx i.resources).2

theorem Quiet.onTable {x : Op ResourceTable α} (hx : Quiet x) :
    Always (FrameHolding base depth) (onTable x) :=
  Always.zoom fun s hs => Holding.withTable hs (hx s.resources).1 (hx s.resources).2

theorem always_ask {σ : Type} {P : σ → Prop} (x : Except InterpreterError α) :
    Always P (Interpreter.ask x : Run σ α) :=
  (Always.ask x).adaptExcept

theorem always_fail {σ : Type} {P : σ → Prop} (message : String) :
    Always P (fail message : Run σ α) :=
  Always.throw _

/-! ### Evaluating -/

theorem always_constructParts {values : Values} {declared : List Ty} {ids : List ValueId} :
    Always (Holding base own depth) (constructParts m values declared ids) := by
  refine (Always.ask _).bind fun supplied => Always.get.bind fun _ => ?_
  refine (Always.ask _).bind fun _ => (Always.ask _).bind fun planned => ?_
  obtain ⟨rebuilt, plan⟩ := planned
  exact (Always.modify fun _ hi => hi.commit plan).bind fun _ => .pure _

theorem always_recordCreate {values : Values} {item : ItemId} {typeArgs : List Ty}
    {ids : List ValueId} :
    Always (Holding base own depth) (evalRecordCreate m ctx values item typeArgs ids) := by
  refine (Always.ask _).bind fun _ => (Always.ask _).bind fun _ => always_guard ?_
  refine always_constructParts.bind fun fields => Always.ite ?_ (.pure _)
  exact fun i hi => hi.withTable (t := (i.resources.construct item fields).2) rfl rfl

theorem always_variantCreate {values : Values} {item : ItemId} {case : ℕ} {typeArgs : List Ty}
    {ids : List ValueId} :
    Always (Holding base own depth) (evalVariantCreate m ctx values item case typeArgs ids) := by
  refine (Always.ask _).bind fun _ => (Always.ask _).bind fun _ => always_guard ?_
  exact always_constructParts.bind fun _ => .pure _

theorem always_callReturning (hcall : Disciplined call) {refusal : String}
    {request : CallRequest} :
    Always (Holding base own depth) (callReturning call refusal request) := by
  refine (hcall _ _ _ request).bind fun outcome => ?_
  cases outcome with
  | returned v => exact .pure _
  | raised v => exact always_fail _

theorem always_eval (hcall : Disciplined call) {values : Values} {kind : ValueKind} :
    Always (Holding base own depth) (eval m fpu call ctx values kind) := by
  unfold eval
  cases evalScalar fpu values kind with
  | some result => exact always_ask _
  | none =>
    cases kind with
    | alloc => exact .pure _
    | const c => exact always_ask _
    | load id => exact always_ask _
    | move source | deferCapture source =>
      exact ((Always.ask _).bind fun v => (quiet_transferIfResource v).onResources).adaptExcept
    | call item typeArgs args evidence =>
      exact (always_ask _).bind fun _ => always_callReturning hcall
    | protocolCall protocol arguments method evidence args =>
      exact (always_ask _).bind fun _ => always_callReturning hcall
    | recordCreate item typeArgs fields => exact always_recordCreate.adaptExcept
    | recordField base record field => exact Always.get.bind fun _ => always_ask _
    | variantCreate item case typeArgs payload => exact always_variantCreate.adaptExcept
    | variantPayload base variant case index => exact always_ask _
    | _ => exact always_fail _

theorem always_inInterpreter {x : Run InterpreterState α}
    (hx : ∀ own, Always (Holding base own depth) x) :
    Always (FrameHolding base depth) (inInterpreter x) :=
  Always.zoom fun s hs => hx _ s.interpreter hs

/-! ### Frames -/

theorem always_accessPlace {loadOrigin : LoadOrigin} {place : Place ValueId}
    {mode : OwnershipMode} :
    Always (FrameHolding base depth) (accessPlace loadOrigin place mode) := by
  refine (accessPlace_atomic place mode).always fun s v s' hs h => ?_
  cases mode with
  | observe =>
    obtain ⟨_, _, -, -, -, rfl⟩ := accessPlace_observe_eq_ok.mp h
    exact hs
  | transfer =>
    obtain ⟨_, _, _, t, -, -, -, hvalid, hcommit, rfl⟩ := accessPlace_transfer_eq_ok h
    rcases commitTake_rewrites hvalid hcommit with ⟨-, -, rfl⟩ | ⟨-, hrw⟩
    · exact hs
    · exact Holding.withTable hs hrw.leases.1 hrw.leases.2

theorem always_beginObserve {loadOrigin : LoadOrigin} {observation : ObservationId}
    {place : Place ValueId} {declared : Ty} :
    Always (FrameHolding base depth) (beginObserve m loadOrigin observation place declared) := by
  refine (beginObserve_atomic observation place declared).always fun s v s' hs h => ?_
  obtain ⟨_, _, observed, -, -, -, -, -, rfl⟩ := beginObserve_eq_ok h
  let lease : RuntimeObservation :=
    ⟨s.resources.reservedLeaseId, .active, observed, s.activeLeases.getLast?.map (·.2)⟩
  have hactive : lease.status = .active := rfl
  have hparent : ∀ p, lease.parent = some p → p ∈ s.activeLeases.map (·.2) := by
    intro p hp
    obtain ⟨l, hl, rfl⟩ := Option.map_eq_some_iff.mp hp
    exact List.mem_map_of_mem (List.mem_of_getLast? hl)
  refine ⟨?_, hs.depth⟩
  rw [List.map_append]
  exact hs.stacked.opened hactive rfl hparent

theorem always_endObserve {observation : ObservationId} :
    Always (FrameHolding base depth) (endObserve observation) := by
  refine (endObserve_atomic observation).always fun s v s' hs h => ?_
  obtain ⟨id, hlast, rfl⟩ := endObserve_eq_ok h
  obtain ⟨front, hfront⟩ := List.getLast?_eq_some_iff.mp hlast
  have hstacked : Stacked base s.resources (front.map (·.2) ++ [id]) := by
    have hall := hs.stacked
    rwa [hfront, List.map_append] at hall
  refine ⟨?_, hs.depth⟩
  have hdrop : s.activeLeases.dropLast = front := by rw [hfront, List.dropLast_concat]
  rw [hdrop]
  exact hstacked.closed

theorem always_computeValue (hcall : Disciplined call) {declared : Ty} {kind : ValueKind} :
    Always (FrameHolding base depth) (computeValue m fpu call ctx declared kind) := by
  unfold computeValue
  split
  · exact always_accessPlace.adaptExcept
  · exact always_beginObserve.adaptExcept
  · exact Always.get.bind fun _ => always_inInterpreter fun _ => always_eval hcall

theorem always_checkComputed {result : ValueId} {declared : Ty} {kind : ValueKind} {v : Value} :
    Always (FrameHolding base depth) (checkComputed result declared kind v) := by
  unfold checkComputed
  split
  · exact .pure _
  · refine Always.get.bind fun _ => (always_ask _).bind fun _ => ?_
    split
    · exact always_fail _
    · exact .pure _

theorem always_execValue (hcall : Disciplined call) {result : ValueId} {ty : Ty}
    {kind : ValueKind} :
    Always (FrameHolding base depth) (execValue m fpu call ctx result ty kind) := by
  refine always_guard ((always_computeValue hcall).bind fun v => ?_)
  exact always_checkComputed.bind fun _ => Always.modify fun _ hs => hs

theorem always_execStore {slot value : ValueId} {mode : OwnershipMode} :
    Always (FrameHolding base depth) (execStore m slot value mode) := by
  refine Always.get.bind fun _ => (Always.ask _).bind fun incoming => ?_
  refine Always.get.bind fun _ => (Always.ask _).bind fun planned => ?_
  obtain ⟨installed, plan⟩ := planned
  refine Always.get.bind fun _ => Always.get.bind fun _ => (Always.ask _).bind fun _ => ?_
  refine Always.bind ?_ fun _ => Always.modify fun _ hs => hs
  cases installed with
  | some rebuilt => exact (quiet_commit plan).onTable.bind fun _ => .pure _
  | none => exact Always.get.bind fun _ => Always.ask _

theorem always_execDrop {value : ValueId} :
    Always (FrameHolding base depth) (execDrop m value) := by
  refine Always.get.bind fun _ => (Always.ask _).bind fun v => ?_
  refine Always.bind ?_ fun _ => Always.modify fun _ hs => hs
  cases v with
  | resource handle => exact (quiet_dropValue _).onTable
  | record | «variant» =>
    exact (Always.ask _).bind fun _ => Always.ite (quiet_dropValue _).onTable (Always.throw _)
  | _ => exact Always.throw _

theorem always_storePlace {loadOrigin : LoadOrigin} {place : Place ValueId} {source : ValueId} :
    Always (FrameHolding base depth) (storePlaceTransfer m loadOrigin place source) := by
  refine (storePlaceTransfer_atomic place source).always fun s v s' hs h => ?_
  obtain ⟨_, _, _, plan, _, t, _, _, -, -, -, -, -, htarget, -, -, -, hvalid, hcommit, rfl⟩ :=
    storePlaceTransfer_eq_ok h
  have hne : place.projections ≠ [] := by
    intro hnil
    rw [hnil] at htarget
    exact absurd htarget Except.throw_ne_ok
  obtain ⟨_, -, hrw⟩ := commitStore_rewrites hne hvalid hcommit
  have htable : Holding base (s.activeLeases.map (·.2)) depth (s.interpreter.withTable t) :=
    Holding.withTable hs hrw.leases.1 hrw.leases.2
  exact htable.commit plan

theorem always_decomposeVariant {loadOrigin : LoadOrigin} {value : ValueId} {variant : ItemId}
    {case : ℕ} {taken : List (ℕ × ValueId)} :
    Always (FrameHolding base depth) (decomposeVariant m loadOrigin value variant case taken) := by
  refine (decomposeVariant_atomic value variant case taken).always fun s v s' hs h => ?_
  obtain ⟨_, _, -, -, -, -, rfl⟩ := decomposeVariant_eq_ok h
  exact hs

theorem always_execInstruction (hcall : Disciplined call) (instruction : Instruction) :
    Always (FrameHolding base depth) (execInstruction m fpu call ctx instruction) := by
  cases instruction with
  | value result ty kind => exact always_execValue hcall
  | endObserve observation => exact always_endObserve.adaptExcept
  | decomposeVariant value variant case taken => exact always_decomposeVariant.adaptExcept
  | store slot value mode => exact always_execStore.adaptExcept
  | drop value => exact always_execDrop.adaptExcept
  | storePlace place value => exact always_storePlace.adaptExcept

theorem FrameHolding.exit {v : Value} {s' : FrameState} (hs : FrameHolding base depth s)
    (h : ExitEffect m ctx s v s') : FrameHolding base depth s' := by
  cases h with
  | nothing => exact hs
  | value => exact Holding.commit hs _

theorem always_refuseOpenObservation :
    Always (FrameHolding base depth) refuseOpenObservation := by
  refine Always.get.bind fun _ => ?_
  split
  · exact Always.throw _
  · exact .pure _

theorem always_execInvoke (hcall : Disciplined call) {callee : ItemId} {typeArgs : List Ty}
    {args : List ValueId} {evidence : List Evidence} {okSlot : ValueId} {okTarget : BlockId}
    {errTargets : List InvokeErrTarget} : Always (FrameHolding base depth)
      (execInvoke m call ctx callee typeArgs args evidence okSlot okTarget errTargets) := by
  refine Always.get.bind fun _ => Always.get.bind fun _ => (always_ask _).bind fun request => ?_
  refine (always_inInterpreter fun own => hcall base own depth request).bind fun outcome => ?_
  refine (always_ask _).bind fun resumed => ?_
  obtain ⟨slot, value, target⟩ := resumed
  refine Always.bind (Always.modify fun _ hs => hs) fun _ => ?_
  exact .pure _

theorem always_execTerminator (hcall : Disciplined call) (terminator : Terminator) :
    Always (FrameHolding base depth) (execTerminator m call ctx terminator) := by
  cases terminator with
  | ret id =>
    refine always_refuseOpenObservation.adaptExcept.bind fun _ => ?_
    refine Always.bind (Always.adaptExcept ?_) fun _ => .pure _
    exact (exitReturn_atomic id).always fun s v s' hs h => hs.exit (exitReturn_effect h)
  | raise id =>
    refine always_refuseOpenObservation.adaptExcept.bind fun _ => ?_
    refine Always.bind (Always.adaptExcept ?_) fun _ => .pure _
    exact (exitRaise_atomic id).always fun s v s' hs h => hs.exit (exitRaise_effect h)
  | branch target => exact .pure _
  | condBranch condition thenBlock elseBlock =>
    refine Always.get.bind fun _ => (always_ask _).bind fun _ => ?_
    exact (always_ask _).bind fun _ => .pure _
  | switch scrutinee variant cases =>
    refine Always.get.bind fun _ => (always_ask _).bind fun _ => ?_
    exact (always_ask _).bind fun _ => .pure _
  | invoke callee typeArgs args evidence okSlot okTarget errTargets => exact always_execInvoke hcall

theorem always_runBlocks (hcall : Disciplined call) (n : ℕ) (id : BlockId) :
    Always (FrameHolding base depth) (runBlocks m fpu call ctx n id) := by
  induction n generalizing id with
  | zero => exact Always.throw _
  | succ n ih =>
    unfold runBlocks
    split
    · exact always_fail _
    · rename_i block _
      have hblock : Always (FrameHolding base depth) (execBlock m fpu call ctx block) :=
        (Always.forM fun instruction _ => always_execInstruction hcall instruction).bind
          fun _ => always_execTerminator hcall block.terminator
      refine hblock.bind fun next => ?_
      cases next with
      | goto next => exact ih next
      | exit outcome => exact .pure _

theorem ExitEffect.activeLeases {v : Value} {s' : FrameState} (h : ExitEffect m ctx s v s') :
    s'.activeLeases = s.activeLeases := by
  cases h with
  | nothing => rfl
  | value => rfl

theorem exit_activeLeases {terminator : Terminator} {outcome : Outcome} {s' : FrameState}
    (h : execTerminator m call ctx terminator s = .ok (.exit outcome) s') :
    s'.activeLeases = [] := by
  cases execTerminator_effect h with
  | ret hnil hv => exact hv.activeLeases.trans hnil
  | raise hnil hv => exact hv.activeLeases.trans hnil

theorem runBlocks_activeLeases {n : ℕ} {id : BlockId} {outcome : Outcome} {s' : FrameState}
    (h : runBlocks m fpu call ctx n id s = .ok outcome s') : s'.activeLeases = [] := by
  induction n generalizing id s with
  | zero => exact absurd h throw_ne_ok
  | succ n ih =>
    unfold runBlocks at h
    cases hfind : ctx.function.findBlock id with
    | none =>
      simp only [hfind] at h
      exact absurd h fail_ne_ok
    | some block =>
      simp only [hfind] at h
      obtain ⟨next, u, hblock, h⟩ := bind_eq_ok.mp h
      obtain ⟨⟨⟩, w, -, hterm⟩ := bind_eq_ok.mp hblock
      cases next with
      | goto next => exact ih h
      | exit o =>
        obtain ⟨-, rfl⟩ := pure_eq_ok.mp h
        exact exit_activeLeases hterm

/-! ### Calls -/

theorem always_bindParameters {request : CallRequest} :
    Always (Holding base own depth) (bindParameters m request) := by
  refine (bindParameters_atomic request).always fun i r i' hi h => ?_
  obtain ⟨ctx, values⟩ := r
  obtain ⟨_, _, planned, -, -, -, -, -, rfl⟩ := bindParameters_eq_ok h
  exact hi.commit planned.plan

theorem callFunctionInFrame_holding (hcall : Disciplined call) {n : ℕ} {request : CallRequest}
    (hi : Holding base [] depth i) :
    (∃ own, Holding base own depth (callFunctionInFrame m fpu n call request i).left) ∧
    ∀ outcome i', callFunctionInFrame m fpu n call request i = .ok outcome i' →
      Holding base [] depth i' := by
  have hbound : Holding base [] depth (perform (bindParameters m request) i).left :=
    always_bindParameters.adaptExcept i hi
  unfold callFunctionInFrame
  rw [bind_apply]
  cases hbind : perform (bindParameters m request) i with
  | error e i' =>
    rw [hbind] at hbound
    exact ⟨⟨[], hbound⟩, fun outcome i' h => by cases h⟩
  | ok r i' =>
    rw [hbind] at hbound
    obtain ⟨ctx, values⟩ := r
    have hframe : FrameHolding base depth (runBlocks m fpu call ctx n ⟨0⟩ ⟨i', values, []⟩).left :=
      always_runBlocks hcall n ⟨0⟩ ⟨i', values, []⟩ hbound
    dsimp only
    cases hrun : runBlocks m fpu call ctx n ⟨0⟩ ⟨i', values, []⟩ with
    | error e s =>
      rw [hrun] at hframe
      exact ⟨⟨_, hframe⟩, fun outcome i' h => by cases h⟩
    | ok o s =>
      rw [hrun] at hframe
      refine ⟨⟨_, hframe⟩, fun outcome i' h => ?_⟩
      cases h
      have hnil := runBlocks_activeLeases hrun
      change Holding base (s.activeLeases.map (·.2)) depth s.interpreter at hframe
      rwa [hnil] at hframe

theorem Holding.leave {i' : InterpreterState} (h : Holding base own depth i)
    (h' : Holding i.resources [] (i.callDepth + 1) i') : Holding base own depth i'.leave where
  stacked := h.stacked.trans h'.stacked
  depth := by
    change i'.callDepth - 1 = depth
    rw [h'.depth, Nat.add_sub_cancel, h.depth]

theorem callFunction_disciplined (n : ℕ) : Disciplined (callFunction m fpu n) := by
  induction n with
  | zero => exact fun _ _ _ _ => Always.throw _
  | succ n ih =>
    intro base own depth request
    refine Always.get.bind fun _ => always_guard fun i hi => ?_
    have henter : Holding i.resources [] (i.callDepth + 1) i.enter :=
      ⟨.refl hi.stacked.order, rfl⟩
    obtain ⟨hleft, hok⟩ := @callFunctionInFrame_holding m fpu _ _ _ _ ih n request henter
    dsimp only
    cases hrun : callFunctionInFrame m fpu n (callFunction m fpu n) request i.enter with
    | ok outcome i' => exact hi.leave (hok outcome i' hrun)
    | error e i' =>
      rw [hrun] at hleft
      obtain ⟨own', hown⟩ := hleft
      exact hi.leave ⟨hown.stacked.abandon hi.stacked.order, hown.depth⟩

end Operations

/-! ### Runs -/

section Runs
variable {m : Module} {fpu : FloatUnit} {i : InterpreterState} {request : CallRequest}
  {p : Point}

theorem Reached.holding (h : Reached m fpu request i p) (hi : LeaseOrder i.resources) :
    ∃ base depth, FrameHolding base depth p.state := by
  induction h with
  | @enter request i i' ctx values block _ hbind _ =>
    have henter : Holding i.resources [] (i.callDepth + 1) i.enter := ⟨.refl hi, rfl⟩
    have hbound : Holding i.resources [] (i.callDepth + 1)
        (bindParameters m request i.enter).left := always_bindParameters i.enter henter
    rw [hbind] at hbound
    exact ⟨_, _, hbound⟩
  | @instruction request i n ctx st st' instruction rest terminator _ h ih =>
    obtain ⟨base, depth, hst⟩ := ih hi
    have hleft : FrameHolding base depth
        (execInstruction m fpu (callFunction m fpu n) ctx instruction st).left :=
      always_execInstruction (callFunction_disciplined n) instruction st hst
    rw [h] at hleft
    exact ⟨base, depth, hleft⟩
  | @jump request i n ctx st st' terminator next block _ h _ ih =>
    obtain ⟨base, depth, hst⟩ := ih hi
    have hleft : FrameHolding base depth
        (execTerminator m (callFunction m fpu n) ctx terminator st).left :=
      always_execTerminator (callFunction_disciplined n) terminator st hst
    rw [h] at hleft
    exact ⟨base, depth, hleft⟩
  | call _ _ _ ihp ihq =>
    obtain ⟨_, _, hst⟩ := ihp hi
    exact ihq hst.stacked.order

/-- A state an interpreter is in between calls, however each of them ended. -/
inductive Used (m : Module) (fpu : FloatUnit) : InterpreterState → Prop
  | fresh : Used m fpu {}
  | call {i : InterpreterState} (n : ℕ) (request : CallRequest) : Used m fpu i →
      Used m fpu (callFunction m fpu n request i).left

theorem Used.leaseOrder (h : Used m fpu i) : LeaseOrder i.resources := by
  induction h with
  | fresh => exact leaseOrder_empty
  | call n request _ ih => exact (callFunction_disciplined n _ _ _ request _ ⟨.refl ih, rfl⟩).stacked.order

/-- The depth budget and the open leases are those of another state. -/
structure GivenBack (i i' : InterpreterState) : Prop where
  depth : i'.callDepth = i.callDepth
  active : i'.resources.active = i.resources.active
  open_iff : ∀ id lease, i'.resources.Holds id lease ↔ i.resources.Holds id lease

theorem callFunction_givenBack (hi : LeaseOrder i.resources) (n : ℕ) (request : CallRequest) :
    GivenBack i (callFunction m fpu n request i).left := by
  have hleft : Holding i.resources [] i.callDepth (callFunction m fpu n request i).left :=
    callFunction_disciplined n _ _ _ request i ⟨.refl hi, rfl⟩
  refine ⟨hleft.depth, ?_, fun id lease => hleft.stacked.holds hi⟩
  rw [hleft.stacked.active, List.append_nil]

/-- On one interpreter, whatever has been called on it and however those calls ended: the
active list names the open leases in ascending order and parents are older than what was
opened inside them, between calls, at every point of every frame, and in what any step
leaves, completed or failed; and a call, made from outside or by a frame at any point of its
run, whether it returns, raises or fails, gives back its depth and leaves the leases open that
were open before. -/
theorem lease_discipline (h : Used m fpu i) :
    LeaseOrder i.resources ∧
    (∀ request p, Reached m fpu request i p → LeaseOrder p.state.resources ∧ ∀ n,
      (∀ instruction, LeaseOrder
        (execInstruction m fpu (callFunction m fpu n) p.ctx instruction p.state).left.resources) ∧
      (∀ terminator, LeaseOrder
        (execTerminator m (callFunction m fpu n) p.ctx terminator p.state).left.resources) ∧
      ∀ nested, GivenBack p.state.interpreter
        (callFunction m fpu n nested p.state.interpreter).left) ∧
    ∀ n request, GivenBack i (callFunction m fpu n request i).left := by
  refine ⟨h.leaseOrder, fun request p hp => ?_, fun n request =>
    callFunction_givenBack h.leaseOrder n request⟩
  obtain ⟨base, depth, hst⟩ := hp.holding h.leaseOrder
  refine ⟨hst.stacked.order, fun n => ⟨fun instruction => ?_, fun terminator => ?_,
    fun nested => callFunction_givenBack hst.stacked.order n nested⟩⟩
  · have hleft : FrameHolding base depth
        (execInstruction m fpu (callFunction m fpu n) p.ctx instruction p.state).left :=
      always_execInstruction (callFunction_disciplined n) instruction p.state hst
    exact hleft.stacked.order
  · have hleft : FrameHolding base depth
        (execTerminator m (callFunction m fpu n) p.ctx terminator p.state).left :=
      always_execTerminator (callFunction_disciplined n) terminator p.state hst
    exact hleft.stacked.order

/-- A frame that fails while it observes a file: the value it loads was never computed. -/
def loadMissing : Instruction := .value ⟨3⟩ .i64 (.load ⟨9⟩)

theorem lease_discipline_failed : ∃ e i',
    callFunction (fileModule loadMissing) idleUnit 2 ⟨fileFunction loadMissing, [], [], []⟩ {} =
      .error e i' ∧
    i'.resources.leases = [⟨⟨0⟩, .ended, [⟨0⟩], none⟩] ∧ LeaseOrder i'.resources ∧
    GivenBack {} i' := by
  have hused : Used (fileModule loadMissing) idleUnit {} := .fresh
  have hcall := (lease_discipline hused).2.2 2 ⟨fileFunction loadMissing, [], [], []⟩
  have hafter := (lease_discipline (hused.call 2 ⟨fileFunction loadMissing, [], [], []⟩)).1
  exact ⟨_, _, rfl, rfl, hafter, hcall⟩

end Runs

end Napitia.Interpreter
