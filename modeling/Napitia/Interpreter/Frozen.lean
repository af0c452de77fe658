import Napitia.Interpreter.Leases

/-!
# Reading through a lease

What a program can read through a view of a lease, that it reads the same for as
long as the lease is open and nothing once it has ended, and that what it reads
is a view of the same lease again.
-/
namespace Napitia.Interpreter
open Nir EStateM ResourceTable

/-- A read of a program through a handle: a field selected out of it, or a place
projected out of it. -/
inductive ViewRead where
  | field (record : ItemId) (index : ℕ)
  | place (projections : List Projection)

def ViewRead.run (t : ResourceTable) (h : ResourceHandle) :
    ViewRead → Except InterpreterError Value
  | .field record index => readField t record index (.resource h)
  | .place projections => do
    toObserverIfResource t (← observeProjections t (.resource h) projections)

/-- A handle minted under the lease for a resource the lease holds. -/
def IsView (id : RuntimeObservationId) (lease : RuntimeObservation) (h : ResourceHandle) : Prop :=
  h.role = .observer ∧ h.lease = some id ∧ h.id ∈ lease.observed

/-- The lease has ended in this table. -/
def ResourceTable.Ended (t : ResourceTable) (id : RuntimeObservationId) : Prop :=
  ∃ lease, t.leases[id.index]? = some lease ∧ lease.status = .ended

section Reads
variable {t t' : ResourceTable} {id : RuntimeObservationId} {lease : RuntimeObservation}
  {h : ResourceHandle}

theorem observe_free_congr (hfree : h.lease = none)
    (hsame : t'.records[h.id.index]? = t.records[h.id.index]?) : t'.observe h = t.observe h := by
  simp only [observe, record, checkLease, currentRecord, hfree, hsame]

theorem observe_view_congr (hl : t.Holds id lease) (hl' : t'.Holds id lease)
    (hsame : ∀ r ∈ lease.observed, t'.records[r.index]? = t.records[r.index]?)
    (hv : IsView id lease h) : t'.observe h = t.observe h := by
  obtain ⟨-, hlease, hmem⟩ := hv
  simp only [observe, record, checkLease, currentRecord, ResourceTable.lease, hlease, hl.1, hl'.1,
    hsame h.id hmem]

/-- What an open lease holds stores handles that no lease binds, to resources the
lease holds as well. -/
theorem LeaseInv.field (inv : LeaseInv t) (hl : t.Holds id lease) {resource : ResourceId}
    {r : ResourceRecord} {f : Value} {k : ResourceHandle} (hmem : resource ∈ lease.observed)
    (hr : t.records[resource.index]? = some r) (hf : f ∈ r.fields) (hk : k ∈ f.handles) :
    k.lease = none ∧ k.id ∈ lease.observed := by
  obtain ⟨r', hr', -, hfields⟩ := inv.intact id lease hl resource hmem
  obtain rfl := Option.some.inj (hr.symm.trans hr')
  exact ⟨inv.stored r (List.mem_of_getElem? hr) f hf k hk, (hfields f hf).2 k hk⟩

theorem selectField_resource {t : ResourceTable} {record : ItemId} {index : ℕ}
    {h : ResourceHandle} {f : Value} (hsel : selectField t record index (.resource h) = .ok f) :
    ∃ r, t.observe h = .ok r ∧ r.fields[index]? = some f := by
  unfold selectField at hsel
  obtain ⟨r, hr, hsel⟩ := Except.bind_eq_ok.mp hsel
  refine ⟨r, hr, ?_⟩
  obtain ⟨-, hsel⟩ := Except.guard_eq_ok.mp hsel
  cases hf : r.fields[index]? with
  | none => simp [hf, Except.throw_ne_ok] at hsel
  | some f' =>
    simp only [hf] at hsel
    rw [Except.pure_eq_ok.mp hsel]

theorem toObserver_mem {t : ResourceTable} {v w : Value} (h : toObserverIfResource t v = .ok w)
    {k : ResourceHandle} (hk : k ∈ w.handles) : ∃ k' ∈ v.handles, k = k'.viewed none := by
  unfold toObserverIfResource at h
  rw [toObservingView_eq] at h
  exact observingView_mem h hk

section Frozen
variable (inv : LeaseInv t) (hl : t.Holds id lease) (hl' : t'.Holds id lease)
  (hsame : ∀ r ∈ lease.observed, t'.records[r.index]? = t.records[r.index]?)
include inv hl

theorem observeField_views (hv : IsView id lease h) {index : ℕ} {v : Value}
    (hread : t.observeField h index = .ok v) : ∀ k ∈ v.handles, IsView id lease k := by
  unfold observeField at hread
  obtain ⟨r, hr, hread⟩ := Except.bind_eq_ok.mp hread
  cases hf : r.fields[index]? with
  | none => simp [hf, Except.throw_ne_ok] at hread
  | some f =>
    simp only [hf, hv.1, hv.2.1] at hread
    intro k hk
    obtain ⟨k', hk', rfl⟩ := observingView_mem hread hk
    have hfield := inv.field hl hv.2.2 (observe_record hr) (List.mem_of_getElem? hf) hk'
    exact ⟨rfl, rfl, hfield.2⟩

theorem observeProjections_views {v w : Value} {projections : List Projection}
    (hv : ∀ k ∈ v.handles, IsView id lease k)
    (hread : observeProjections t v projections = .ok w) : ∀ k ∈ w.handles, IsView id lease k := by
  induction projections generalizing v with
  | nil =>
    obtain rfl := Except.pure_eq_ok.mp (by simpa [observeProjections] using hread)
    exact hv
  | cons first rest ih =>
    unfold observeProjections at hread
    obtain ⟨index, -, hread⟩ := Except.bind_eq_ok.mp hread
    cases v with
    | resource handle =>
      obtain ⟨inner, hinner, hread⟩ := Except.bind_eq_ok.mp hread
      exact ih (observeField_views inv hl (hv handle (by simp)) hinner) hread
    | record item typeArgs fields =>
      dsimp only at hread
      cases hf : fields[index]? with
      | none => simp [hf, Except.throw_ne_ok] at hread
      | some slot =>
        simp only [hf] at hread
        exact ih (fun k hk => hv k (mem_handles_record.mpr ⟨slot, List.mem_of_getElem? hf, hk⟩))
          hread
    | _ => exact absurd hread Except.throw_ne_ok

include hsame

theorem stored_congr {resource : ResourceId} {r : ResourceRecord} {f : Value}
    {lease' : Option RuntimeObservationId} {n : ℕ} (hmem : resource ∈ lease.observed)
    (hr : t.records[resource.index]? = some r) (hf : f ∈ r.fields) :
    t'.observingView lease' n f = t.observingView lease' n f := by
  refine observingView_congr fun k hk => ?_
  obtain ⟨hfree, hid⟩ := inv.field hl hmem hr hf hk
  exact observe_free_congr hfree (hsame k.id hid)

include hl'

theorem observeField_congr (hv : IsView id lease h) (index : ℕ) :
    t'.observeField h index = t.observeField h index := by
  unfold observeField
  rw [observe_view_congr hl hl' hsame hv]
  refine Except.bind_congr fun r hr => ?_
  rw [hv.1]
  cases hf : r.fields[index]? with
  | none => simp only
  | some f =>
    simp only
    rw [stored_congr inv hl hsame hv.2.2 (observe_record hr) (List.mem_of_getElem? hf)]

theorem observeProjections_congr {v : Value} (projections : List Projection)
    (hv : ∀ k ∈ v.handles, IsView id lease k) :
    observeProjections t' v projections = observeProjections t v projections := by
  induction projections generalizing v with
  | nil => simp only [observeProjections]
  | cons first rest ih =>
    unfold observeProjections
    refine Except.bind_congr fun index _ => ?_
    cases v with
    | resource handle =>
      have hhandle := hv handle (by simp)
      simp only
      rw [observeField_congr inv hl hl' hsame hhandle index]
      exact Except.bind_congr fun inner hinner => ih (observeField_views inv hl hhandle hinner)
    | record item typeArgs fields =>
      simp only
      cases hf : fields[index]? with
      | none => simp only
      | some slot =>
        exact ih fun k hk => hv k (mem_handles_record.mpr ⟨slot, List.mem_of_getElem? hf, hk⟩)
    | _ => simp only

theorem ViewRead.run_congr (hv : IsView id lease h) (read : ViewRead) :
    read.run t' h = read.run t h := by
  cases read with
  | field item index =>
    have hsel : selectField t' item index (.resource h) = selectField t item index (.resource h) := by
      simp only [selectField, observe_view_congr hl hl' hsame hv]
    simp only [ViewRead.run, readField, hsel]
    refine Except.bind_congr fun f hf => ?_
    obtain ⟨r, hr, hf⟩ := selectField_resource hf
    unfold toObserverIfResource
    rw [toObservingView_eq, toObservingView_eq]
    exact stored_congr inv hl hsame hv.2.2 (observe_record hr) (List.mem_of_getElem? hf)
  | place projections =>
    have hroot : ∀ k ∈ (Value.resource h).handles, IsView id lease k := by
      intro k hk
      rw [handles_resource, List.mem_singleton] at hk
      exact hk ▸ hv
    simp only [ViewRead.run]
    rw [observeProjections_congr inv hl hl' hsame projections hroot]
    refine Except.bind_congr fun v hread => ?_
    unfold toObserverIfResource
    rw [toObservingView_eq, toObservingView_eq]
    exact observingView_congr fun k hk => observe_view_congr hl hl' hsame
      (observeProjections_views inv hl hroot hread k hk)

end Frozen

theorem ViewRead.run_refused (hended : t.Ended id) (hlease : h.lease = some id)
    (read : ViewRead) : ∃ e, read.run t h = .error e := by
  obtain ⟨l, hl, hstatus⟩ := hended
  have hobserve : ∃ e, t.observe h = .error e := by
    simp [observe, record, checkLease, hlease, ResourceTable.lease, hl, hstatus, bind, Except.bind,
      throw, throwThe, MonadExceptOf.throw]
  obtain ⟨e, he⟩ := hobserve
  cases read with
  | field item index =>
    exact ⟨e, by simp [ViewRead.run, readField, selectField, he, bind, Except.bind]⟩
  | place projections =>
    cases projections with
    | nil =>
      exact ⟨e, by simp [ViewRead.run, observeProjections, toObserverIfResource, toObservingView,
        Limits.maxGenericDepth, toObserver, he, bind, Except.bind, pure, Except.pure]⟩
    | cons first rest =>
      cases hindex : projectionIndex first with
      | error e' => exact ⟨e', by simp [ViewRead.run, observeProjections, hindex, bind, Except.bind]⟩
      | ok index =>
        exact ⟨e, by simp [ViewRead.run, observeProjections, hindex, observeField, he, bind,
          Except.bind]⟩

end Reads

section Runs
variable {m : Module} {fpu : FloatUnit} {s s' : FrameState}

theorem LeaseStep.frozen (h : LeaseStep s s') {id : RuntimeObservationId}
    {lease : RuntimeObservation} (hl : s.resources.Holds id lease) :
    (∀ r ∈ lease.observed, s'.resources.records[r.index]? = s.resources.records[r.index]?) ∧
      (s'.resources.Holds id lease ∨ s'.resources.Ended id) := by
  cases h with
  | same hsame _ =>
    exact ⟨fun r hr => hsame.frozen r ⟨id, lease, hl, hr⟩, .inl (hsame.holds hl)⟩
  | opened hactive _ ht _ =>
    rw [ht]
    exact ⟨fun _ _ => rfl, .inl ((opened_holds hactive).mpr (.inl hl))⟩
  | @closed _ id' _ ht =>
    rw [ht]
    refine ⟨fun _ _ => rfl, ?_⟩
    by_cases heq : id = id'
    · refine .inr ⟨{ lease with status := .ended }, ?_, rfl⟩
      rw [closed_leases, if_pos (by rw [heq]), hl.1]
      rfl
    · exact .inl (closed_holds.mpr ⟨hl, heq⟩)

theorem LeaseStep.ended (h : LeaseStep s s') {id : RuntimeObservationId}
    (hended : s.resources.Ended id) : s'.resources.Ended id := by
  obtain ⟨l, hl, hstatus⟩ := hended
  have hlt := (List.getElem?_eq_some_iff.mp hl).choose
  cases h with
  | same hsame _ => exact ⟨l, (hsame.older _ hlt).trans hl, hstatus⟩
  | opened _ _ ht _ =>
    rw [ht]
    exact ⟨l, (List.getElem?_append_left hlt).trans hl, hstatus⟩
  | @closed _ id' _ ht =>
    rw [ht]
    unfold Ended
    rw [closed_leases, hl]
    split
    · exact ⟨_, rfl, rfl⟩
    · exact ⟨l, rfl, hstatus⟩

/-- A state an interpreter is in between its calls: fresh, or left by a call of
which every step met the condition. -/
inductive Session (m : Module) (fpu : FloatUnit) (P : Point → Prop) : InterpreterState → Prop
  | fresh : Session m fpu P {}
  | call {s s' : InterpreterState} {n : ℕ} {request : CallRequest} {outcome : Outcome} :
      Session m fpu P s → Meets m fpu P request s →
      callFunction m fpu n request s = .ok outcome s' → Session m fpu P s'

theorem Session.leaseInv {i : InterpreterState} (h : Session m fpu TakeGuard i) :
    LeaseInv i.resources := by
  induction h with
  | fresh => exact leaseInv_empty
  | call _ hmeets hcall ih => exact Since.inv (leaseRule.call hmeets ih hcall)

theorem leaseStep_of_reached {request : CallRequest} {i : InterpreterState} {p : Point}
    (hsession : Session m fpu TakeGuard i) (hmeets : Meets m fpu TakeGuard request i)
    (hp : Reached m fpu request i p) (hstep : Steps m fpu p s') :
    LeaseInv p.state.resources ∧ LeaseStep p.state s' := by
  have hJ := leaseRule.reached hmeets hsession.leaseInv hp
  have inv : LeaseInv p.state.resources := by
    obtain ⟨_, _, hsince⟩ := hJ
    exact hsince.inv
  refine ⟨inv, ?_⟩
  have hguard := hmeets p s' hp hstep
  cases hstep with
  | instruction h => exact leaseStep_instruction inv hguard (leaseRule.guarantees hmeets hp hJ) h
  | @terminator n ctx s s' terminator next h =>
    cases next with
    | goto target => exact leaseStep_jump inv (leaseRule.guarantees hmeets hp hJ) h
    | exit outcome => exact (leaseStep_exit inv h).1

/-- The next instruction of a point reads through a handle of the frame, into
the value it names `result`. -/
inductive ReadsThrough (p : Point) (h : ResourceHandle) : ValueId → Prop
  | field {result base : ValueId} {ty : Ty} {record : ItemId} {index : ℕ}
      {rest : List Instruction} :
      p.instructions = .value result ty (.recordField base record index) :: rest →
      p.state.values.read base = .ok (.resource h) → ReadsThrough p h result
  | place {result : ValueId} {ty : Ty} {place : Place ValueId} {rest : List Instruction} :
      p.instructions = .value result ty (.placeRead place .observe) :: rest →
      p.state.values.read (canonicalRoot p.ctx.loadOrigin place.root) = .ok (.resource h) →
      ReadsThrough p h result

theorem readsThrough_views {p : Point} {id : RuntimeObservationId} {lease : RuntimeObservation}
    {h : ResourceHandle} {result : ValueId} (inv : LeaseInv p.state.resources)
    (hl : p.state.resources.Holds id lease) (hv : IsView id lease h) (hguard : SelectGuard p)
    (hread : ReadsThrough p h result) (hstep : Steps m fpu p s') :
    ∃ v, s'.values.lookup result = some v ∧ ∀ k ∈ v.handles, IsView id lease k := by
  have hinsert : ∀ {u : FrameState} {w : Value}, (∀ k ∈ w.handles, IsView id lease k) →
      ∃ v, (u.insert result w).values.lookup result = some v ∧ ∀ k ∈ v.handles, IsView id lease k :=
    fun hw => ⟨_, AList.lookup_insert _, hw⟩
  cases hread with
  | field hinstr hbase =>
    obtain ⟨ctx, st, instructions, terminator⟩ := p
    dsimp only at hinstr
    subst hinstr
    cases hstep with
    | instruction hexec =>
      obtain ⟨v, u, heffect, -, rfl⟩ := execValue_eq_ok hexec
      refine hinsert fun k hk => ?_
      cases heffect with
      | eval heval =>
        cases heval with
        | scalar hnone => simp [hnone] at hk
        | move hkind => rcases hkind with hkind | hkind <;> cases hkind
        | recordField hfield =>
          obtain ⟨w, hw, hfield⟩ := Except.bind_eq_ok.mp hfield
          obtain rfl := Except.ok.inj (hbase.symm.trans hw)
          obtain ⟨f, hf, hview⟩ := Except.bind_eq_ok.mp hfield
          obtain ⟨r, hr, hf⟩ := selectField_resource hf
          obtain ⟨k', hk', -⟩ := toObserver_mem hview hk
          have hnone := hguard h r f hbase (by simp [hv.2.1]) hr hf
          simp [hnone] at hk'
  | place hinstr hroot =>
    obtain ⟨ctx, st, instructions, terminator⟩ := p
    dsimp only at hinstr
    subst hinstr
    cases hstep with
    | instruction hexec =>
      obtain ⟨v, u, heffect, -, rfl⟩ := execValue_eq_ok hexec
      refine hinsert fun k hk => ?_
      cases heffect with
      | placeRead haccess =>
        obtain ⟨root, seen, hroot', hseen, hview, -⟩ := accessPlace_observe_eq_ok.mp haccess
        obtain rfl := Except.ok.inj (hroot.symm.trans hroot')
        obtain ⟨k', hk', rfl⟩ := toObserver_mem hview hk
        have hk' := observeProjections_views inv hl (by simpa using hv) hseen k' hk'
        exact ⟨rfl, hk'.2.1, hk'.2.2⟩
      | eval heval =>
        cases heval with
        | scalar hnone => simp [hnone] at hk
        | move hkind => rcases hkind with hkind | hkind <;> cases hkind

/-- In a run of which no step takes out of the storage of a leased resource, no step
changes anything about a resource an open lease holds. A read through a view of the
lease gives the same result after the step, unless the step ended the lease, and
what is read is a view of the lease again, unless it is a stored handle that the step
selects. A lease that has ended stays ended, and every read through a view of it is
refused. -/
theorem leases_freeze_observed {request : CallRequest} {i : InterpreterState} {p : Point}
    (hsession : Session m fpu TakeGuard i) (hmeets : Meets m fpu TakeGuard request i)
    (hp : Reached m fpu request i p) (hstep : Steps m fpu p s') (id : RuntimeObservationId) :
    (∀ lease, p.state.resources.Holds id lease →
      (∀ r ∈ lease.observed,
        s'.resources.records[r.index]? = p.state.resources.records[r.index]?) ∧
      ((s'.resources.Holds id lease ∧ ∀ h, IsView id lease h → ∀ read : ViewRead,
          read.run s'.resources h = read.run p.state.resources h) ∨
        s'.resources.Ended id) ∧
      (SelectGuard p → ∀ h, IsView id lease h → ∀ result, ReadsThrough p h result →
        ∃ v, s'.values.lookup result = some v ∧ ∀ k ∈ v.handles, IsView id lease k)) ∧
    (p.state.resources.Ended id → s'.resources.Ended id) ∧
    (s'.resources.Ended id → ∀ h : ResourceHandle, h.lease = some id → ∀ read : ViewRead,
      ∃ e, read.run s'.resources h = .error e) := by
  obtain ⟨inv, hlease⟩ := leaseStep_of_reached hsession hmeets hp hstep
  refine ⟨fun lease hl => ?_, hlease.ended, fun hended h => ViewRead.run_refused hended⟩
  obtain ⟨hsame, hstill⟩ := hlease.frozen hl
  refine ⟨hsame, ?_, fun hguard h hv result hread =>
    readsThrough_views inv hl hv hguard hread hstep⟩
  rcases hstill with hl' | hended
  · exact .inl ⟨hl', fun h hv read => ViewRead.run_congr inv hl hl' hsame hv read⟩
  · exact .inr hended

def observeFile : List Instruction :=
  [.value ⟨0⟩ .i64 (.const (.int 3)),
    .value ⟨1⟩ (.named ⟨1⟩) (.recordCreate ⟨1⟩ [] [⟨0⟩]),
    .value ⟨2⟩ (.named ⟨1⟩) (.observePlace ⟨0⟩ ⟨⟨1⟩, []⟩)]

/-- A `main` that opens a file, observes it and goes on with one instruction. -/
def fileFunction (next : Instruction) : Function :=
  ⟨⟨0⟩, ⟨0⟩, [], [], [], .unit, [], [⟨⟨0⟩, observeFile ++ [next], .ret none⟩]⟩

def fileModule (next : Instruction) : Module :=
  { functions := [fileFunction next]
    records := [(⟨1⟩, ⟨⟨1⟩, [], [(⟨2⟩, .i64)], true⟩)] }

/-- The frame of `main` while the file is observed. -/
def fileObserved (descriptor : Value) : FrameState :=
  ⟨{ resources :=
      { records := [⟨⟨1⟩, 0, .alive, [descriptor]⟩]
        leases := [⟨⟨0⟩, .active, [⟨0⟩], none⟩]
        active := [⟨0⟩] }
     callDepth := 1 },
    ((AList.insert ⟨0⟩ (.int 3) ∅ : Values).insert ⟨1⟩ (.resource ⟨⟨0⟩, 0, .owner, none⟩)).insert
      ⟨2⟩ (.resource ⟨⟨0⟩, 0, .observer, some ⟨0⟩⟩),
    [(⟨0⟩, ⟨0⟩)]⟩

def filePoint (next : Instruction) : Point :=
  ⟨⟨fileFunction next, [], ∅, [], ∅⟩, fileObserved (.int 3), [next], .ret none⟩

def nextConst : Instruction := .value ⟨3⟩ .i64 (.const (.int 4))

def takeDescriptor : Instruction :=
  .value ⟨3⟩ .i64 (.placeRead ⟨⟨1⟩, [.field ⟨1⟩ ⟨0⟩]⟩ .transfer)

theorem filePoint_reached {next : Instruction}
    (hload : loadOriginOf (fileFunction next) = ∅) :
    Reached (fileModule next) idleUnit ⟨fileFunction next, [], [], []⟩ {} (filePoint next) := by
  have hbind : bindParameters (fileModule next) ⟨fileFunction next, [], [], []⟩
      (InterpreterState.enter {}) =
        .ok (⟨fileFunction next, [], ∅, [], ∅⟩, ∅) { callDepth := 1 } := by
    rw [← hload]
    rfl
  have hrun : observeFile.forM (execInstruction (fileModule next) idleUnit
      (callFunction (fileModule next) idleUnit 0) ⟨fileFunction next, [], ∅, [], ∅⟩)
      ⟨{ callDepth := 1 }, ∅, []⟩ = .ok ⟨⟩ (fileObserved (.int 3)) := rfl
  exact Reached.instructions (.enter (by decide) hbind rfl) hrun

/-- An observed file whose frame goes on to compute a constant stays as it is. -/
theorem leases_freeze_observed_const : ∃ s',
    Steps (fileModule nextConst) idleUnit (filePoint nextConst) s' ∧
    s'.resources.records[0]? = (filePoint nextConst).state.resources.records[0]? ∧
    (ViewRead.field ⟨1⟩ 0).run s'.resources ⟨⟨0⟩, 0, .observer, some ⟨0⟩⟩ = .ok (.int 3) := by
  have hmeets : Meets (fileModule nextConst) idleUnit TakeGuard
      ⟨fileFunction nextConst, [], [], []⟩ {} := by
    refine meets_of_code (by simp [fileModule]) fun f hf b hb p hsuffix _ => ?_
    obtain rfl : f = fileFunction nextConst := by simpa [fileModule] using hf
    obtain rfl : b = _ := by simpa [fileFunction] using hb
    have hhead : ∀ i rest, p.instructions = i :: rest → i ∈ observeFile ++ [nextConst] :=
      fun i rest h => hsuffix.subset (by simp [h])
    unfold TakeGuard
    split
    · rename_i h
      exact absurd (hhead _ _ h) (by simp [observeFile, nextConst])
    · trivial
  have hstep : Steps (fileModule nextConst) idleUnit (filePoint nextConst)
      ((fileObserved (.int 3)).insert ⟨3⟩ (.int 4)) := .instruction (n := 0) rfl
  have hfreeze := leases_freeze_observed .fresh hmeets (filePoint_reached rfl) hstep ⟨0⟩
  obtain ⟨hsame, hread, -⟩ := hfreeze.1 ⟨⟨0⟩, .active, [⟨0⟩], none⟩ ⟨rfl, rfl⟩
  refine ⟨_, hstep, hsame ⟨0⟩ (by simp), ?_⟩
  rcases hread with ⟨-, hread⟩ | ⟨l, hl, hended⟩
  · rw [hread _ ⟨rfl, rfl, by simp⟩ (.field ⟨1⟩ 0)]
    rfl
  · cases hl
    cases hended

/-- A transferring place read takes the descriptor out of a file that is being
observed: the value it moves carries no handle for a lease to be asked about. The
file's record changes, and a view of the open lease reads a tombstone. -/
theorem observed_descriptor_taken : ∃ s',
    Reached (fileModule takeDescriptor) idleUnit ⟨fileFunction takeDescriptor, [], [], []⟩ {}
      (filePoint takeDescriptor) ∧
    Steps (fileModule takeDescriptor) idleUnit (filePoint takeDescriptor) s' ∧
    (filePoint takeDescriptor).state.resources.Holds ⟨0⟩ ⟨⟨0⟩, .active, [⟨0⟩], none⟩ ∧
    s'.resources.Holds ⟨0⟩ ⟨⟨0⟩, .active, [⟨0⟩], none⟩ ∧
    s'.resources.records[0]? ≠ (filePoint takeDescriptor).state.resources.records[0]? ∧
    (ViewRead.field ⟨1⟩ 0).run (filePoint takeDescriptor).state.resources
      ⟨⟨0⟩, 0, .observer, some ⟨0⟩⟩ = .ok (.int 3) ∧
    (ViewRead.field ⟨1⟩ 0).run s'.resources ⟨⟨0⟩, 0, .observer, some ⟨0⟩⟩ = .ok .moved := by
  refine ⟨((fileObserved .moved).insert ⟨1⟩ (.resource ⟨⟨0⟩, 0, .owner, none⟩)).insert ⟨3⟩ (.int 3),
    filePoint_reached rfl, .instruction (n := 0) rfl, ⟨rfl, rfl⟩, ⟨rfl, rfl⟩, ?_, rfl, rfl⟩
  simp [filePoint, fileObserved, FrameState.insert, FrameState.resources]

theorem beginObserve_views {loadOrigin : LoadOrigin} {observation : ObservationId}
    {place : Place ValueId} {declared : Ty} {v : Value}
    (h : beginObserve m loadOrigin observation place declared s = .ok v s') :
    ∃ lease, s'.resources.Holds s.resources.reservedLeaseId lease ∧
      ∀ k ∈ v.handles, IsView s.resources.reservedLeaseId lease k := by
  obtain ⟨root, seen, observed, -, -, hsource, hcollect, hview, rfl⟩ := beginObserve_eq_ok h
  refine ⟨⟨s.resources.reservedLeaseId, .active, observed, _⟩,
    (opened_holds rfl).mpr (.inr ⟨rfl, rfl⟩), fun k hk => ?_⟩
  rw [toLeasedView_eq] at hview
  obtain ⟨k', hk', rfl⟩ := observingView_mem hview hk
  exact ⟨rfl, rfl, (collectReachable_seals hsource hcollect).2.2 k' hk'⟩

end Runs

end Napitia.Interpreter
