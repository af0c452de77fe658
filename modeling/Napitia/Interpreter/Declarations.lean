import Napitia.Lib.Assoc
import Napitia.Interpreter.Frozen
import Napitia.Interpreter.TableRule
import Napitia.Interpreter.Views

/-!
# The declarations values belong to

Moving a value, observing it and reinitializing a part of it rebuild the value and
leave the declaration it is of. A resource is of a declared record from its
construction on, and nothing changes the declaration of a stored record.
-/
namespace Napitia.Interpreter
open Nir EStateM ResourceTable

/-- The declaration an aggregate carries. -/
def Value.declaration : Value → Option ItemId
  | .record item _ _ | .variant item _ _ _ => some item
  | _ => none

section
variable {m : Module} {t t' : ResourceTable} {v w : Value}

theorem planTransferInner_declaration {n : ℕ} {p p' : StorePlan}
    (h : (planTransferInner m t n v).run p = .ok (w, p')) :
    w.declaration = v.declaration ∧ v.isTombstone = false := by
  cases n with
  | zero => exact absurd h StateT.run_throw_ne_ok
  | succ n =>
    unfold planTransferInner at h
    cases v with
    | resource handle =>
      dsimp only at h
      obtain ⟨-, h⟩ := StateT.run_guard_eq_ok.mp h
      obtain ⟨r, _, -, h⟩ := StateT.run_bind_eq_ok.mp h
      obtain ⟨-, h⟩ := StateT.run_guard_eq_ok.mp h
      obtain ⟨plan, _, -, h⟩ := StateT.run_bind_eq_ok.mp h
      obtain ⟨-, h⟩ := StateT.run_guard_eq_ok.mp h
      obtain ⟨⟨⟨⟩, reachable⟩, _, -, h⟩ := StateT.run_bind_eq_ok.mp h
      obtain ⟨_, _, -, h⟩ := StateT.run_bind_eq_ok.mp h
      obtain ⟨rfl, -⟩ := StateT.run_pure_eq_ok.mp h
      exact ⟨rfl, rfl⟩
    | record | «variant» =>
      obtain ⟨declared, _, -, h⟩ := StateT.run_bind_eq_ok.mp h
      obtain ⟨-, h⟩ := StateT.run_guard_eq_ok.mp h
      obtain ⟨ws, _, -, h⟩ := StateT.run_bind_eq_ok.mp h
      obtain ⟨rfl, -⟩ := StateT.run_pure_eq_ok.mp h
      exact ⟨rfl, rfl⟩
    | moved | dropped => exact absurd h StateT.run_throw_ne_ok
    | _ =>
      obtain ⟨rfl, -⟩ := StateT.run_pure_eq_ok.mp h
      exact ⟨rfl, rfl⟩

theorem planTransfer_declaration {p p' : StorePlan}
    (h : (planTransfer m t v).run p = .ok (w, p')) :
    w.declaration = v.declaration ∧ v.isTombstone = false :=
  planTransferInner_declaration (planTransfer_run h).1

/-- Only a value of a declared variant is transferred as one, with a payload for
each position of its case. -/
theorem planTransfer_variant {item : ItemId} {p p' : StorePlan}
    (h : (planTransfer m t v).run p = .ok (w, p')) (hv : v.declaration = some item)
    (hrecord : m.findRecord item = none) :
    ∃ typeArgs case payload declared, w = .variant item typeArgs case payload ∧
      casePayloadTypes m item typeArgs case = .ok declared := by
  have h : (planTransferInner m t (63 + 1) v).run p = .ok (w, p') := (planTransfer_run h).1
  unfold planTransferInner at h
  cases v with
  | record item' typeArgs fields =>
    cases hv
    obtain ⟨declared, _, hdeclared, h⟩ := StateT.run_bind_eq_ok.mp h
    obtain ⟨hdeclared, -⟩ := StateT.run_liftM_eq_ok.mp hdeclared
    unfold recordFieldTypes at hdeclared
    simp only [hrecord] at hdeclared
    exact absurd hdeclared Except.throw_ne_ok
  | variant item' typeArgs case payload =>
    cases hv
    obtain ⟨declared, _, hdeclared, h⟩ := StateT.run_bind_eq_ok.mp h
    obtain ⟨hdeclared, -⟩ := StateT.run_liftM_eq_ok.mp hdeclared
    obtain ⟨-, h⟩ := StateT.run_guard_eq_ok.mp h
    obtain ⟨ws, _, -, h⟩ := StateT.run_bind_eq_ok.mp h
    obtain ⟨rfl, -⟩ := StateT.run_pure_eq_ok.mp h
    exact ⟨typeArgs, case, ws, declared, rfl, hdeclared⟩
  | _ => cases hv

theorem observingView_declaration {lease : Option RuntimeObservationId} {n : ℕ}
    (h : t.observingView lease n v = .ok w) :
    w.declaration = v.declaration ∧ w.isTombstone = v.isTombstone := by
  cases n with
  | zero => exact absurd h Except.throw_ne_ok
  | succ n =>
    unfold observingView at h
    cases v with
    | resource handle =>
      cases lease with
      | none | some lease =>
        dsimp only at h
        obtain ⟨_, -, h⟩ := Except.bind_eq_ok.mp h
        obtain rfl := Except.pure_eq_ok.mp h
        exact ⟨rfl, rfl⟩
    | record item typeArgs fields | variant item typeArgs case payload =>
      obtain ⟨_, -, h⟩ := Except.bind_eq_ok.mp h
      obtain rfl := Except.pure_eq_ok.mp h
      exact ⟨rfl, rfl⟩
    | _ =>
      obtain rfl := Except.pure_eq_ok.mp h
      exact ⟨rfl, rfl⟩

/-- A value whose parts may be others and which is otherwise the same. -/
inductive Reshapes : Value → Value → Prop
  | same (v : Value) : Reshapes v v
  | record {item : ItemId} {typeArgs : List Ty} {fields fields' : List Value} :
      Reshapes (.record item typeArgs fields) (.record item typeArgs fields')
  | variant {item : ItemId} {typeArgs : List Ty} {case : ℕ} {payload payload' : List Value} :
      Reshapes (.variant item typeArgs case payload) (.variant item typeArgs case payload')

theorem Reshapes.declaration (h : Reshapes v w) :
    w.declaration = v.declaration ∧ w.isTombstone = v.isTombstone := by
  cases h <;> exact ⟨rfl, rfl⟩

theorem Rewrites.reshapes {slot slot' container container' : Value} {projections : List Projection}
    (h : Rewrites t slot slot' container projections container' t') :
    Reshapes container container' := by
  cases h with
  | resourceLast _ _ _ _ | resource _ _ _ _ _ => exact .same _
  | recordLast _ _ | record _ _ _ => exact .record

/-! ### The declarations of stored records -/

/-- The declaration of each stored record. -/
def ResourceTable.items (t : ResourceTable) : List ItemId := t.records.map (·.item)

theorem map_item_modify (f : ResourceRecord → ResourceRecord) (hf : ∀ r, (f r).item = r.item)
    (i : ℕ) (rs : List ResourceRecord) :
    (rs.modify i f).map (·.item) = rs.map (·.item) := by
  apply List.ext_getElem?
  intro j
  rw [List.getElem?_map, List.getElem?_map, List.getElem?_modify]
  cases rs[j]? with
  | none => simp
  | some r =>
    by_cases hij : i = j
    · simp [hij, hf]
    · simp [hij]

@[simp] theorem setStatus_items (id : ResourceId) (status : ResourceStatus) :
    (t.setStatus id status).items = t.items :=
  map_item_modify (fun r => { r with status := status }) (fun _ => rfl) id.index t.records

@[simp] theorem setGeneration_items (id : ResourceId) (generation : ℕ) :
    (t.setGeneration id generation).items = t.items :=
  map_item_modify (fun r => { r with generation := generation }) (fun _ => rfl) id.index t.records

@[simp] theorem writeField_items (id : ResourceId) (index : ℕ) (value : Value) :
    (t.writeField id index value).items = t.items :=
  map_item_modify (fun r => { r with fields := r.fields.set index value }) (fun _ => rfl) id.index
    t.records

@[simp] theorem commitTransfer_items (plan : StorePlan) :
    (t.commitTransfer plan).items = t.items := by
  unfold commitTransfer
  generalize plan.transitions = l
  induction l generalizing t with
  | nil => rfl
  | cons p l ih => exact ih.trans (setGeneration_items p.1 p.2)

theorem Rewrites.items {slot slot' container container' : Value} {projections : List Projection}
    (h : Rewrites t slot slot' container projections container' t') : t'.items = t.items := by
  induction h with
  | resourceLast | recordLast => simp
  | resource _ _ _ _ _ ih => rw [writeField_items, ih]
  | record _ _ _ ih => exact ih

/-- Every stored record is of a declared record. -/
def ItemsDeclared (m : Module) (t : ResourceTable) : Prop :=
  ∀ item ∈ t.items, (m.findRecord item).isSome

/-- Every stored record is of an item that `Q` holds of. -/
def ItemsMeet (Q : ItemId → Prop) (t : ResourceTable) : Prop := ∀ item ∈ t.items, Q item

theorem ItemsMeet.of_items {Q : ItemId → Prop} (h : ItemsMeet Q t) (heq : t'.items = t.items) :
    ItemsMeet Q t' := by
  intro item hitem
  rw [heq] at hitem
  exact h item hitem

theorem itemsMeet_empty {Q : ItemId → Prop} : ItemsMeet Q {} := by
  intro item hitem
  cases hitem

theorem findRecord_of_isResource (item : ItemId) (h : isResource m item = true) :
    (m.findRecord item).isSome := by
  obtain ⟨entry, hentry, hitem⟩ := List.any_eq_true.mp h
  rw [Bool.and_eq_true] at hitem
  rw [Module.findRecord, Option.isSome_map, List.find?_isSome]
  exact ⟨entry, hentry, hitem.1⟩

theorem ItemsDeclared.record_item (h : ItemsDeclared m t) {handle : ResourceHandle}
    {r : ResourceRecord} (hr : t.record handle = .ok r) : (m.findRecord r.item).isSome := by
  have hget := (record_eq_ok.mp hr).2.1
  exact h r.item (List.mem_map_of_mem (List.mem_of_getElem? hget))

/-- A value that stands in a position of a declared type which is no record's is
of the declaration of that type. -/
theorem declaration_of_named {item : ItemId} (hitems : ItemsDeclared m t)
    (hrecord : m.findRecord item = none)
    (h : argumentMatchesDeclared t v (.named item) = .ok true) : v.declaration = some item := by
  unfold argumentMatchesDeclared at h
  cases v with
  | record item' typeArgs fields | variant item' typeArgs case payload =>
    have heq := Except.pure_eq_ok.mp h
    rw [of_decide_eq_true heq.symm]
    rfl
  | resource handle =>
    obtain ⟨r, hr, h⟩ := Except.bind_eq_ok.mp h
    have heq : r.item = item := of_decide_eq_true (Except.pure_eq_ok.mp h).symm
    have hsome := hitems.record_item hr
    rw [heq, hrecord] at hsome
    cases hsome
  | _ => cases Except.pure_eq_ok.mp h

end

/-! ### What a step leaves in the table -/

section
variable {m : Module} {fpu : FloatUnit} {call : Call} {ctx : FrameContext} {Q : ItemId → Prop}

theorem read_eq_ok {values : Values} {id : ValueId} {v : Value} :
    values.read id = .ok v ↔ values.lookup id = some v := by
  unfold Values.read
  cases values.lookup id with
  | none => exact ⟨fun h => absurd h Except.throw_ne_ok, fun h => by cases h⟩
  | some w =>
    rw [Option.some.injEq]
    exact Except.pure_eq_ok.trans eq_comm

/-- What is installed is of the type the instruction declares, unless it is the
slot of an `alloc`. -/
theorem execValue_declared {result : ValueId} {ty : Ty} {kind : ValueKind} {s s' : FrameState}
    (hkind : kind ≠ .alloc) (h : execValue m fpu call ctx result ty kind s = .ok ⟨⟩ s') :
    ∃ v, s'.values.lookup result = some v ∧
      argumentMatchesDeclared s'.resources v (substitute ty ctx.subst) = .ok true := by
  obtain ⟨v, u, -, -, hcheck, rfl⟩ := execValue_computes h
  refine ⟨v, AList.lookup_insert _, ?_⟩
  unfold checkComputed at hcheck
  split at hcheck
  · exact absurd rfl hkind
  · obtain ⟨ok, hok, hcheck⟩ := asked_eq_ok.mp (get_bind_eq_ok.mp hcheck)
    cases ok with
    | true => exact hok
    | false => exact absurd hcheck fail_ne_ok

/-! ### What a step leaves in the frame -/

/-- The value an instruction installs something new under. -/
def targetOf : Instruction → Option ValueId
  | .value result _ _ => some result
  | .store slot _ _ => some slot
  | _ => none

/-- Whatever the frame holds afterwards it held before, as a value of the same
declaration, unless it was written or has become a tombstone. -/
def Carries (written : Option ValueId) (values values' : Values) : Prop :=
  ∀ id, written ≠ some id → ∀ v', values'.lookup id = some v' →
    v'.isTombstone = true ∨ ∃ v, values.lookup id = some v ∧
      v'.declaration = v.declaration ∧ v'.isTombstone = v.isTombstone

/-- What the frame holds afterwards, reshaped or not, it held before, unless it was written
or has become a tombstone. -/
def Retains (written : Option ValueId) (values values' : Values) : Prop :=
  ∀ id, written ≠ some id → ∀ v', values'.lookup id = some v' →
    v'.isTombstone = true ∨ ∃ v, values.lookup id = some v ∧ Reshapes v v'

section
variable {written : Option ValueId} {values values' : Values}

theorem Retains.carries (h : Retains written values values') : Carries written values values' := by
  intro id hid v' hv'
  refine (h id hid v' hv').imp_right ?_
  rintro ⟨v, hv, hreshapes⟩
  exact ⟨v, hv, hreshapes.declaration⟩

theorem Retains.refl (written : Option ValueId) (values : Values) :
    Retains written values values :=
  fun _ _ v' hv' => .inr ⟨v', hv', .same v'⟩

theorem Retains.insert (h : Retains none values values') (id : ValueId) (v : Value) :
    Retains (some id) values (values'.insert id v) := by
  intro other hother v' hv'
  have hne : other ≠ id := fun heq => hother (congrArg some heq.symm)
  rw [AList.lookup_insert_ne hne] at hv'
  exact h other (by simp) v' hv'

theorem Retains.moved (h : Retains written values values') (id : ValueId) :
    Retains written values (values'.insert id .moved) := by
  intro other hother v' hv'
  by_cases heq : other = id
  · subst heq
    rw [AList.lookup_insert] at hv'
    cases hv'
    exact .inl rfl
  · rw [AList.lookup_insert_ne heq] at hv'
    exact h other hother v' hv'

theorem Retains.rebuilt {id : ValueId} {v v' : Value} (hv : values.lookup id = some v)
    (hreshapes : Reshapes v v') : Retains written values (values.insert id v') := by
  intro other _ w hw
  by_cases heq : other = id
  · subst heq
    rw [AList.lookup_insert] at hw
    cases hw
    exact .inr ⟨v, hv, hreshapes⟩
  · rw [AList.lookup_insert_ne heq] at hw
    exact .inr ⟨w, hw, .same w⟩

theorem Retains.erased (id : ValueId) : Retains written values (values.erase id) := by
  intro other _ v' hv'
  by_cases heq : other = id
  · subst heq
    simp at hv'
  · rw [AList.lookup_erase_ne heq] at hv'
    exact .inr ⟨v', hv', .same v'⟩

end

theorem accessPlace_retains {loadOrigin : LoadOrigin} {place : Place ValueId}
    {mode : OwnershipMode} {s s' : FrameState} {v : Value}
    (h : accessPlace loadOrigin place mode s = .ok v s') : Retains none s.values s'.values := by
  cases mode with
  | observe =>
    obtain ⟨_, _, -, -, -, rfl⟩ := accessPlace_observe_eq_ok.mp h
    exact .refl none s'.values
  | transfer =>
    obtain ⟨root, _, container, t, hroot, -, -, hvalid, hcommit, rfl⟩ :=
      accessPlace_transfer_eq_ok h
    refine .rebuilt (read_eq_ok.mp hroot) ?_
    rcases commitTake_rewrites hvalid hcommit with ⟨-, hresult, -⟩ | ⟨-, hrewrites⟩
    · cases hresult
      exact .same _
    · exact hrewrites.reshapes

theorem instruction_retains {s s' : FrameState} {i : Instruction}
    (h : execInstruction m fpu call ctx i s = .ok ⟨⟩ s') :
    Retains (targetOf i) s.values s'.values := by
  cases i with
  | value result ty kind =>
    obtain ⟨v, u, heffect, -, rfl⟩ := execValue_eq_ok h
    refine Retains.insert ?_ result v
    cases heffect with
    | placeRead hread => exact accessPlace_retains hread
    | observePlace hobserve =>
      obtain ⟨_, _, _, -, -, -, -, -, rfl⟩ := beginObserve_eq_ok hobserve
      exact .refl none s.values
    | eval _ => exact .refl none s.values
  | store slot value mode =>
    cases mode with
    | transfer =>
      obtain ⟨_, rebuilt, _, -, -, -, -, rfl⟩ := execStore_transfer_eq_ok (perform_eq_ok.mp h)
      exact (Retains.refl none s.values).insert slot rebuilt
    | observe =>
      obtain ⟨_, view, -, -, -, rfl⟩ := execStore_observe_eq_ok (perform_eq_ok.mp h)
      exact (Retains.refl none s.values).insert slot view
  | drop value =>
    obtain ⟨_, _, -, -, rfl⟩ := execDrop_eq_ok (perform_eq_ok.mp h)
    exact .erased value
  | decomposeVariant value variant case taken =>
    obtain ⟨typeArgs, payload, hread, -, -, -, rfl⟩ := decomposeVariant_eq_ok (perform_eq_ok.mp h)
    exact .rebuilt (read_eq_ok.mp hread) .variant
  | storePlace place value =>
    obtain ⟨_, _, _, _, _, _, _, _, -, hroot, -, -, -, htarget, -, -, -, hvalid, hcommit, rfl⟩ :=
      storePlaceTransfer_eq_ok (perform_eq_ok.mp h)
    have hne : place.projections ≠ [] := by
      intro hnil
      rw [hnil] at htarget
      exact absurd htarget Except.throw_ne_ok
    obtain ⟨_, -, hrewrites⟩ := commitStore_rewrites hne hvalid hcommit
    exact ((Retains.rebuilt (read_eq_ok.mp hroot) hrewrites.reshapes).moved value).moved _
  | endObserve observation =>
    obtain ⟨_, -, rfl⟩ := endObserve_eq_ok (perform_eq_ok.mp h)
    exact .refl none s.values

theorem instruction_carries {s s' : FrameState} {i : Instruction}
    (h : execInstruction m fpu call ctx i s = .ok ⟨⟩ s') :
    Carries (targetOf i) s.values s'.values :=
  (instruction_retains h).carries

/-- An argument is bound under its parameter, as a value of the declaration it
was checked to be of. -/
theorem bindParameter_declared {t : ResourceTable} {subst : Subst} {param : Param} {arg : Value}
    {b : ValueId × Value} {p p' : BindingPlan}
    (h : (bindParameter m t subst param arg).run p = .ok (b, p')) :
    b.1 = param.value ∧ ∀ item, param.ty = .named item → ItemsDeclared m t →
      m.findRecord item = none → b.2.declaration = some item := by
  unfold bindParameter at h
  obtain ⟨⟨⟩, _, hvalid, h⟩ := StateT.run_bind_eq_ok.mp h
  obtain ⟨hargument, rfl⟩ := StateT.run_liftM_eq_ok.mp hvalid
  have hdeclared : ∀ item, param.ty = .named item → ItemsDeclared m t →
      m.findRecord item = none → arg.declaration = some item := by
    intro item hty hitems hrecord
    rw [hty] at hargument
    unfold validateArgument at hargument
    obtain ⟨⟨⟩, -, hmatch⟩ := Except.bind_eq_ok.mp hargument
    obtain ⟨ok, hok, hmatch⟩ := Except.bind_eq_ok.mp hmatch
    cases ok with
    | true => exact declaration_of_named hitems hrecord hok
    | false => exact absurd hmatch Except.throw_ne_ok
  obtain ⟨_, _, hget, h⟩ := StateT.run_bind_eq_ok.mp h
  obtain ⟨rfl, rfl⟩ := StateT.run_get_eq_ok.mp hget
  split at h
  · obtain ⟨⟨bound, plan⟩, _, hplan, h⟩ := StateT.run_bind_eq_ok.mp h
    obtain ⟨hbound, rfl⟩ := StateT.run_liftM_eq_ok.mp hplan
    obtain ⟨_, _, -, h⟩ := StateT.run_bind_eq_ok.mp h
    obtain ⟨rfl, -⟩ := StateT.run_pure_eq_ok.mp h
    have hsame := (planTransfer_declaration hbound).1
    exact ⟨rfl, fun item hty hitems hrecord => hsame.trans (hdeclared item hty hitems hrecord)⟩
  · obtain ⟨⟨⟨⟩, reached⟩, _, -, h⟩ := StateT.run_bind_eq_ok.mp h
    obtain ⟨_, _, -, h⟩ := StateT.run_bind_eq_ok.mp h
    obtain ⟨bound, _, hview, h⟩ := StateT.run_bind_eq_ok.mp h
    obtain ⟨hbound, rfl⟩ := StateT.run_liftM_eq_ok.mp hview
    obtain ⟨rfl, -⟩ := StateT.run_pure_eq_ok.mp h
    rw [toObservingView_eq] at hbound
    have hsame := (observingView_declaration hbound).1
    exact ⟨rfl, fun item hty hitems hrecord => hsame.trans (hdeclared item hty hitems hrecord)⟩

theorem bindParameters_declared {request : CallRequest} {i i' : InterpreterState}
    {values : Values} (h : bindParameters m request i = .ok (ctx, values) i')
    (hitems : ItemsDeclared m i.resources) {id : ValueId} {v : Value}
    (hv : values.lookup id = some v) :
    ∃ param ∈ request.function.params, param.value = id ∧ ∀ item, param.ty = .named item →
      m.findRecord item = none → v.declaration = some item := by
  obtain ⟨subst, bindings, planned, hbind, -, -, -, rfl, -⟩ := bindParameters_eq_ok h
  have hmem : (id, v) ∈ bindings := by
    rcases AList.mem_of_lookup_foldl hv with hmem | hnone
    · exact hmem
    · simp at hnone
  obtain ⟨-, hbound⟩ := StateT.run_mapM_induction (R := fun _ _ => True)
    (P := fun (p : Param × Value) b => b.1 = p.1.value ∧ ∀ item, p.1.ty = .named item →
      ItemsDeclared m i.resources → m.findRecord item = none → b.2.declaration = some item)
    (fun _ => trivial) (fun _ _ => trivial)
    (fun _ _ _ _ _ hb => ⟨trivial, bindParameter_declared hb⟩) hbind
  obtain ⟨p, hp, hid, hdeclared⟩ := hbound.exists_left hmem
  exact ⟨p.1, (List.of_mem_zip hp).1, hid.symm,
    fun item hty hrecord => hdeclared item hty hitems hrecord⟩

theorem execTerminator_raise {id : ValueId} {outcome : Outcome} {s s' : FrameState}
    (h : execTerminator m call ctx (.raise id) s = .ok (.exit outcome) s') :
    ∃ v e plan, outcome = .raised e ∧ s.values.lookup id = some v ∧
      (planTransfer m s.resources v).run {} = .ok (e, plan) := by
  obtain ⟨⟨⟩, u, hopen, h⟩ := bind_eq_ok.mp h
  obtain ⟨e, w, hraise, hpure⟩ := bind_eq_ok.mp h
  obtain ⟨-, rfl⟩ := refuseOpenObservation_eq_ok (perform_eq_ok.mp hopen)
  have hraise := perform_eq_ok.mp hraise
  unfold exitRaise at hraise
  obtain ⟨v, hread, hexit⟩ := ask_bind_eq_ok.mp (get_bind_eq_ok.mp hraise)
  obtain ⟨plan, hplan, -, -⟩ := exitTransfer_eq_ok hexit
  cases hpure
  exact ⟨v, e, plan, rfl, read_eq_ok.mp hread, hplan⟩

theorem raise_of_raised {terminator : Terminator} {e : Value} {s s' : FrameState}
    (h : execTerminator m call ctx terminator s = .ok (.exit (.raised e)) s') :
    ∃ id, terminator = .raise id := by
  cases execTerminator_effect h with
  | raise _ _ => exact ⟨_, rfl⟩

/-! ### Runs -/

theorem itemsRule (hQ : ∀ item, isResource m item = true → Q item) :
    TableRule m (ItemsMeet Q) where
  records heq h := h.of_items (by rw [items, items, heq])
  transfer plan h := h.of_items (commitTransfer_items plan)
  setStatus id status h := h.of_items (setStatus_items id status)
  construct {t item fields} hresource _ h := by
    intro other hother
    have hcases : other ∈ t.items ∨ other = item := by
      simpa [ResourceTable.construct, items] using hother
    rcases hcases with hold | rfl
    · exact h other hold
    · exact hQ other hresource
  rewrites hrw _ h := h.of_items hrw.items

theorem Session.itemsMeet {P : Point → Prop} {i : InterpreterState} (h : Session m fpu P i)
    (hQ : ∀ item, isResource m item = true → Q item) : ItemsMeet Q i.resources := by
  induction h with
  | fresh => exact itemsMeet_empty
  | call _ _ hcall ih => exact (itemsRule hQ).frame.call (fun _ _ _ _ => trivial) ih hcall

theorem Session.items {P : Point → Prop} {i : InterpreterState} (h : Session m fpu P i) :
    ItemsDeclared m i.resources :=
  h.itemsMeet findRecord_of_isResource

end

end Napitia.Interpreter
