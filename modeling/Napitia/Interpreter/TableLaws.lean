import Napitia.Lib.Walk
import Napitia.Interpreter.Run

/-!
# Laws of the resource table

When a handle resolves, what each single write does to the records, and when the
primitive writes succeed. The proofs about whole operations use these and never
unfold the table again.
-/
namespace Napitia.Interpreter
open Nir EStateM

namespace ResourceTable
variable {t t' : ResourceTable} {h : ResourceHandle} {r : ResourceRecord}

theorem lease_eq_ok {id : RuntimeObservationId} {l : RuntimeObservation} :
    t.lease id = .ok l ↔ t.leases[id.index]? = some l := by
  unfold lease
  cases t.leases[id.index]? <;> simp

/-- A handle's lease is no obstacle: it has none, or one that has not ended. -/
def LeaseOpen (t : ResourceTable) (h : ResourceHandle) : Prop :=
  ∀ id, h.lease = some id → ∃ l, t.leases[id.index]? = some l ∧ l.status = .active

theorem checkLease_eq_ok : t.checkLease h = .ok ⟨⟩ ↔ t.LeaseOpen h := by
  unfold checkLease LeaseOpen
  cases h.lease with
  | none => simp [pure, Except.pure]
  | some id =>
    simp only [Except.bind_eq_ok, lease_eq_ok, Option.some.injEq, forall_eq']
    refine exists_congr fun l => and_congr_right fun _ => ?_
    cases l.status with
    | active => simp [pure, Except.pure]
    | ended => simp [Except.throw_ne_ok]

theorem currentRecord_eq_ok :
    t.currentRecord h = .ok r ↔
      t.records[h.id.index]? = some r ∧ r.generation = h.generation := by
  unfold currentRecord
  cases t.records[h.id.index]? with
  | none => simp [Except.throw_ne_ok]
  | some x =>
    simp only [Option.some.injEq, ne_eq, ite_not]
    split
    · rw [Except.pure_eq_ok]
      constructor
      · rintro rfl
        exact ⟨rfl, ‹_›⟩
      · exact fun hx => hx.1.symm
    · constructor
      · exact fun hx => absurd hx Except.throw_ne_ok
      · rintro ⟨rfl, hg⟩
        exact absurd hg ‹_›

theorem record_eq_ok :
    t.record h = .ok r ↔
      t.LeaseOpen h ∧ t.records[h.id.index]? = some r ∧ r.generation = h.generation := by
  unfold record
  rw [Except.bind_eq_ok, ← currentRecord_eq_ok, ← checkLease_eq_ok]
  exact ⟨fun ⟨_, h⟩ => h, fun h => ⟨⟨⟩, h⟩⟩

theorem observe_eq_ok : t.observe h = .ok r ↔ t.record h = .ok r ∧ r.status = .alive := by
  unfold observe
  simp only [Except.bind_eq_ok]
  constructor
  · rintro ⟨r', hr, hs⟩
    split at hs
    · exact absurd hs Except.throw_ne_ok
    · rw [Except.pure_eq_ok] at hs
      subst hs
      refine ⟨hr, ?_⟩
      cases hst : r.status <;> simp_all
  · rintro ⟨hr, hs⟩
    exact ⟨r, hr, by simp [hs, pure, Except.pure]⟩

theorem observe_record (ho : t.observe h = .ok r) : t.records[h.id.index]? = some r :=
  (record_eq_ok.mp (observe_eq_ok.mp ho).1).2.1

/-- The two tables agree on everything but the contents of stored fields. -/
structure SameShape (t t' : ResourceTable) : Prop where
  leases : t'.leases = t.leases
  active : t'.active = t.active
  records : ∀ (i : ℕ) (r : ResourceRecord), t.records[i]? = some r →
    ∃ r' : ResourceRecord, t'.records[i]? = some r' ∧
    r'.item = r.item ∧ r'.generation = r.generation ∧ r'.status = r.status ∧
    r'.fields.length = r.fields.length

theorem SameShape.refl (t : ResourceTable) : SameShape t t :=
  ⟨rfl, rfl, fun _ r hr => ⟨r, hr, rfl, rfl, rfl, rfl⟩⟩

theorem SameShape.trans {u : ResourceTable} (h₁ : SameShape t t') (h₂ : SameShape t' u) :
    SameShape t u := by
  refine ⟨h₂.leases.trans h₁.leases, h₂.active.trans h₁.active, ?_⟩
  intro i r hr
  obtain ⟨r', hr', hi, hg, hs, hf⟩ := h₁.records i r hr
  obtain ⟨r'', hr'', hi', hg', hs', hf'⟩ := h₂.records i r' hr'
  exact ⟨r'', hr'', hi'.trans hi, hg'.trans hg, hs'.trans hs, hf'.trans hf⟩

theorem SameShape.observe (hs : SameShape t t') (ho : t.observe h = .ok r) :
    ∃ r', t'.observe h = .ok r' ∧ r'.fields.length = r.fields.length := by
  obtain ⟨hr, hst⟩ := observe_eq_ok.mp ho
  obtain ⟨hl, hget, hgen⟩ := record_eq_ok.mp hr
  obtain ⟨r', hget', -, hgen', hst', hlen⟩ := hs.records _ r hget
  refine ⟨r', observe_eq_ok.mpr ⟨record_eq_ok.mpr ⟨?_, hget', hgen'.trans hgen⟩,
    hst'.trans hst⟩, hlen⟩
  intro id hid
  rw [hs.leases]
  exact hl id hid

theorem getElem?_modify_record (f : ResourceRecord → ResourceRecord) (i j : ℕ) :
    (t.records.modify i f)[j]? = if i = j then (t.records[j]?).map f else t.records[j]? := by
  rw [List.getElem?_modify]
  split
  · rfl
  · exact Option.map_id'

theorem writeField_records (id : ResourceId) (index : ℕ) (value : Value) (j : ℕ) :
    (t.writeField id index value).records[j]? =
      if id.index = j then (t.records[j]?).map fun r => { r with fields := r.fields.set index value }
      else t.records[j]? :=
  getElem?_modify_record _ _ _

theorem setStatus_records (id : ResourceId) (status : ResourceStatus) (j : ℕ) :
    (t.setStatus id status).records[j]? =
      if id.index = j then (t.records[j]?).map fun r => { r with status := status }
      else t.records[j]? :=
  getElem?_modify_record _ _ _

theorem setGeneration_records (id : ResourceId) (generation j : ℕ) :
    (t.setGeneration id generation).records[j]? =
      if id.index = j then (t.records[j]?).map fun r => { r with generation := generation }
      else t.records[j]? :=
  getElem?_modify_record _ _ _

theorem sameShape_writeField (id : ResourceId) (index : ℕ) (value : Value) :
    SameShape t (t.writeField id index value) := by
  refine ⟨rfl, rfl, ?_⟩
  intro i r hr
  rw [writeField_records]
  split
  · refine ⟨{ r with fields := r.fields.set index value }, ?_, rfl, rfl, rfl, List.length_set⟩
    rw [hr]
    rfl
  · exact ⟨r, hr, rfl, rfl, rfl, rfl⟩

theorem setStatus_observe {id : ResourceId} {status : ResourceStatus} (hne : h.id ≠ id)
    (ho : t.observe h = .ok r) : (t.setStatus id status).observe h = .ok r := by
  obtain ⟨hr, hst⟩ := observe_eq_ok.mp ho
  obtain ⟨hl, hget, hgen⟩ := record_eq_ok.mp hr
  refine observe_eq_ok.mpr ⟨record_eq_ok.mpr ⟨hl, ?_, hgen⟩, hst⟩
  rw [setStatus_records, if_neg, hget]
  intro hi
  exact hne (by cases hid : h.id; cases id; simp_all)

theorem observeField_owner (hrole : h.role = .owner) {index : ℕ} {value : Value}
    (ho : t.observe h = .ok r) (hf : r.fields[index]? = some value) :
    t.observeField h index = .ok value := by
  unfold observeField
  simp only [Except.bind_eq_ok]
  exact ⟨r, ho, by simp [hf, hrole, pure, Except.pure]⟩

end ResourceTable

open ResourceTable

section Primitives
variable {t : ResourceTable} {h : ResourceHandle} {r : ResourceRecord} {index : ℕ} {slot : Value}

theorem takeField_ok (hrole : h.role = .owner) (ho : t.observe h = .ok r)
    (hf : r.fields[index]? = some slot) :
    takeField h index t = .ok slot (t.writeField h.id index .moved) := by
  unfold takeField
  simp only [hrole, ne_eq, not_true_eq_false, if_false]
  rw [bind_of_ok (get_apply t), ho, bind_of_ok (liftExcept_ok r t), hf]
  rfl

theorem restoreField_ok (hrole : h.role = .owner) (ho : t.observe h = .ok r)
    (hf : index < r.fields.length) (container : Value) :
    restoreField h index container t = .ok ⟨⟩ (t.writeField h.id index container) := by
  unfold restoreField
  simp only [hrole, ne_eq, not_true_eq_false, if_false]
  rw [bind_of_ok (get_apply t), ho, bind_of_ok (liftExcept_ok r t),
    List.getElem?_eq_getElem hf]
  rfl

theorem setField_ok (hrole : h.role = .owner) (ho : t.observe h = .ok r)
    (hf : r.fields[index]? = some slot) (hs : slot.isTombstone = true) (value : Value) :
    setField h index value t = .ok ⟨⟩ (t.writeField h.id index value) := by
  unfold setField
  simp only [hrole, ne_eq, not_true_eq_false, if_false]
  rw [bind_of_ok (get_apply t), ho, bind_of_ok (liftExcept_ok r t), hf]
  simp [hs]

theorem dropResource_ok (hrole : h.role = .owner) (ho : t.observe h = .ok r) :
    dropResource h t = .ok ⟨⟩ (t.setStatus h.id .dropped) := by
  obtain ⟨hr, hs⟩ := observe_eq_ok.mp ho
  unfold dropResource
  simp only [hrole, ne_eq, not_true_eq_false, if_false]
  rw [bind_of_ok (get_apply t), hr, bind_of_ok (liftExcept_ok r t), hs]
  rfl

theorem commitLease_ok (observed : List ResourceId) (parent : Option RuntimeObservationId) :
    commitLease t.reservedLeaseId observed parent t = .ok ⟨⟩ { t with
      leases := t.leases ++ [⟨t.reservedLeaseId, .active, observed, parent⟩],
      active := t.active ++ [t.reservedLeaseId] } := by
  unfold commitLease
  rw [bind_of_ok (get_apply t)]
  simp [reservedLeaseId]

theorem endLease_atomic (id : RuntimeObservationId) : Atomic (endLease id) := by
  intro t
  unfold endLease
  refine .get_bind (.ask_bind fun l _ => ?_)
  refine .ite (fun _ => atomicAt_throw_bind _ _ _) fun _ => ?_
  refine .ite (fun _ => atomicAt_throw_bind _ _ _) fun _ => ?_
  exact Sure.atomicAt ⟨_, _, set_apply ..⟩

end Primitives

end Napitia.Interpreter
