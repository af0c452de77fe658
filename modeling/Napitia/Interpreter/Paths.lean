import Napitia.Interpreter.Walks

/-!
# What a place traversal writes

The effect that the committing walks of a take and of a structural store share: the
slot at the end of the path is replaced, in the container itself when the path stays
inline, and otherwise in the fields of the last resource the path goes through.
-/
namespace Napitia.Interpreter
open Nir EStateM ResourceTable

/-- The resource whose own fields the last step of a path lies in, when the path
goes through one. -/
def innerOwner (t : ResourceTable) : Value → List Projection → Option ResourceHandle
  | _, [] => none
  | container, first :: rest =>
    match projectionIndex first with
    | .error _ => none
    | .ok index =>
      match container with
      | .resource handle =>
        match t.observeField handle index with
        | .ok inner => some ((innerOwner t inner rest).getD handle)
        | .error _ => some handle
      | .record _ _ fields =>
        match fields[index]? with
        | some inner => innerOwner t inner rest
        | none => none
      | _ => none

section
variable {t t' : ResourceTable} {slot slot' container container' : Value}
  {projections : List Projection}

theorem set_eq_self {α : Type} {l : List α} {i : ℕ} {a : α} (h : l[i]? = some a) :
    l.set i a = l := by
  obtain ⟨hi, rfl⟩ := List.getElem?_eq_some_iff.mp h
  exact List.set_getElem_self hi

theorem innerOwner_nil (v : Value) : innerOwner t v [] = none := by
  simp [innerOwner]

theorem innerOwner_resource {h : ResourceHandle} {r : ResourceRecord} {first : Projection}
    {index : ℕ} {rest : List Projection} {inner : Value} (hindex : projectionIndex first = .ok index)
    (hrole : h.role = .owner) (hr : t.observe h = .ok r) (hf : r.fields[index]? = some inner) :
    innerOwner t (.resource h) (first :: rest) = some ((innerOwner t inner rest).getD h) := by
  simp only [innerOwner, hindex, observeField_owner hrole hr hf]

theorem innerOwner_record {item : ItemId} {typeArgs : List Ty} {fields : List Value}
    {first : Projection} {index : ℕ} {rest : List Projection} {inner : Value}
    (hindex : projectionIndex first = .ok index) (hf : fields[index]? = some inner) :
    innerOwner t (.record item typeArgs fields) (first :: rest) = innerOwner t inner rest := by
  simp only [innerOwner, hindex, hf]

theorem Rewrites.leases (h : Rewrites t slot slot' container projections container' t') :
    t'.leases = t.leases ∧ t'.active = t.active := by
  induction h with
  | resourceLast | recordLast => exact ⟨rfl, rfl⟩
  | resource _ _ _ _ _ ih => exact ih
  | record _ _ _ ih => exact ih

theorem writeField_same {h : ResourceHandle} {r : ResourceRecord} {index : ℕ} {inner : Value}
    (hr : t'.records[h.id.index]? = some r) (hf : r.fields[index]? = some inner) (j : ℕ) :
    (t'.writeField h.id index inner).records[j]? = t'.records[j]? := by
  rw [writeField_records]
  split
  · rename_i hj
    subst hj
    rw [hr, Option.map_some, set_eq_self hf]
  · rfl

/-- An inline path leaves the table alone, and a path through resources leaves
alone the container and every record but that of the last of them. -/
theorem Rewrites.frame (h : Rewrites t slot slot' container projections container' t') :
    (innerOwner t container projections = none → t' = t) ∧
      ∀ k, innerOwner t container projections = some k → container' = container ∧
        ∀ j, j ≠ k.id.index → t'.records[j]? = t.records[j]? := by
  induction h with
  | @resourceLast h r first index hindex hrole hr hf =>
    rw [innerOwner_resource hindex hrole hr hf, innerOwner_nil, Option.getD_none]
    refine ⟨by simp, ?_⟩
    rintro k ⟨⟩
    refine ⟨rfl, fun j hj => ?_⟩
    rw [writeField_records, if_neg (Ne.symm hj)]
  | recordLast hindex hf =>
    rw [innerOwner_record hindex hf]
    exact ⟨fun _ => rfl, by simp [innerOwner]⟩
  | @resource h r first index rest inner inner' t' hindex hrole hr hf hrw ih =>
    rw [innerOwner_resource hindex hrole hr hf]
    refine ⟨by simp, ?_⟩
    rintro k hk
    refine ⟨rfl, fun j hj => ?_⟩
    cases hin : innerOwner t inner rest with
    | none =>
      rw [hin, Option.getD_none] at hk
      cases hk
      rw [ih.1 hin, writeField_records, if_neg (Ne.symm hj)]
    | some k' =>
      rw [hin, Option.getD_some] at hk
      cases hk
      obtain ⟨rfl, hrecords⟩ := ih.2 k hin
      by_cases hhj : h.id.index = j
      · subst hhj
        rw [writeField_same ((hrecords _ hj).trans (observe_record hr)) hf, hrecords _ hj]
      · rw [writeField_records, if_neg hhj, hrecords j hj]
  | record hindex hf hrw ih =>
    rw [innerOwner_record hindex hf]
    refine ⟨ih.1, fun k hk => ⟨?_, (ih.2 k hk).2⟩⟩
    rw [(ih.2 k hk).1, set_eq_self hf]

theorem Rewrites.not_whole (h : Rewrites t slot slot' container projections container' t')
    (htomb : slot.isTombstone = true) :
    (innerOwner t container projections = none → container.whole = false) ∧
      ∀ k, innerOwner t container projections = some k →
        ∃ r, t.observe k = .ok r ∧ ∃ f ∈ r.fields, f.whole = false := by
  have hslot : slot.whole = false := by
    cases slot <;> simp_all [Value.isTombstone, Value.whole]
  have hpart : ∀ {fields : List Value} {index : ℕ} {inner : Value} {item : ItemId}
      {typeArgs : List Ty}, fields[index]? = some inner → inner.whole = false →
      (Value.record item typeArgs fields).whole = false := by
    intro fields index inner item typeArgs hf hw
    rw [Bool.eq_false_iff]
    intro hall
    rw [whole_record.mp hall inner (List.mem_of_getElem? hf)] at hw
    cases hw
  induction h with
  | resourceLast hindex hrole hr hf =>
    rw [innerOwner_resource hindex hrole hr hf, innerOwner_nil, Option.getD_none]
    refine ⟨by simp, ?_⟩
    rintro k ⟨⟩
    exact ⟨_, hr, slot, List.mem_of_getElem? hf, hslot⟩
  | recordLast hindex hf =>
    rw [innerOwner_record hindex hf]
    exact ⟨fun _ => hpart hf hslot, by simp [innerOwner]⟩
  | @resource h r first index rest inner inner' t' hindex hrole hr hf hrw ih =>
    rw [innerOwner_resource hindex hrole hr hf]
    refine ⟨by simp, ?_⟩
    rintro k hk
    cases hin : innerOwner t inner rest with
    | none =>
      rw [hin, Option.getD_none] at hk
      cases hk
      exact ⟨r, hr, inner, List.mem_of_getElem? hf, ih.1 hin⟩
    | some k' =>
      rw [hin, Option.getD_some] at hk
      cases hk
      exact ih.2 k hin
  | record hindex hf hrw ih =>
    rw [innerOwner_record hindex hf]
    exact ⟨fun hn => hpart hf (ih.1 hn), ih.2⟩

/-- The records after a rewrite hold no handle that was not stored before or
written into the slot. -/
theorem Rewrites.stored {Q : ResourceHandle → Prop}
    (h : Rewrites t slot slot' container projections container' t')
    (hstored : ∀ r ∈ t.records, ∀ f ∈ r.fields, ∀ k ∈ f.handles, Q k)
    (hslot : ∀ k ∈ slot'.handles, Q k) :
    (∀ r ∈ t'.records, ∀ f ∈ r.fields, ∀ k ∈ f.handles, Q k) ∧
      ((∀ k ∈ container.handles, Q k) → ∀ k ∈ container'.handles, Q k) := by
  have hwrite : ∀ {u : ResourceTable} {id : ResourceId} {index : ℕ} {v : Value},
      (∀ r ∈ u.records, ∀ f ∈ r.fields, ∀ k ∈ f.handles, Q k) → (∀ k ∈ v.handles, Q k) →
      ∀ r ∈ (u.writeField id index v).records, ∀ f ∈ r.fields, ∀ k ∈ f.handles, Q k := by
    intro u id index v hu hv r hr f hf k hk
    obtain ⟨j, hj⟩ := List.mem_iff_getElem?.mp hr
    rw [writeField_records] at hj
    split at hj
    · obtain ⟨r', hr', rfl⟩ := Option.map_eq_some_iff.mp hj
      rcases List.mem_or_eq_of_mem_set hf with hf | rfl
      · exact hu r' (List.mem_of_getElem? hr') f hf k hk
      · exact hv k hk
    · exact hu r (List.mem_of_getElem? hj) f hf k hk
  have hset : ∀ {fields : List Value} {index : ℕ} {v : Value} {item : ItemId}
      {typeArgs : List Ty}, (∀ k ∈ v.handles, Q k) →
      (∀ k ∈ (Value.record item typeArgs fields).handles, Q k) →
      ∀ k ∈ (Value.record item typeArgs (fields.set index v)).handles, Q k := by
    intro fields index v item typeArgs hv hfields k hk
    obtain ⟨f, hf, hkf⟩ := mem_handles_record.mp hk
    rcases List.mem_or_eq_of_mem_set hf with hf | rfl
    · exact hfields k (mem_handles_record.mpr ⟨f, hf, hkf⟩)
    · exact hv k hkf
  induction h with
  | resourceLast hindex hrole hr hf => exact ⟨hwrite hstored hslot, fun hc => hc⟩
  | recordLast hindex hf => exact ⟨hstored, hset hslot⟩
  | resource hindex hrole hr hf hrw ih =>
    refine ⟨hwrite ih.1 (ih.2 ?_), fun hc => hc⟩
    exact hstored _ (List.mem_of_getElem? (observe_record hr)) _ (List.mem_of_getElem? hf)
  | record hindex hf hrw ih =>
    refine ⟨ih.1, fun hc => hset (ih.2 ?_) hc⟩
    exact fun k hk => hc k (mem_handles_record.mpr ⟨_, List.mem_of_getElem? hf, hk⟩)

end

end Napitia.Interpreter
