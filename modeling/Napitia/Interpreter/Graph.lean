import Napitia.Interpreter.Table

/-!
# The ownership graph

The handles a value carries inline, and the two readings of the graph the table
draws between records: every identity a value reaches through handles that
resolve, and every identity it owns.
-/
namespace Napitia.Interpreter
open Nir ResourceTable

mutual

/-- The handles a value carries inline, at any depth. -/
def Value.handles : Value → List ResourceHandle
  | .resource handle => [handle]
  | .record _ _ fields => Value.handlesAll fields
  | .variant _ _ _ payload => Value.handlesAll payload
  | _ => []

def Value.handlesAll : List Value → List ResourceHandle
  | [] => []
  | value :: values => value.handles ++ Value.handlesAll values

end

mutual

/-- No tombstone stands anywhere inline. -/
def Value.whole : Value → Bool
  | .moved | .dropped => false
  | .record _ _ fields => Value.wholeAll fields
  | .variant _ _ _ payload => Value.wholeAll payload
  | _ => true

def Value.wholeAll : List Value → Bool
  | [] => true
  | value :: values => value.whole && Value.wholeAll values

end

theorem mem_handlesAll {values : List Value} {h : ResourceHandle} :
    h ∈ Value.handlesAll values ↔ ∃ v ∈ values, h ∈ v.handles := by
  induction values with
  | nil => simp [Value.handlesAll]
  | cons v vs ih => simp [Value.handlesAll, ih]

theorem wholeAll_eq_true {values : List Value} :
    Value.wholeAll values = true ↔ ∀ v ∈ values, v.whole = true := by
  induction values with
  | nil => simp [Value.wholeAll]
  | cons v vs ih => simp [Value.wholeAll, ih]

@[simp] theorem handles_resource (h : ResourceHandle) : (Value.resource h).handles = [h] := by
  simp [Value.handles]

theorem mem_handles_record {item : ItemId} {typeArgs : List Ty} {fields : List Value}
    {h : ResourceHandle} :
    h ∈ (Value.record item typeArgs fields).handles ↔ ∃ v ∈ fields, h ∈ v.handles := by
  rw [Value.handles, mem_handlesAll]

theorem mem_handles_variant {item : ItemId} {typeArgs : List Ty} {case : ℕ}
    {payload : List Value} {h : ResourceHandle} :
    h ∈ (Value.variant item typeArgs case payload).handles ↔ ∃ v ∈ payload, h ∈ v.handles := by
  rw [Value.handles, mem_handlesAll]

theorem whole_record {item : ItemId} {typeArgs : List Ty} {fields : List Value} :
    (Value.record item typeArgs fields).whole = true ↔ ∀ v ∈ fields, v.whole = true := by
  rw [Value.whole, wholeAll_eq_true]

theorem whole_variant {item : ItemId} {typeArgs : List Ty} {case : ℕ} {payload : List Value} :
    (Value.variant item typeArgs case payload).whole = true ↔ ∀ v ∈ payload, v.whole = true := by
  rw [Value.whole, wholeAll_eq_true]

/-- An identity a value reaches: one of its handles resolves to it, or a record
one of its handles resolves to reaches it. -/
inductive Reaches (t : ResourceTable) : Value → ResourceId → Prop
  | handle {v : Value} {h : ResourceHandle} {r : ResourceRecord} :
      h ∈ v.handles → t.record h = .ok r → Reaches t v h.id
  | field {v f : Value} {h : ResourceHandle} {r : ResourceRecord} {id : ResourceId} :
      h ∈ v.handles → t.record h = .ok r → f ∈ r.fields → Reaches t f id → Reaches t v id

end Napitia.Interpreter
