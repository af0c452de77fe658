import Napitia.Interpreter.TableLaws

/-!
# Ownership operations are atomic

Each operation asks every fallible question before it writes, and its committing
walk succeeds wherever the planning walk did. The only writes that precede
another step which returns a result are those of a place traversal, whose
write-backs on the way out find every container as the validation found it: the
writes below them change stored fields and nothing else.
-/
namespace Napitia.Interpreter
open Nir EStateM ResourceTable

section Paths
variable {t : ResourceTable} {intent : PathIntent}

theorem validateFinalStep_eq_ok {slot : Value} {observed inResource : Bool} :
    validateFinalStep slot intent observed inResource = .ok ⟨⟩ ↔
      observed = false ∧ (slot.isTombstone = true ↔ intent = .store) := by
  unfold validateFinalStep
  cases intent <;> cases observed <;> cases slot.isTombstone <;>
    simp [throw, throwThe, MonadExceptOf.throw, pure, Except.pure, bind, Except.bind]

/-- One accepted step of a path: the container resolves, and what lies at the
index either is the final slot or carries the rest of the path. -/
theorem validatePlacePath_cons {n : ℕ} {container : Value} {first : Projection}
    {rest : List Projection} {observed : Bool}
    (h : validatePlacePath t intent (n + 1) container (first :: rest) observed = .ok ⟨⟩) :
    ∃ index inner, projectionIndex first = .ok index ∧
      ((∃ handle r, container = .resource handle ∧ t.observe handle = .ok r ∧
          r.fields[index]? = some inner ∧
          (if rest.isEmpty then
            validateFinalStep inner intent (observed || handle.role ≠ .owner) true
          else validatePlacePath t intent n inner rest (observed || handle.role ≠ .owner)) =
            .ok ⟨⟩) ∨
        (∃ item typeArgs fields, container = .record item typeArgs fields ∧
          fields[index]? = some inner ∧
          (if rest.isEmpty then validateFinalStep inner intent observed false
          else validatePlacePath t intent n inner rest observed) = .ok ⟨⟩)) := by
  unfold validatePlacePath at h
  obtain ⟨index, hindex, h⟩ := Except.bind_eq_ok.mp h
  cases container with
  | resource handle =>
    obtain ⟨r, hr, h⟩ := Except.bind_eq_ok.mp h
    cases hf : r.fields[index]? with
    | none => simp [hf, Except.throw_ne_ok] at h
    | some inner =>
      simp only [hf] at h
      exact ⟨index, inner, hindex, .inl ⟨handle, r, rfl, hr, hf, h⟩⟩
  | record item typeArgs fields =>
    dsimp only at h
    cases hf : fields[index]? with
    | none => simp [hf, Except.throw_ne_ok] at h
    | some inner =>
      simp only [hf] at h
      exact ⟨index, inner, hindex, .inr ⟨item, typeArgs, fields, rfl, hf, h⟩⟩
  | _ => exact absurd h Except.throw_ne_ok

theorem validatePlacePath_observed {n : ℕ} {container : Value} {projections : List Projection}
    (h : validatePlacePath t intent n container projections true = .ok ⟨⟩) :
    projections = [] := by
  induction projections generalizing n container with
  | nil => rfl
  | cons first rest ih =>
    cases n with
    | zero => exact absurd h (by unfold validatePlacePath; exact Except.throw_ne_ok)
    | succ n =>
      obtain ⟨index, inner, -, ⟨_, _, -, -, -, h⟩ | ⟨_, _, _, -, -, h⟩⟩ :=
        validatePlacePath_cons h
      all_goals
        cases rest with
        | nil => simp [validateFinalStep_eq_ok] at h
        | cons p ps => exact absurd (ih (by simpa using h)) (by simp)

/-- One accepted step of a path that has crossed no observer. -/
inductive PathStep (t : ResourceTable) (intent : PathIntent) (n : ℕ) (index : ℕ) (inner : Value)
    (rest : List Projection) : Value → Prop
  | resource {handle : ResourceHandle} {r : ResourceRecord} : handle.role = .owner →
      t.observe handle = .ok r → r.fields[index]? = some inner →
      PathStep t intent n index inner rest (.resource handle)
  | record {item : ItemId} {typeArgs : List Ty} {fields : List Value} :
      fields[index]? = some inner →
      PathStep t intent n index inner rest (.record item typeArgs fields)

/-- An accepted path is a final slot the intent allows, or a step followed by an
accepted path. -/
theorem validatePlacePath_step {n : ℕ} {container : Value} {first : Projection}
    {rest : List Projection}
    (h : validatePlacePath t intent (n + 1) container (first :: rest) false = .ok ⟨⟩) :
    ∃ index inner, projectionIndex first = .ok index ∧
      PathStep t intent n index inner rest container ∧
      (rest = [] → (inner.isTombstone = true ↔ intent = .store)) ∧
      (rest ≠ [] → validatePlacePath t intent n inner rest false = .ok ⟨⟩) := by
  obtain ⟨index, inner, hindex, ⟨handle, r, rfl, hr, hf, h⟩ | ⟨_, _, _, rfl, hf, h⟩⟩ :=
    validatePlacePath_cons h
  · have hrole : handle.role = .owner := by
      by_contra hne
      simp only [ne_eq, hne, not_false_eq_true, decide_true, Bool.or_true] at h
      cases rest with
      | nil => simp [validateFinalStep_eq_ok] at h
      | cons p ps => exact absurd (validatePlacePath_observed h) (by simp)
    refine ⟨index, inner, hindex, .resource hrole hr hf, ?_, ?_⟩
    · rintro rfl
      simpa [hrole, validateFinalStep_eq_ok] using h
    · intro hne
      simpa [hrole, List.isEmpty_iff, hne] using h
  · refine ⟨index, inner, hindex, .record hf, ?_, ?_⟩
    · rintro rfl
      simpa [validateFinalStep_eq_ok] using h
    · intro hne
      simpa [List.isEmpty_iff, hne] using h

/-- The slot a path ends in, replaced: the container and the table before, the
container and the table after. -/
inductive Rewrites (t : ResourceTable) (slot slot' : Value) :
    Value → List Projection → Value → ResourceTable → Prop
  | resourceLast {h : ResourceHandle} {r : ResourceRecord} {first : Projection} {index : ℕ} :
      projectionIndex first = .ok index → h.role = .owner → t.observe h = .ok r →
      r.fields[index]? = some slot →
      Rewrites t slot slot' (.resource h) [first] (.resource h) (t.writeField h.id index slot')
  | recordLast {item : ItemId} {typeArgs : List Ty} {fields : List Value} {first : Projection}
      {index : ℕ} : projectionIndex first = .ok index → fields[index]? = some slot →
      Rewrites t slot slot' (.record item typeArgs fields) [first]
        (.record item typeArgs (fields.set index slot')) t
  | resource {h : ResourceHandle} {r : ResourceRecord} {first : Projection} {index : ℕ}
      {rest : List Projection} {inner inner' : Value} {t' : ResourceTable} :
      projectionIndex first = .ok index → h.role = .owner → t.observe h = .ok r →
      r.fields[index]? = some inner → Rewrites t slot slot' inner rest inner' t' →
      Rewrites t slot slot' (.resource h) (first :: rest) (.resource h)
        (t'.writeField h.id index inner')
  | record {item : ItemId} {typeArgs : List Ty} {fields : List Value} {first : Projection}
      {index : ℕ} {rest : List Projection} {inner inner' : Value} {t' : ResourceTable} :
      projectionIndex first = .ok index → fields[index]? = some inner →
      Rewrites t slot slot' inner rest inner' t' →
      Rewrites t slot slot' (.record item typeArgs fields) (first :: rest)
        (.record item typeArgs (fields.set index inner')) t'

theorem ResourceTable.SameShape.restoreField {t' : ResourceTable} (hs : SameShape t t') {handle : ResourceHandle}
    {r : ResourceRecord} {index : ℕ} {inner : Value} (hrole : handle.role = .owner)
    (hr : t.observe handle = .ok r) (hf : r.fields[index]? = some inner) (container : Value) :
    restoreField handle index container t' = .ok ⟨⟩ (t'.writeField handle.id index container) := by
  obtain ⟨r', hr', hlen⟩ := hs.observe hr
  have hlt : index < r'.fields.length := by
    rw [hlen]
    exact (List.getElem?_eq_some_iff.mp hf).choose
  exact restoreField_ok hrole hr' hlt container

section
variable {t' : ResourceTable} {slot slot' container container' : Value}
  {projections : List Projection}

theorem Rewrites.ne_nil (h : Rewrites t slot slot' container projections container' t') :
    projections ≠ [] := by
  cases h <;> exact List.cons_ne_nil _ _

/-- Nothing but stored fields changes. -/
theorem Rewrites.sameShape (h : Rewrites t slot slot' container projections container' t') :
    SameShape t t' := by
  induction h with
  | resourceLast => exact sameShape_writeField _ _ _
  | recordLast => exact .refl t
  | resource _ _ _ _ _ ih => exact ih.trans (sameShape_writeField _ _ _)
  | record _ _ _ ih => exact ih

/-- The slot of an accepted path can be replaced by anything. -/
theorem validatePlacePath_rewrites {n : ℕ} (hne : projections ≠ [])
    (h : validatePlacePath t intent n container projections false = .ok ⟨⟩) :
    ∃ slot : Value, (slot.isTombstone = true ↔ intent = .store) ∧
      ∀ slot', ∃ container' t', Rewrites t slot slot' container projections container' t' := by
  induction projections generalizing n container with
  | nil => exact absurd rfl hne
  | cons first rest ih =>
    cases n with
    | zero => exact absurd h (by unfold validatePlacePath; exact Except.throw_ne_ok)
    | succ n =>
      obtain ⟨index, inner, hindex, hstep, hfinal, hrest⟩ := validatePlacePath_step h
      by_cases hnil : rest = []
      · subst hnil
        refine ⟨inner, hfinal rfl, fun slot' => ?_⟩
        cases hstep with
        | resource hrole hr hf => exact ⟨_, _, .resourceLast hindex hrole hr hf⟩
        | record hf => exact ⟨_, _, .recordLast hindex hf⟩
      · obtain ⟨slot, hslot, hrewrites⟩ := ih hnil (hrest hnil)
        refine ⟨slot, hslot, fun slot' => ?_⟩
        obtain ⟨inner', u, hinner⟩ := hrewrites slot'
        cases hstep with
        | resource hrole hr hf => exact ⟨_, _, .resource hindex hrole hr hf hinner⟩
        | record hf => exact ⟨_, _, .record hindex hf hinner⟩

theorem Rewrites.take (h : Rewrites t slot .moved container projections container' t')
    (hslot : slot.isTombstone = false) :
    commitTakeProjections container projections t = .ok ⟨slot, container'⟩ t' := by
  induction h with
  | resourceLast hindex hrole hr hf =>
    unfold commitTakeProjections
    rw [hindex, bind_of_ok (liftExcept_ok _ t)]
    simp only [List.isEmpty_nil, if_true]
    rw [bind_of_ok (takeField_ok hrole hr hf)]
    simp [hslot]
  | recordLast hindex hf =>
    unfold commitTakeProjections
    rw [hindex, bind_of_ok (liftExcept_ok _ t)]
    simp [hf, hslot]
  | resource hindex hrole hr hf hinner ih =>
    unfold commitTakeProjections
    rw [hindex, bind_of_ok (liftExcept_ok _ t)]
    simp only [List.isEmpty_iff, hinner.ne_nil, if_false]
    rw [bind_of_ok (get_apply t), observeField_owner hrole hr hf,
      bind_of_ok (liftExcept_ok _ t), bind_of_ok ih,
      bind_of_ok (hinner.sameShape.restoreField hrole hr hf _)]
    rfl
  | record hindex hf hinner ih =>
    unfold commitTakeProjections
    rw [hindex, bind_of_ok (liftExcept_ok _ t)]
    simp only [hf, List.isEmpty_iff, hinner.ne_nil, if_false]
    rw [bind_of_ok ih]
    rfl

theorem Rewrites.store (h : Rewrites t slot slot' container projections container' t')
    (hslot : slot.isTombstone = true) :
    commitStoreProjections slot' container projections t = .ok container' t' := by
  induction h with
  | resourceLast hindex hrole hr hf =>
    unfold commitStoreProjections
    rw [hindex, bind_of_ok (liftExcept_ok _ t)]
    simp only [List.isEmpty_nil, if_true]
    rw [bind_of_ok (setField_ok hrole hr hf hslot slot')]
    rfl
  | recordLast hindex hf =>
    unfold commitStoreProjections
    rw [hindex, bind_of_ok (liftExcept_ok _ t)]
    simp [hf, hslot]
  | resource hindex hrole hr hf hinner ih =>
    unfold commitStoreProjections
    rw [hindex, bind_of_ok (liftExcept_ok _ t)]
    simp only [List.isEmpty_iff, hinner.ne_nil, if_false]
    rw [bind_of_ok (get_apply t), observeField_owner hrole hr hf,
      bind_of_ok (liftExcept_ok _ t), bind_of_ok ih,
      bind_of_ok (hinner.sameShape.restoreField hrole hr hf _)]
    rfl
  | record hindex hf hinner ih =>
    unfold commitStoreProjections
    rw [hindex, bind_of_ok (liftExcept_ok _ t)]
    simp only [hf, List.isEmpty_iff, hinner.ne_nil, if_false]
    rw [bind_of_ok ih]
    rfl

/-- The committing walk of a take succeeds wherever its validation did, and empties the slot. -/
theorem commitTake_ok {n : ℕ}
    (hvalid : validatePlacePath t .take n container projections false = .ok ⟨⟩) :
    ∃ result t', commitTakeProjections container projections t = .ok result t' ∧
      ((projections = [] ∧ result = ⟨container, container⟩ ∧ t' = t) ∨
        (result.extracted.isTombstone = false ∧
          Rewrites t result.extracted .moved container projections result.container t')) := by
  by_cases hne : projections = []
  · subst hne
    exact ⟨_, t, rfl, .inl ⟨rfl, rfl, rfl⟩⟩
  · obtain ⟨slot, hslot, hrewrites⟩ := validatePlacePath_rewrites hne hvalid
    obtain ⟨container', t', hrw⟩ := hrewrites .moved
    have hlive : slot.isTombstone = false := by simpa using hslot
    exact ⟨_, t', hrw.take hlive, .inr ⟨hlive, hrw⟩⟩

theorem commitStore_ok {n : ℕ} {value : Value}
    (hvalid : validatePlacePath t .store n container projections false = .ok ⟨⟩) :
    ∃ container' t', commitStoreProjections value container projections t = .ok container' t' ∧
      (projections ≠ [] → ∃ slot, slot.isTombstone = true ∧
        Rewrites t slot value container projections container' t') := by
  by_cases hne : projections = []
  · subst hne
    exact ⟨_, t, rfl, fun h => absurd rfl h⟩
  · obtain ⟨slot, hslot, hrewrites⟩ := validatePlacePath_rewrites hne hvalid
    obtain ⟨container', t', hrw⟩ := hrewrites value
    exact ⟨_, t', hrw.store (hslot.mpr rfl), fun _ => ⟨slot, hslot.mpr rfl, hrw⟩⟩

theorem commitTake_rewrites {n : ℕ} {result : AccessResult}
    (hvalid : validatePlacePath t .take n container projections false = .ok ⟨⟩)
    (h : commitTakeProjections container projections t = .ok result t') :
    (projections = [] ∧ result = ⟨container, container⟩ ∧ t' = t) ∨
      (result.extracted.isTombstone = false ∧
        Rewrites t result.extracted .moved container projections result.container t') := by
  obtain ⟨_, _, hcommit, hcases⟩ := commitTake_ok hvalid
  rw [h] at hcommit
  cases hcommit
  exact hcases

theorem commitStore_rewrites {n : ℕ} {value : Value} (hne : projections ≠ [])
    (hvalid : validatePlacePath t .store n container projections false = .ok ⟨⟩)
    (h : commitStoreProjections value container projections t = .ok container' t') :
    ∃ slot, slot.isTombstone = true ∧ Rewrites t slot value container projections container' t' := by
  obtain ⟨_, _, hcommit, hrewrites⟩ := commitStore_ok hvalid
  rw [h] at hcommit
  cases hcommit
  exact hrewrites hne

end

end Paths

section Drops
variable {m : Module} {t : ResourceTable}

/-- What a planned destruction adds: handles of live resources the frame owns,
each identity once and none that had been reached before. -/
def PlannedDrop (t : ResourceTable) (s s' : List ResourceId × List ResourceHandle) : Prop :=
  ∃ added, s'.2 = s.2 ++ added ∧ (added.map (·.id)).Nodup ∧ s.1 ⊆ s'.1 ∧
    ∀ h ∈ added, h.id ∉ s.1 ∧ h.id ∈ s'.1 ∧ h.role = .owner ∧ ∃ r, t.observe h = .ok r

theorem PlannedDrop.refl (s : List ResourceId × List ResourceHandle) : PlannedDrop t s s :=
  ⟨[], by simp⟩

theorem PlannedDrop.trans {s u v : List ResourceId × List ResourceHandle}
    (h₁ : PlannedDrop t s u) (h₂ : PlannedDrop t u v) : PlannedDrop t s v := by
  obtain ⟨a, ha, hna, hsa, hpa⟩ := h₁
  obtain ⟨b, hb, hnb, hsb, hpb⟩ := h₂
  refine ⟨a ++ b, by rw [hb, ha, List.append_assoc], ?_, fun x hx => hsb (hsa hx), ?_⟩
  · rw [List.map_append, List.nodup_append]
    refine ⟨hna, hnb, ?_⟩
    intro x hx y hy hxy
    obtain ⟨h, hh, rfl⟩ := List.mem_map.mp hx
    obtain ⟨k, hk, rfl⟩ := List.mem_map.mp hy
    exact (hpb k hk).1 (hxy ▸ (hpa h hh).2.1)
  · intro h hh
    rcases List.mem_append.mp hh with hh | hh
    · obtain ⟨h₁, h₂, h₃⟩ := hpa h hh
      exact ⟨h₁, hsb h₂, h₃⟩
    · obtain ⟨h₁, h₂, h₃⟩ := hpb h hh
      exact ⟨fun hs => h₁ (hsa hs), h₂, h₃⟩

theorem PlannedDrop.outer {handle : ResourceHandle} {r : ResourceRecord}
    {seen : List ResourceId} {plan : List ResourceHandle}
    {u : List ResourceId × List ResourceHandle} (hrole : handle.role = .owner)
    (hr : t.observe handle = .ok r) (hseen : handle.id ∉ seen)
    (h : PlannedDrop t (seen ++ [handle.id], plan) u) :
    PlannedDrop t (seen, plan) (u.1, u.2 ++ [handle]) := by
  obtain ⟨a, ha, hna, hsa, hpa⟩ := h
  have hmem : handle.id ∈ u.1 := hsa (by simp)
  refine ⟨a ++ [handle], by simp [ha], ?_, fun x hx => hsa (by simp [hx]), ?_⟩
  · rw [List.map_append, List.nodup_append]
    refine ⟨hna, by simp, ?_⟩
    intro x hx y hy hxy
    obtain ⟨k, hk, rfl⟩ := List.mem_map.mp hx
    simp only [List.map_cons, List.map_nil, List.mem_singleton] at hy
    exact (hpa k hk).1 (by simp [hxy, hy])
  · intro k hk
    rcases List.mem_append.mp hk with hk | hk
    · obtain ⟨h₁, h₂, h₃⟩ := hpa k hk
      exact ⟨fun hs => h₁ (by simp [hs]), h₂, h₃⟩
    · obtain rfl := List.mem_singleton.mp hk
      exact ⟨hseen, hmem, hrole, r, hr⟩

theorem planDropFields_planned {planOne : Value → Destroying Unit} {fields : List Value}
    {declared : List Ty} {s s' : List ResourceId × List ResourceHandle}
    (hone : ∀ v s s', (planOne v).run s = .ok (⟨⟩, s') → PlannedDrop t s s')
    (h : (planDropFields m planOne fields declared).run s = .ok (⟨⟩, s')) :
    PlannedDrop t s s' := by
  refine StateT.run_forM_induction .refl .trans ?_ h
  intro p _ s s' hp
  split at hp
  · obtain ⟨-, rfl⟩ := StateT.run_pure_eq_ok.mp hp
    exact .refl _
  · exact hone _ _ _ hp

theorem planDrop_resource {n : ℕ} {handle : ResourceHandle}
    {s s' : List ResourceId × List ResourceHandle} :
    (planDrop m t (n + 1) (.resource handle)).run s = .ok (⟨⟩, s') ↔
      handle.role = .owner ∧ handle.id ∉ s.1 ∧ ∃ r declared u, t.observe handle = .ok r ∧
        recordFieldTypes m r.item [] = .ok declared ∧ declared.length = r.fields.length ∧
        (planDropFields m (planDrop m t n) r.fields declared).run (s.1 ++ [handle.id], s.2) =
          .ok (⟨⟩, u) ∧ s' = (u.1, u.2 ++ [handle]) := by
  rw [planDrop]
  simp only [StateT.run_bind_eq_ok, StateT.run_liftM_eq_ok, StateT.run_get_eq_ok,
    StateT.run_set_eq_ok, StateT.run_guard_eq_ok]
  constructor
  · rintro ⟨hrole, _, _, ⟨rfl, rfl⟩, hseen, ⟨⟩, _, rfl, r, _, ⟨hr, rfl⟩, declared, _, ⟨htys, rfl⟩, hlen,
      ⟨⟩, u, hu, h⟩
    cases h
    exact ⟨not_not.mp hrole, hseen, r, declared, u, hr, htys, not_not.mp hlen, hu, rfl⟩
  · rintro ⟨hrole, hseen, r, declared, u, hr, htys, hlen, hu, rfl⟩
    exact ⟨not_not.mpr hrole, _, _, ⟨rfl, rfl⟩, hseen, ⟨⟩, _, rfl, r, _, ⟨hr, rfl⟩, declared, _,
      ⟨htys, rfl⟩, not_not.mpr hlen, ⟨⟩, u, hu, rfl⟩

theorem planDrop_record {n : ℕ} {item : ItemId} {typeArgs : List Ty} {fields : List Value}
    {s s' : List ResourceId × List ResourceHandle} :
    (planDrop m t (n + 1) (.record item typeArgs fields)).run s = .ok (⟨⟩, s') ↔
      ∃ declared, recordFieldTypes m item typeArgs = .ok declared ∧
        declared.length = fields.length ∧
        (planDropFields m (planDrop m t n) fields declared).run s = .ok (⟨⟩, s') := by
  rw [planDrop]
  simp only [StateT.run_bind_eq_ok, StateT.run_liftM_eq_ok, StateT.run_guard_eq_ok]
  constructor
  · rintro ⟨declared, _, ⟨htys, rfl⟩, hlen, h⟩
    exact ⟨declared, htys, not_not.mp hlen, h⟩
  · rintro ⟨declared, htys, hlen, h⟩
    exact ⟨declared, _, ⟨htys, rfl⟩, not_not.mpr hlen, h⟩

theorem planDrop_variant {n : ℕ} {item : ItemId} {typeArgs : List Ty} {case : ℕ}
    {payload : List Value} {s s' : List ResourceId × List ResourceHandle} :
    (planDrop m t (n + 1) (.variant item typeArgs case payload)).run s = .ok (⟨⟩, s') ↔
      ∃ declared, casePayloadTypes m item typeArgs case = .ok declared ∧
        declared.length = payload.length ∧
        (planDropFields m (planDrop m t n) payload declared).run s = .ok (⟨⟩, s') := by
  rw [planDrop]
  simp only [StateT.run_bind_eq_ok, StateT.run_liftM_eq_ok, StateT.run_guard_eq_ok]
  constructor
  · rintro ⟨declared, _, ⟨htys, rfl⟩, hlen, h⟩
    exact ⟨declared, htys, not_not.mp hlen, h⟩
  · rintro ⟨declared, htys, hlen, h⟩
    exact ⟨declared, _, ⟨htys, rfl⟩, not_not.mpr hlen, h⟩

theorem planDrop_planned {n : ℕ} {value : Value} {s s' : List ResourceId × List ResourceHandle}
    (h : (planDrop m t n value).run s = .ok (⟨⟩, s')) : PlannedDrop t s s' := by
  induction n generalizing value s s' with
  | zero => exact absurd h StateT.run_throw_ne_ok
  | succ n ih =>
    cases value with
    | resource handle =>
      obtain ⟨hrole, hseen, r, declared, u, hr, -, -, hu, rfl⟩ := planDrop_resource.mp h
      exact (planDropFields_planned (fun _ _ _ => ih) hu).outer hrole hr hseen
    | record item typeArgs fields =>
      obtain ⟨declared, -, -, h⟩ := planDrop_record.mp h
      exact planDropFields_planned (fun _ _ _ => ih) h
    | variant item typeArgs case payload =>
      obtain ⟨declared, -, -, h⟩ := planDrop_variant.mp h
      exact planDropFields_planned (fun _ _ _ => ih) h
    | _ => exact absurd h StateT.run_throw_ne_ok

/-- Handles of distinct live resources are destroyed one after the other without
a refusal. -/
theorem forM_dropResource_sure {plan : List ResourceHandle} {t : ResourceTable}
    (hnodup : (plan.map (·.id)).Nodup)
    (h : ∀ k ∈ plan, k.role = .owner ∧ ∃ r, t.observe k = .ok r) :
    Sure (plan.forM dropResource) t := by
  induction plan generalizing t with
  | nil => exact ⟨⟨⟩, t, rfl⟩
  | cons k plan ih =>
    obtain ⟨hrole, r, hr⟩ := h k (List.mem_cons_self ..)
    rw [List.map_cons, List.nodup_cons] at hnodup
    refine Sure.bind (dropResource_ok hrole hr) (ih hnodup.2 ?_)
    intro j hj
    obtain ⟨hrole', r', hr'⟩ := h j (List.mem_cons_of_mem _ hj)
    refine ⟨hrole', r', setStatus_observe ?_ hr'⟩
    intro heq
    exact hnodup.1 (heq ▸ List.mem_map_of_mem hj)

theorem dropValue_atomic (value : Value) : Atomic (dropValue m value) := by
  intro t
  unfold dropValue
  refine .get_bind (.ask_bind fun _ _ => .get_bind (.ask_bind fun _ _ => .get_bind
    (.ask_bind fun planned hplanned => ?_)))
  obtain ⟨⟨⟩, seen, plan⟩ := planned
  obtain ⟨added, hadded, hnodup, -, hprop⟩ := planDrop_planned hplanned
  obtain rfl : plan = added := by simpa using hadded
  refine (forM_dropResource_sure hnodup fun k hk => ?_).atomicAt
  exact (hprop k hk).2.2

end Drops

section Operations
variable {m : Module} {loadOrigin : LoadOrigin}

theorem withResources_resources (s : FrameState) : s.withResources s.resources = s := rfl

theorem onTable_atomic {α : Type} {x : Op ResourceTable α} {s : FrameState}
    (h : AtomicAt x s.resources) : AtomicAt (onTable x) s :=
  h.zoom (withResources_resources s)

theorem transferIfResource_atomic (value : Value) : Atomic (transferIfResource m value) := by
  intro t
  unfold transferIfResource
  refine .get_bind (.ask_bind fun planned _ => ?_)
  refine Sure.atomicAt (Sure.bind (modify_apply _ t) ?_)
  exact sure_pure _ _

theorem takeProjections_atomic (container : Value) (projections : List Projection) :
    Atomic (takeProjections container projections) := by
  intro t
  unfold takeProjections
  refine .get_bind (.ask_bind fun _ hvalid => ?_)
  obtain ⟨result, t', h, -⟩ := commitTake_ok hvalid
  exact Sure.atomicAt ⟨result, t', h⟩

theorem storeProjections_atomic (container value : Value) (projections : List Projection) :
    Atomic (storeProjections container projections value) := by
  intro t
  unfold storeProjections
  refine .get_bind (.ask_bind fun _ hvalid => ?_)
  obtain ⟨result, t', h, -⟩ := commitStore_ok hvalid
  exact Sure.atomicAt ⟨result, t', h⟩

theorem accessPlace_atomic (place : Place ValueId) (mode : OwnershipMode) :
    Atomic (accessPlace loadOrigin place mode) := by
  intro s
  unfold accessPlace
  refine .get_bind (.ask_bind fun root _ => ?_)
  cases mode with
  | observe => exact .get_bind (.ask_bind fun _ _ => .get_bind (atomicAt_liftExcept _ s))
  | transfer =>
    refine .get_bind (.ask_bind fun _ _ => .get_bind (.ask_bind fun _ _ => ?_))
    refine .bind_sure (onTable_atomic (takeProjections_atomic root place.projections _)) ?_
    intro result s' _
    exact Sure.bind (modify_apply _ s') (sure_pure _ _)

theorem storePlaceTransfer_atomic (place : Place ValueId) (source : ValueId) :
    Atomic (storePlaceTransfer m loadOrigin place source) := by
  intro s
  unfold storePlaceTransfer
  refine .ite (fun _ => atomicAt_throw_bind _ _ _) fun _ => ?_
  refine .get_bind (.ask_bind fun root _ => .get_bind (.ask_bind fun incoming _ => ?_))
  refine .get_bind (.ask_bind fun _ _ => .get_bind (.ask_bind fun planned _ => ?_))
  refine .get_bind (.ask_bind fun _ _ => .get_bind (.ask_bind fun destination _ => ?_))
  refine .get_bind (.ask_bind fun owned _ => ?_)
  refine .ite (fun _ => atomicAt_throw_bind _ _ _) fun _ => ?_
  refine .bind_sure (onTable_atomic (storeProjections_atomic root _ place.projections _)) ?_
  intro updated s' _
  refine Sure.bind (zoom_ok (modify_apply _ _)) ?_
  exact Sure.bind (modify_apply _ _) (Sure.bind (modify_apply _ _) (sure_modify _ _))

theorem decomposeVariant_atomic (value : ValueId) (variant : ItemId) (case : ℕ)
    (taken : List (ℕ × ValueId)) :
    Atomic (decomposeVariant m loadOrigin value variant case taken) := by
  intro s
  unfold decomposeVariant
  refine .get_bind (.ask_bind fun shell _ => ?_)
  cases shell with
  | variant item typeArgs activeCase payload =>
    refine .ite (fun _ => atomicAt_throw_bind _ _ _) fun _ => ?_
    refine .ite (fun _ => atomicAt_throw_bind _ _ _) fun _ => ?_
    refine .get_bind (.ask_bind fun _ _ => .ask_bind fun _ _ => .get_bind (.ask_bind fun _ _ => ?_))
    exact (sure_modify _ s).atomicAt
  | _ => exact atomicAt_throw _ s

theorem beginObserve_atomic (observation : ObservationId) (place : Place ValueId)
    (declared : Ty) : Atomic (beginObserve m loadOrigin observation place declared) := by
  intro s
  unfold beginObserve
  refine .get_bind (.ite (fun _ => atomicAt_throw_bind _ _ _) fun _ => ?_)
  refine .get_bind (.ask_bind fun root _ => .get_bind (.ask_bind fun seen _ => ?_))
  refine .get_bind (.ask_bind fun _ _ => .get_bind (.ask_bind fun _ _ => ?_))
  refine .get_bind (.ask_bind fun observed _ => .get_bind (.get_bind (.ask_bind fun view _ => ?_)))
  refine .get_bind ?_
  refine (Sure.bind (zoom_ok (commitLease_ok _ _)) ?_).atomicAt
  exact Sure.bind (modify_apply _ _) (sure_pure _ _)

theorem endObserve_atomic (observation : ObservationId) : Atomic (endObserve observation) := by
  intro s
  unfold endObserve
  refine .get_bind ?_
  split
  · refine .ite (fun _ => ?_) fun _ => atomicAt_throw _ s
    refine .bind_sure (onTable_atomic (endLease_atomic _ _)) ?_
    exact fun _ s' _ => sure_modify _ s'
  · exact atomicAt_throw _ s

theorem bindParameters_atomic (request : CallRequest) : Atomic (bindParameters m request) := by
  intro s
  unfold bindParameters
  refine .ite (fun _ => atomicAt_throw_bind _ _ _) fun _ => ?_
  refine .ite (fun _ => atomicAt_throw_bind _ _ _) fun _ => ?_
  split
  · exact atomicAt_throw _ s
  · refine .get_bind (.ask_bind fun planned _ => ?_)
    dsimp only
    split
    · exact atomicAt_throw_bind _ _ s
    · refine .ite (fun _ => atomicAt_throw_bind _ _ _) fun _ => ?_
      refine Sure.atomicAt (Sure.bind (modify_apply _ s) ?_)
      exact sure_pure _ _

variable {ctx : FrameContext}

theorem exitTransfer_atomic (verb : String) (value : Value) :
    Atomic (exitTransfer m ctx verb value) := by
  intro s
  unfold exitTransfer
  refine .get_bind (.ask_bind fun planned _ => .get_bind ?_)
  dsimp only
  split
  · exact atomicAt_throw_bind _ _ s
  · refine Sure.atomicAt (Sure.bind (zoom_ok (modify_apply _ _)) ?_)
    exact sure_pure _ _

theorem exitReturn_atomic (id : Option ValueId) : Atomic (exitReturn m ctx id) := by
  intro s
  unfold exitReturn
  cases id with
  | some id =>
    exact .get_bind (.ask_bind fun value _ => .get_bind (.ask_bind fun _ _ =>
      exitTransfer_atomic "returned" value s))
  | none =>
    refine .get_bind (.get_bind ?_)
    split
    · exact atomicAt_throw _ s
    · exact (sure_pure _ s).atomicAt

theorem exitRaise_atomic (id : ValueId) : Atomic (exitRaise m ctx id) := by
  intro s
  unfold exitRaise
  exact .get_bind (.ask_bind fun value _ => exitTransfer_atomic "raised" value s)

end Operations

/-- A refused ownership operation leaves everything it can write exactly as it
found it: the resource table with its statuses, generations and fields, the lease
table, the active list, and the frame's values. -/
theorem ownership_operations_atomic (m : Module) (loadOrigin : LoadOrigin) (ctx : FrameContext) :
    (∀ place source, Atomic (storePlaceTransfer m loadOrigin place source)) ∧
    (∀ place mode, Atomic (accessPlace loadOrigin place mode)) ∧
    (∀ value variant case taken,
      Atomic (decomposeVariant m loadOrigin value variant case taken)) ∧
    (∀ value, Atomic (dropValue m value)) ∧
    (∀ value, Atomic (transferIfResource m value)) ∧
    (∀ observation place declared,
      Atomic (beginObserve m loadOrigin observation place declared)) ∧
    (∀ observation, Atomic (endObserve observation)) ∧
    (∀ request, Atomic (bindParameters m request)) ∧
    (∀ id, Atomic (exitReturn m ctx id)) ∧
    (∀ id, Atomic (exitRaise m ctx id)) :=
  ⟨storePlaceTransfer_atomic, accessPlace_atomic, decomposeVariant_atomic, dropValue_atomic,
    transferIfResource_atomic, beginObserve_atomic, endObserve_atomic, bindParameters_atomic,
    exitReturn_atomic, exitRaise_atomic⟩

end Napitia.Interpreter
