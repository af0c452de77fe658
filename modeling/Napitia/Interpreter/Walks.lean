import Napitia.Interpreter.Logic

/-!
# What the planning walks find

Each walk of the planning half is described by the graph it walks: what a
completed walk has collected, and what it has seen about every handle on the
way.
-/
namespace Napitia.Interpreter
open Nir ResourceTable StateT

section Graph
variable {t : ResourceTable} {id : ResourceId}

theorem reaches_resource {h : ResourceHandle} :
    Reaches t (.resource h) id ↔
      ∃ r, t.record h = .ok r ∧ (id = h.id ∨ ∃ f ∈ r.fields, Reaches t f id) := by
  constructor
  · rintro (⟨hh, hr⟩ | ⟨hh, hr, hf, hid⟩)
    · rw [handles_resource, List.mem_singleton] at hh
      exact ⟨_, hh ▸ hr, .inl (hh ▸ rfl)⟩
    · rw [handles_resource, List.mem_singleton] at hh
      exact ⟨_, hh ▸ hr, .inr ⟨_, hf, hid⟩⟩
  · rintro ⟨r, hr, rfl | ⟨f, hf, hid⟩⟩
    · exact .handle (by simp) hr
    · exact .field (by simp) hr hf hid

theorem reaches_parts {v : Value} {parts : List Value}
    (hv : ∀ h, h ∈ v.handles ↔ ∃ w ∈ parts, h ∈ w.handles) :
    Reaches t v id ↔ ∃ w ∈ parts, Reaches t w id := by
  constructor
  · rintro (⟨hh, hr⟩ | ⟨hh, hr, hf, hid⟩)
    · obtain ⟨w, hw, hh⟩ := (hv _).mp hh
      exact ⟨w, hw, .handle hh hr⟩
    · obtain ⟨w, hw, hh⟩ := (hv _).mp hh
      exact ⟨w, hw, .field hh hr hf hid⟩
  · rintro ⟨w, hw, ⟨hh, hr⟩ | ⟨hh, hr, hf, hid⟩⟩
    · exact .handle ((hv _).mpr ⟨w, hw, hh⟩) hr
    · exact .field ((hv _).mpr ⟨w, hw, hh⟩) hr hf hid

theorem reaches_record {item : ItemId} {typeArgs : List Ty} {fields : List Value} :
    Reaches t (.record item typeArgs fields) id ↔ ∃ w ∈ fields, Reaches t w id :=
  reaches_parts fun _ => mem_handles_record

theorem reaches_variant {item : ItemId} {typeArgs : List Ty} {case : ℕ} {payload : List Value} :
    Reaches t (.variant item typeArgs case payload) id ↔ ∃ w ∈ payload, Reaches t w id :=
  reaches_parts fun _ => mem_handles_variant

theorem not_reaches {v : Value} (hv : v.handles = []) : ¬ Reaches t v id := by
  rintro (⟨hh, -⟩ | ⟨hh, -, -, -⟩)
  all_goals
    rw [hv] at hh
    cases hh

end Graph

section Collecting
variable {m : Module} {t : ResourceTable}

/-! ### When a walk completes -/

theorem validate_resource {n : ℕ} {handle : ResourceHandle} {expected : Option Ty}
    {s s' : List ResourceId} :
    (validateValueAgainstTy m t (n + 1) (.resource handle) expected).run s = .ok (⟨⟩, s') ↔
      checkExecutable expected = .ok ⟨⟩ ∧ ∃ r declared, t.record handle = .ok r ∧
        checkDeclaration ("a runtime resource handle names a different declaration than its " ++
          "position declares") expected r.item [] = .ok ⟨⟩ ∧ handle.id ∉ s ∧
        recordFieldTypes m r.item [] = .ok declared ∧ declared.length = r.fields.length ∧
        ((r.fields.zip declared).forM fun p => validateValueAgainstTy m t n p.1 (some p.2)).run
          (s ++ [handle.id]) = .ok (⟨⟩, s') := by
  rw [validateValueAgainstTy]
  simp only [run_bind_eq_ok, run_liftM_eq_ok, run_get_eq_ok, run_set_eq_ok, run_guard_eq_ok]
  constructor
  · rintro ⟨⟨⟩, _, ⟨hexec, rfl⟩, r, _, ⟨hr, rfl⟩, ⟨⟩, _, ⟨hdecl, rfl⟩, _, _, ⟨rfl, rfl⟩, hseen, ⟨⟩, _,
      rfl, declared, _, ⟨htys, rfl⟩, hlen, h⟩
    exact ⟨hexec, r, declared, hr, hdecl, hseen, htys, not_not.mp hlen, h⟩
  · rintro ⟨hexec, r, declared, hr, hdecl, hseen, htys, hlen, h⟩
    exact ⟨⟨⟩, _, ⟨hexec, rfl⟩, r, _, ⟨hr, rfl⟩, ⟨⟩, _, ⟨hdecl, rfl⟩, _, _, ⟨rfl, rfl⟩, hseen, ⟨⟩, _,
      rfl, declared, _, ⟨htys, rfl⟩, not_not.mpr hlen, h⟩

theorem validate_record {n : ℕ} {item : ItemId} {typeArgs : List Ty} {fields : List Value}
    {expected : Option Ty} {s s' : List ResourceId} :
    (validateValueAgainstTy m t (n + 1) (.record item typeArgs fields) expected).run s =
        .ok (⟨⟩, s') ↔
      checkExecutable expected = .ok ⟨⟩ ∧ ∃ declared,
        checkDeclaration ("a runtime record names a different declaration or instantiation " ++
          "than its position declares") expected item typeArgs = .ok ⟨⟩ ∧
        isResource m item = false ∧ recordFieldTypes m item typeArgs = .ok declared ∧
        declared.length = fields.length ∧
        ((fields.zip declared).forM fun p => validateValueAgainstTy m t n p.1 (some p.2)).run s =
          .ok (⟨⟩, s') := by
  rw [validateValueAgainstTy]
  simp only [run_bind_eq_ok, run_liftM_eq_ok, run_guard_eq_ok]
  constructor
  · rintro ⟨⟨⟩, _, ⟨hexec, rfl⟩, ⟨⟩, _, ⟨hdecl, rfl⟩, hitem, declared, _, ⟨htys, rfl⟩, hlen, h⟩
    exact ⟨hexec, declared, hdecl, by simpa using hitem, htys, not_not.mp hlen, h⟩
  · rintro ⟨hexec, declared, hdecl, hitem, htys, hlen, h⟩
    exact ⟨⟨⟩, _, ⟨hexec, rfl⟩, ⟨⟩, _, ⟨hdecl, rfl⟩, by simp [hitem], declared, _, ⟨htys, rfl⟩,
      not_not.mpr hlen, h⟩

theorem validate_variant {n : ℕ} {item : ItemId} {typeArgs : List Ty} {case : ℕ}
    {payload : List Value} {expected : Option Ty} {s s' : List ResourceId} :
    (validateValueAgainstTy m t (n + 1) (.variant item typeArgs case payload) expected).run s =
        .ok (⟨⟩, s') ↔
      checkExecutable expected = .ok ⟨⟩ ∧ ∃ declared,
        checkDeclaration ("a runtime variant names a different declaration or instantiation " ++
          "than its position declares") expected item typeArgs = .ok ⟨⟩ ∧
        casePayloadTypes m item typeArgs case = .ok declared ∧
        declared.length = payload.length ∧
        ((payload.zip declared).forM fun p => validateValueAgainstTy m t n p.1 (some p.2)).run s =
          .ok (⟨⟩, s') := by
  rw [validateValueAgainstTy]
  simp only [run_bind_eq_ok, run_liftM_eq_ok, run_guard_eq_ok]
  constructor
  · rintro ⟨⟨⟩, _, ⟨hexec, rfl⟩, ⟨⟩, _, ⟨hdecl, rfl⟩, declared, _, ⟨htys, rfl⟩, hlen, h⟩
    exact ⟨hexec, declared, hdecl, htys, not_not.mp hlen, h⟩
  · rintro ⟨hexec, declared, hdecl, htys, hlen, h⟩
    exact ⟨⟨⟩, _, ⟨hexec, rfl⟩, ⟨⟩, _, ⟨hdecl, rfl⟩, declared, _, ⟨htys, rfl⟩, not_not.mpr hlen, h⟩

theorem collectOwned_resource {n : ℕ} {handle : ResourceHandle} {s s' : List ResourceId} :
    (collectOwnedIdentities t (n + 1) (.resource handle)).run s = .ok (⟨⟩, s') ↔
      handle.id ∉ s ∧ ∃ r, t.record handle = .ok r ∧
        (r.fields.forM (collectOwnedIdentities t n)).run (s ++ [handle.id]) = .ok (⟨⟩, s') := by
  rw [collectOwnedIdentities]
  simp only [run_bind_eq_ok, run_liftM_eq_ok, run_get_eq_ok, run_set_eq_ok, run_guard_eq_ok]
  constructor
  · rintro ⟨_, _, ⟨rfl, rfl⟩, hseen, ⟨⟩, _, rfl, r, _, ⟨hr, rfl⟩, h⟩
    exact ⟨hseen, r, hr, h⟩
  · rintro ⟨hseen, r, hr, h⟩
    exact ⟨_, _, ⟨rfl, rfl⟩, hseen, ⟨⟩, _, rfl, r, _, ⟨hr, rfl⟩, h⟩

/-- What a walk over a value that collects identities leaves behind: what was
there and what the value reaches, none of which was there. -/
structure Covers (t : ResourceTable) (v : Value) (seen seen' : List ResourceId) : Prop where
  found : ∀ id, id ∈ seen' ↔ id ∈ seen ∨ Reaches t v id
  fresh : ∀ id, Reaches t v id → id ∉ seen

/-- The same for a walk over a list of values. -/
structure CoversAll (t : ResourceTable) (l : List Value) (seen seen' : List ResourceId) :
    Prop where
  found : ∀ id, id ∈ seen' ↔ id ∈ seen ∨ ∃ v ∈ l, Reaches t v id
  fresh : ∀ v ∈ l, ∀ id, Reaches t v id → id ∉ seen

theorem Covers.forM {f : Value → Walk Unit} {l : List Value}
    (hf : ∀ v ∈ l, ∀ s s', (f v).run s = .ok (⟨⟩, s') → Covers t v s s')
    {s s' : List ResourceId} (h : (l.forM f).run s = .ok (⟨⟩, s')) : CoversAll t l s s' := by
  induction l generalizing s with
  | nil =>
    obtain ⟨-, rfl⟩ := run_pure_eq_ok.mp h
    exact ⟨by simp, by simp⟩
  | cons v vs ih =>
    obtain ⟨⟨⟩, u, hu, h⟩ := run_bind_eq_ok.mp h
    have hv := hf v (List.mem_cons_self ..) s u hu
    have hvs := ih (fun w hw => hf w (List.mem_cons_of_mem _ hw)) h
    refine ⟨fun id => ?_, ?_⟩
    · rw [hvs.found, hv.found]
      simp [or_assoc]
    · intro w hw id hid hmem
      rcases List.mem_cons.mp hw with rfl | hw
      · exact hv.fresh id hid hmem
      · exact hvs.fresh w hw id hid ((hv.found id).mpr (.inl hmem))

theorem CoversAll.resource {handle : ResourceHandle} {r : ResourceRecord}
    {s s' : List ResourceId} (hrec : t.record handle = .ok r) (hseen : handle.id ∉ s)
    (h : CoversAll t r.fields (s ++ [handle.id]) s') : Covers t (.resource handle) s s' := by
  refine ⟨fun id => ?_, fun id hid hmem => ?_⟩
  · rw [h.found, reaches_resource, List.mem_append, List.mem_singleton]
    constructor
    · rintro ((hid | hid) | hid)
      · exact .inl hid
      · exact .inr ⟨r, hrec, .inl hid⟩
      · exact .inr ⟨r, hrec, .inr hid⟩
    · rintro (hid | ⟨r', hr', hid⟩)
      · exact .inl (.inl hid)
      · obtain rfl := Except.ok.inj (hrec.symm.trans hr')
        exact hid.elim (fun h => .inl (.inr h)) .inr
  · obtain ⟨r', hr', rfl | ⟨f, hf, hid⟩⟩ := reaches_resource.mp hid
    · exact hseen hmem
    · obtain rfl := Except.ok.inj (hrec.symm.trans hr')
      exact h.fresh f hf id hid (by simp [hmem])

theorem CoversAll.parts {v : Value} {parts : List Value} {s s' : List ResourceId}
    (hv : ∀ id, Reaches t v id ↔ ∃ w ∈ parts, Reaches t w id) (h : CoversAll t parts s s') :
    Covers t v s s' := by
  refine ⟨fun id => by rw [h.found, hv], fun id hid => ?_⟩
  obtain ⟨w, hw, hid⟩ := (hv id).mp hid
  exact h.fresh w hw id hid

theorem collectOwnedIdentities_covers {n : ℕ} {v : Value} {s s' : List ResourceId}
    (h : (collectOwnedIdentities t n v).run s = .ok (⟨⟩, s')) : Covers t v s s' := by
  induction n generalizing v s s' with
  | zero => exact absurd h run_throw_ne_ok
  | succ n ih =>
    cases v with
    | resource handle =>
      obtain ⟨hseen, r, hrec, h⟩ := collectOwned_resource.mp h
      exact (Covers.forM (fun _ _ _ _ => ih) h).resource hrec hseen
    | record item typeArgs fields =>
      exact (Covers.forM (fun _ _ _ _ => ih) h).parts fun _ => reaches_record
    | variant item typeArgs case payload =>
      exact (Covers.forM (fun _ _ _ _ => ih) h).parts fun _ => reaches_variant
    | _ =>
      obtain ⟨-, rfl⟩ := run_pure_eq_ok.mp h
      refine ⟨fun id => ⟨.inl, fun hid => hid.elim (fun h => h) fun hid => ?_⟩, fun id hid => ?_⟩
      · exact absurd hid (not_reaches (by simp [Value.handles]))
      · exact absurd hid (not_reaches (by simp [Value.handles]))

theorem forM_zip_covers {f : Value → Walk Unit} {g : Value × Ty → Walk Unit}
    {values : List Value} {tys : List Ty} (hlen : tys.length = values.length)
    (hfg : ∀ p s s', (g p).run s = .ok (⟨⟩, s') → (f p.1).run s = .ok (⟨⟩, s'))
    {s s' : List ResourceId} (h : ((values.zip tys).forM g).run s = .ok (⟨⟩, s')) :
    (values.forM f).run s = .ok (⟨⟩, s') := by
  induction values generalizing tys s with
  | nil => simpa using h
  | cons v vs ih =>
    cases tys with
    | nil => simp at hlen
    | cons ty tys =>
      rw [List.zip_cons_cons] at h
      obtain ⟨⟨⟩, u, hu, h⟩ := run_bind_eq_ok.mp h
      exact run_bind_eq_ok.mpr ⟨⟨⟩, u, hfg _ _ _ hu, ih (by simpa using hlen) h⟩

/-- A value whose graph was found well formed is walked the same way when what it
owns is collected: no handle is stale and none is met twice. -/
theorem collectOwned_of_validate {n : ℕ} {v : Value} {expected : Option Ty}
    {s s' : List ResourceId}
    (h : (validateValueAgainstTy m t n v expected).run s = .ok (⟨⟩, s')) :
    (collectOwnedIdentities t n v).run s = .ok (⟨⟩, s') := by
  induction n generalizing v expected s s' with
  | zero => exact absurd h run_throw_ne_ok
  | succ n ih =>
    cases v with
    | resource handle =>
      obtain ⟨-, r, declared, hrec, -, hseen, -, hlen, h⟩ := validate_resource.mp h
      exact collectOwned_resource.mpr ⟨hseen, r, hrec, forM_zip_covers hlen (fun _ _ _ => ih) h⟩
    | record item typeArgs fields =>
      obtain ⟨-, declared, -, -, -, hlen, h⟩ := validate_record.mp h
      exact forM_zip_covers hlen (fun _ _ _ => ih) h
    | variant item typeArgs case payload =>
      obtain ⟨-, declared, -, -, hlen, h⟩ := validate_variant.mp h
      exact forM_zip_covers hlen (fun _ _ _ => ih) h
    | _ =>
      obtain ⟨⟨⟩, u, hexec, h⟩ := run_bind_eq_ok.mp h
      obtain ⟨-, rfl⟩ := run_liftM_eq_ok.mp hexec
      obtain ⟨-, rfl⟩ := run_liftM_eq_ok.mp h
      exact run_pure_eq_ok.mpr ⟨rfl, rfl⟩

theorem forM_run_eq {f g : Value → Walk Unit} {l : List Value}
    (hfg : ∀ v s s', (f v).run s = .ok (⟨⟩, s') → (g v).run s = .ok (⟨⟩, s'))
    {s s' : List ResourceId} (h : (l.forM f).run s = .ok (⟨⟩, s')) :
    (l.forM g).run s = .ok (⟨⟩, s') := by
  induction l generalizing s with
  | nil => exact h
  | cons v vs ih =>
    obtain ⟨⟨⟩, u, hu, h⟩ := run_bind_eq_ok.mp h
    exact run_bind_eq_ok.mpr ⟨⟨⟩, u, hfg _ _ _ hu, ih h⟩

/-- Where the stricter walk completes, the one that skips repeats and dead ends
finds the same identities. -/
theorem collectReachable_of_owned {n : ℕ} {v : Value} {s s' : List ResourceId}
    (h : (collectOwnedIdentities t n v).run s = .ok (⟨⟩, s')) :
    (collectReachableResources t n v).run s = .ok (⟨⟩, s') := by
  induction n generalizing v s s' with
  | zero => exact absurd h run_throw_ne_ok
  | succ n ih =>
    cases v with
    | resource handle =>
      obtain ⟨hseen, r, hrec, h⟩ := collectOwned_resource.mp h
      rw [collectReachableResources]
      refine run_bind_eq_ok.mpr ⟨s, s, run_get_eq_ok.mpr ⟨rfl, rfl⟩, ?_⟩
      rw [if_neg hseen]
      refine run_bind_eq_ok.mpr ⟨⟨⟩, _, run_set_eq_ok.mpr rfl, ?_⟩
      rw [hrec]
      exact forM_run_eq (fun _ _ _ => ih) h
    | record item typeArgs fields => exact forM_run_eq (fun _ _ _ => ih) h
    | variant item typeArgs case payload => exact forM_run_eq (fun _ _ _ => ih) h
    | _ => exact h

theorem validateOwnedGraph_eq_ok {v : Value} (h : validateOwnedGraph m t v = .ok ⟨⟩) :
    ∃ seen, (collectOwnedIdentities t Limits.maxGenericDepth v).run [] = .ok (⟨⟩, seen) := by
  unfold validateOwnedGraph at h
  rw [StateT.run'] at h
  obtain ⟨⟨⟨⟩, seen⟩, hrun, -⟩ := Except.map_eq_ok.mp h
  exact ⟨seen, collectOwned_of_validate hrun⟩

end Collecting

section Destroying
variable {m : Module} {t : ResourceTable}

/-- What a destruction adds to its plan is reached by the value destroyed. -/
def DropsReached (t : ResourceTable) (v : Value) (s s' : List ResourceId × List ResourceHandle) :
    Prop :=
  ∀ h ∈ s'.2, h ∈ s.2 ∨ Reaches t v h.id

theorem planDropFields_reaches {planOne : Value → Destroying Unit} {fields : List Value}
    {declared : List Ty} {s s' : List ResourceId × List ResourceHandle}
    (hone : ∀ v s s', (planOne v).run s = .ok (⟨⟩, s') → DropsReached t v s s')
    (h : (planDropFields m planOne fields declared).run s = .ok (⟨⟩, s')) :
    ∀ k ∈ s'.2, k ∈ s.2 ∨ ∃ v ∈ fields, Reaches t v k.id := by
  refine run_forM_induction (R := fun s s' => ∀ k ∈ s'.2, k ∈ s.2 ∨ ∃ v ∈ fields, Reaches t v k.id)
    (fun _ _ hk => .inl hk) (fun h₁ h₂ k hk => ?_) ?_ h
  · rcases h₂ k hk with hk | hk
    · exact h₁ k hk
    · exact .inr hk
  · intro p hp s s' hrun k hk
    have hmem : p.1 ∈ fields := (List.of_mem_zip (List.mem_reverse.mp hp)).1
    split at hrun
    · obtain ⟨-, rfl⟩ := run_pure_eq_ok.mp hrun
      exact .inl hk
    · rcases hone _ _ _ hrun k hk with hk | hk
      · exact .inl hk
      · exact .inr ⟨p.1, hmem, hk⟩

theorem planDrop_reaches {n : ℕ} {v : Value} {s s' : List ResourceId × List ResourceHandle}
    (h : (planDrop m t n v).run s = .ok (⟨⟩, s')) : DropsReached t v s s' := by
  induction n generalizing v s s' with
  | zero => exact absurd h run_throw_ne_ok
  | succ n ih =>
    cases v with
    | resource handle =>
      obtain ⟨-, -, r, declared, u, hr, -, -, hu, rfl⟩ := planDrop_resource.mp h
      intro k hk
      rcases List.mem_append.mp hk with hk | hk
      · rcases planDropFields_reaches (fun _ _ _ => ih) hu k hk with hk | ⟨f, hf, hk⟩
        · exact .inl hk
        · exact .inr (.field (by simp) (observe_eq_ok.mp hr).1 hf hk)
      · obtain rfl := List.mem_singleton.mp hk
        exact .inr (.handle (by simp) (observe_eq_ok.mp hr).1)
    | record item typeArgs fields =>
      obtain ⟨declared, -, -, h⟩ := planDrop_record.mp h
      intro k hk
      exact (planDropFields_reaches (fun _ _ _ => ih) h k hk).imp_right reaches_record.mpr
    | variant item typeArgs case payload =>
      obtain ⟨declared, -, -, h⟩ := planDrop_variant.mp h
      intro k hk
      exact (planDropFields_reaches (fun _ _ _ => ih) h k hk).imp_right reaches_variant.mpr
    | _ => exact absurd h run_throw_ne_ok

end Destroying

section Transferring
variable {m : Module} {t : ResourceTable}

/-- A handle and the handle its planned transfer mints for the same resource. -/
def Reissued (t : ResourceTable) (h k : ResourceHandle) : Prop :=
  h.role = .owner ∧ ∃ r, t.record h = .ok r ∧ r.status = .alive ∧
    k = ⟨h.id, r.generation + 1, .owner, none⟩

/-- What planning a transfer adds to the plan: one transition for each handle the
value carries inline, to the generation of the handle that replaces it, and every
identity those handles reach, none of them there before. -/
structure Moved (t : ResourceTable) (p p' : StorePlan) (before after : List ResourceHandle) :
    Prop where
  transitions : p'.transitions = p.transitions ++ after.map fun k => (k.id, k.generation)
  reissued : List.Forall₂ (Reissued t) before after
  found : ∀ id, id ∈ p'.reachable ↔
    id ∈ p.reachable ∨ ∃ h ∈ before, Reaches t (.resource h) id
  fresh : ∀ h ∈ before, h.id ∉ p.reachable
  nodup : (before.map (·.id)).Nodup

theorem Moved.refl (p : StorePlan) : Moved t p p [] [] :=
  ⟨by simp, .nil, by simp, by simp, by simp⟩

theorem Reissued.reaches {h k : ResourceHandle} (hk : Reissued t h k) :
    Reaches t (.resource h) h.id := by
  obtain ⟨-, r, hr, -, -⟩ := hk
  exact .handle (by simp) hr

theorem Moved.mem_reachable {p p' : StorePlan} {before after : List ResourceHandle}
    (h : Moved t p p' before after) {k : ResourceHandle} (hk : k ∈ before) :
    k.id ∈ p'.reachable := by
  obtain ⟨k', -, hre⟩ := h.reissued.exists_right hk
  exact (h.found k.id).mpr (.inr ⟨k, hk, hre.reaches⟩)

theorem Moved.append {p u p' : StorePlan} {b₁ b₂ a₁ a₂ : List ResourceHandle}
    (h₁ : Moved t p u b₁ a₁) (h₂ : Moved t u p' b₂ a₂) : Moved t p p' (b₁ ++ b₂) (a₁ ++ a₂) where
  transitions := by rw [h₂.transitions, h₁.transitions, List.map_append, List.append_assoc]
  reissued := List.rel_append h₁.reissued h₂.reissued
  found := by
    intro id
    rw [h₂.found, h₁.found]
    simp only [List.mem_append, or_and_right, exists_or, or_assoc]
  fresh := by
    intro h hh hmem
    rcases List.mem_append.mp hh with hh | hh
    · exact h₁.fresh h hh hmem
    · exact h₂.fresh h hh ((h₁.found h.id).mpr (.inl hmem))
  nodup := by
    rw [List.map_append, List.nodup_append]
    refine ⟨h₁.nodup, h₂.nodup, ?_⟩
    intro x hx y hy hxy
    obtain ⟨h, hh, rfl⟩ := List.mem_map.mp hx
    obtain ⟨k, hk, rfl⟩ := List.mem_map.mp hy
    exact h₂.fresh k hk (hxy ▸ h₁.mem_reachable hh)

theorem Moved.mapM {f : Value → Planning Value} {l ws : List Value}
    (hf : ∀ v p p' w, (f v).run p = .ok (w, p') → Moved t p p' v.handles w.handles)
    {p p' : StorePlan} (h : (l.mapM f).run p = .ok (ws, p')) :
    Moved t p p' (Value.handlesAll l) (Value.handlesAll ws) := by
  induction l generalizing p ws with
  | nil =>
    rw [List.mapM_nil] at h
    obtain ⟨rfl, rfl⟩ := run_pure_eq_ok.mp h
    exact .refl _
  | cons v vs ih =>
    rw [List.mapM_cons] at h
    obtain ⟨w, u, hu, h⟩ := run_bind_eq_ok.mp h
    obtain ⟨ws', u', hu', h⟩ := run_bind_eq_ok.mp h
    obtain ⟨rfl, rfl⟩ := run_pure_eq_ok.mp h
    exact (hf _ _ _ _ hu).append (ih hu')

theorem planTransferInner_moved {n : ℕ} {v w : Value} {p p' : StorePlan}
    (h : (planTransferInner m t n v).run p = .ok (w, p')) :
    Moved t p p' v.handles w.handles := by
  induction n generalizing v w p p' with
  | zero => exact absurd h run_throw_ne_ok
  | succ n ih =>
    unfold planTransferInner at h
    cases v with
    | resource handle =>
      obtain ⟨hrole, h⟩ := run_guard_eq_ok.mp h
      obtain ⟨r, u, hr, h⟩ := run_bind_eq_ok.mp h
      obtain ⟨hrec, rfl⟩ := run_liftM_eq_ok.mp hr
      obtain ⟨hstatus, h⟩ := run_guard_eq_ok.mp h
      obtain ⟨plan, u, hget, h⟩ := run_bind_eq_ok.mp h
      obtain ⟨rfl, rfl⟩ := run_get_eq_ok.mp hget
      obtain ⟨hfresh, h⟩ := run_guard_eq_ok.mp h
      obtain ⟨⟨⟨⟩, reachable⟩, u, hcollect, h⟩ := run_bind_eq_ok.mp h
      obtain ⟨hreach, rfl⟩ := run_liftM_eq_ok.mp hcollect
      obtain ⟨_, u, hset, h⟩ := run_bind_eq_ok.mp h
      obtain rfl := run_set_eq_ok.mp hset
      obtain ⟨rfl, rfl⟩ := run_pure_eq_ok.mp h
      have halive : r.status = .alive := by
        cases hs : r.status with
        | alive => rfl
        | dropped => exact absurd hs hstatus
      have hcovers := (Covers.forM (fun _ _ _ _ => collectOwnedIdentities_covers) hreach).resource
        hrec hfresh
      refine ⟨by simp, ?_, by simpa using hcovers.found, by simpa using hfresh, by simp⟩
      rw [handles_resource, handles_resource]
      exact .cons ⟨by simpa using hrole, r, hrec, halive, rfl⟩ .nil
    | record _ _ parts | «variant» _ _ _ parts =>
      obtain ⟨declared, u, hdecl, h⟩ := run_bind_eq_ok.mp h
      obtain ⟨-, rfl⟩ := run_liftM_eq_ok.mp hdecl
      obtain ⟨-, h⟩ := run_guard_eq_ok.mp h
      obtain ⟨ws, u, hmap, h⟩ := run_bind_eq_ok.mp h
      obtain ⟨rfl, rfl⟩ := run_pure_eq_ok.mp h
      simpa only [Value.handles] using Moved.mapM (fun _ _ _ _ => ih) hmap
    | moved => exact absurd h run_throw_ne_ok
    | dropped => exact absurd h run_throw_ne_ok
    | _ =>
      obtain ⟨rfl, rfl⟩ := run_pure_eq_ok.mp h
      simpa [Value.handles] using Moved.refl p

theorem planTransfer_run {v w : Value} {p p' : StorePlan}
    (h : (planTransfer m t v).run p = .ok (w, p')) :
    (planTransferInner m t Limits.maxGenericDepth v).run p = .ok (w, p') ∧
      ∃ what, rejectLeasedIdentities t p'.reachable what = .ok ⟨⟩ := by
  unfold planTransfer at h
  obtain ⟨rebuilt, u, hinner, h⟩ := run_bind_eq_ok.mp h
  obtain ⟨plan, u', hget, h⟩ := run_bind_eq_ok.mp h
  obtain ⟨rfl, rfl⟩ := run_get_eq_ok.mp hget
  obtain ⟨⟨⟩, u', hreject, h⟩ := run_bind_eq_ok.mp h
  obtain ⟨hlease, rfl⟩ := run_liftM_eq_ok.mp hreject
  obtain ⟨rfl, rfl⟩ := run_pure_eq_ok.mp h
  exact ⟨hinner, _, hlease⟩

/-- A planned root: its handles are reissued, and nothing the plan holds by then
is held by an active lease. -/
theorem planTransfer_eq_ok {v w : Value} {p p' : StorePlan}
    (h : (planTransfer m t v).run p = .ok (w, p')) :
    Moved t p p' v.handles w.handles ∧
      ∃ what, rejectLeasedIdentities t p'.reachable what = .ok ⟨⟩ :=
  (planTransfer_run h).imp_left planTransferInner_moved

end Transferring

end Napitia.Interpreter
