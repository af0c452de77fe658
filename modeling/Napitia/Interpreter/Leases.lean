import Napitia.Interpreter.Views

/-!
# Leases freeze what they observe

An active lease names the identities it holds, and every ownership operation
asks whether anything it moves is among them. `LeaseInv` is what makes that
enough: what a lease holds is alive and whole, and its stored handles lead to
nothing the lease does not hold as well. The one operation that escapes is a
transferring place read whose value carries no handle: it asks about the value
and writes to the storage the value came from.
-/
namespace Napitia.Interpreter
open Nir EStateM ResourceTable

section Leases
variable {t t' : ResourceTable}

/-- The lease is open in this table. -/
def ResourceTable.Holds (t : ResourceTable) (id : RuntimeObservationId)
    (lease : RuntimeObservation) : Prop :=
  t.leases[id.index]? = some lease ∧ lease.status = .active

/-- Some open lease holds the resource. -/
def ResourceTable.Leased (t : ResourceTable) (resource : ResourceId) : Prop :=
  ∃ id lease, t.Holds id lease ∧ resource ∈ lease.observed

/-- The resource is alive and whole, and stores nothing that is not observed. -/
def Sealed (t : ResourceTable) (observed : List ResourceId) (id : ResourceId) : Prop :=
  ∃ r, t.records[id.index]? = some r ∧ r.status = .alive ∧
    ∀ f ∈ r.fields, f.whole = true ∧ ∀ h ∈ f.handles, h.id ∈ observed

/-- Everything observed is sealed by what is observed. -/
def Intact (t : ResourceTable) (observed : List ResourceId) : Prop :=
  ∀ id ∈ observed, Sealed t observed id

/-- Stored handles belong to an owner, so that no lease is part of a record. -/
def StoredFree (t : ResourceTable) : Prop :=
  ∀ r ∈ t.records, ∀ f ∈ r.fields, ∀ h ∈ f.handles, h.lease = none

/-- What every table of a run satisfies. -/
structure LeaseInv (t : ResourceTable) : Prop where
  active : ∀ id, id ∈ t.active ↔ ∃ lease, t.Holds id lease
  nodup : t.active.Nodup
  stored : StoredFree t
  intact : ∀ id lease, t.Holds id lease → Intact t lease.observed

theorem leaseInv_empty : LeaseInv {} where
  active := by simp [Holds]
  nodup := List.nodup_nil
  stored := by simp [StoredFree]
  intact := by simp [Holds]

theorem LeaseInv.not_leased (inv : LeaseInv t) {resource : ResourceId}
    (h : t.activeLeaseHolding resource = none) : ¬ t.Leased resource := by
  rintro ⟨id, lease, hholds, hmem⟩
  rw [activeLeaseHolding, Option.map_eq_none_iff, List.find?_eq_none] at h
  refine h lease ?_ (by simpa using hmem)
  rw [openLeases, List.mem_filterMap]
  exact ⟨id, (inv.active id).mpr ⟨lease, hholds⟩, hholds.1⟩

theorem LeaseInv.rejected (inv : LeaseInv t) {ids : List ResourceId} {what : String}
    (h : rejectLeasedIdentities t ids what = .ok ⟨⟩) {id : ResourceId} (hid : id ∈ ids) :
    ¬ t.Leased id := by
  have hone := Except.forM_eq_ok.mp h id ((List.mem_insertionSort _).mpr hid)
  refine inv.not_leased ?_
  cases hlease : t.activeLeaseHolding id with
  | none => rfl
  | some lease => simp [hlease, Except.throw_ne_ok] at hone

/-- An operation that leaves the leases and everything they hold alone. -/
structure Keeps (t t' : ResourceTable) : Prop where
  leases : t'.leases = t.leases
  active : t'.active = t.active
  leased : ∀ id, t.Leased id → t'.records[id.index]? = t.records[id.index]?
  stored : StoredFree t → StoredFree t'

theorem Keeps.refl (t : ResourceTable) : Keeps t t := ⟨rfl, rfl, fun _ _ => rfl, id⟩

theorem Keeps.holds (h : Keeps t t') {id : RuntimeObservationId} {lease : RuntimeObservation} :
    t'.Holds id lease ↔ t.Holds id lease := by
  unfold Holds
  rw [h.leases]

theorem Keeps.trans {u : ResourceTable} (h₁ : Keeps t t') (h₂ : Keeps t' u) : Keeps t u where
  leases := h₂.leases.trans h₁.leases
  active := h₂.active.trans h₁.active
  leased := by
    rintro id ⟨i, lease, hholds, hmem⟩
    rw [h₂.leased id ⟨i, lease, h₁.holds.mpr hholds, hmem⟩,
      h₁.leased id ⟨i, lease, hholds, hmem⟩]
  stored := fun h => h₂.stored (h₁.stored h)

theorem Intact.of_records {observed : List ResourceId} (h : Intact t observed)
    (hsame : ∀ id ∈ observed, t'.records[id.index]? = t.records[id.index]?) :
    Intact t' observed := by
  intro id hid
  obtain ⟨r, hr, halive, hfields⟩ := h id hid
  exact ⟨r, (hsame id hid).trans hr, halive, hfields⟩

theorem LeaseInv.keeps (inv : LeaseInv t) (h : Keeps t t') : LeaseInv t' where
  active := by
    intro id
    rw [h.active, inv.active]
    simp only [h.holds]
  nodup := h.active ▸ inv.nodup
  stored := h.stored inv.stored
  intact := by
    intro id lease hholds
    have hholds := h.holds.mp hholds
    exact (inv.intact id lease hholds).of_records fun r hr => h.leased r ⟨id, lease, hholds, hr⟩

end Leases

section Operations
variable {m : Module} {t t' : ResourceTable}

theorem keeps_commitTransfer {plan : StorePlan}
    (h : ∀ id ∈ plan.transitions.map (·.1), ¬ t.Leased id) : Keeps t (t.commitTransfer plan) where
  leases := commitTransfer_leases plan
  active := commitTransfer_active plan
  leased := fun id hid => commitTransfer_records_of_not_mem fun hmem => h id hmem hid
  stored := by
    intro hstored r hr f hf k hk
    obtain ⟨j, hj⟩ := List.mem_iff_getElem?.mp hr
    obtain ⟨bump, hbump, -⟩ := commitTransfer_records (t := t) plan j
    rw [hbump] at hj
    obtain ⟨r', hr', rfl⟩ := Option.map_eq_some_iff.mp hj
    exact hstored r' (List.mem_of_getElem? hr') f hf k hk

/-- The plan holds nothing some lease holds. -/
def Unleased (t : ResourceTable) (plan : StorePlan) : Prop :=
  ∀ id ∈ plan.transitions.map (·.1), ¬ t.Leased id

theorem Unleased.keeps {plan : StorePlan} (h : Unleased t plan) :
    Keeps t (t.commitTransfer plan) :=
  keeps_commitTransfer h

theorem unleased_empty : Unleased t {} := by
  simp [Unleased]

theorem Moved.unleased (inv : LeaseInv t) {p p' : StorePlan} {before after : List ResourceHandle}
    (h : Moved t p p' before after) {what : String}
    (hlease : rejectLeasedIdentities t p'.reachable what = .ok ⟨⟩) (hp : Unleased t p) :
    Unleased t p' := by
  intro id hid
  rw [h.transitions, List.map_append, List.mem_append] at hid
  rcases hid with hid | hid
  · exact hp id hid
  · obtain ⟨q, hq, rfl⟩ := List.mem_map.mp hid
    obtain ⟨k, hk, rfl⟩ := List.mem_map.mp hq
    obtain ⟨h', hh', -, r, -, -, rfl⟩ := h.reissued.exists_left hk
    exact inv.rejected hlease (h.mem_reachable hh')

theorem Moved.free {p p' : StorePlan} {before after : List ResourceHandle}
    (h : Moved t p p' before after) : ∀ k ∈ after, k.lease = none := by
  intro k hk
  obtain ⟨_, -, -, _, -, -, rfl⟩ := h.reissued.exists_left hk
  rfl

theorem planTransfer_unleased (inv : LeaseInv t) {v w : Value} {p p' : StorePlan}
    (h : (planTransfer m t v).run p = .ok (w, p')) (hp : Unleased t p) : Unleased t p' := by
  obtain ⟨hmoved, what, hlease⟩ := planTransfer_eq_ok h
  exact hmoved.unleased inv hlease hp

theorem planTransfer_free {v w : Value} {p p' : StorePlan}
    (h : (planTransfer m t v).run p = .ok (w, p')) : ∀ k ∈ w.handles, k.lease = none :=
  (planTransfer_eq_ok h).1.free

theorem mapM_planTransfer (inv : LeaseInv t) {vs ws : List Value} {p p' : StorePlan}
    (h : (vs.mapM (planTransfer m t)).run p = .ok (ws, p')) :
    (Unleased t p → Unleased t p') ∧ ∀ w ∈ ws, ∀ k ∈ w.handles, k.lease = none := by
  obtain ⟨hplan, hfree⟩ := StateT.run_mapM_induction
    (R := fun p p' => Unleased t p → Unleased t p') (P := fun _ w => ∀ k ∈ w.handles, k.lease = none)
    (fun _ => id) (fun h₁ h₂ hp => h₂ (h₁ hp))
    (fun v _ p p' w hv => ⟨planTransfer_unleased inv hv, planTransfer_free hv⟩) h
  refine ⟨hplan, fun w hw => ?_⟩
  obtain ⟨v, -, hfree⟩ := hfree.exists_left hw
  exact hfree

theorem keeps_construct (inv : LeaseInv t) {item : ItemId} {fields : List Value}
    (hfree : ∀ f ∈ fields, ∀ k ∈ f.handles, k.lease = none) :
    Keeps t (t.construct item fields).2 where
  leases := rfl
  active := rfl
  leased := by
    rintro id ⟨i, lease, hholds, hmem⟩
    obtain ⟨r, hr, -⟩ := inv.intact i lease hholds id hmem
    exact List.getElem?_append_left (List.getElem?_eq_some_iff.mp hr).choose
  stored := by
    intro hstored r hr f hf k hk
    rcases List.mem_append.mp hr with hr | hr
    · exact hstored r hr f hf k hk
    · obtain rfl := List.mem_singleton.mp hr
      exact hfree f hf k hk

theorem foldl_setStatus_records {plan : List ResourceHandle} {id : ResourceId}
    (h : ∀ k ∈ plan, k.id ≠ id) :
    (plan.foldl (fun t k => t.setStatus k.id .dropped) t).records[id.index]? =
      t.records[id.index]? := by
  induction plan generalizing t with
  | nil => rfl
  | cons k plan ih =>
    rw [List.foldl_cons, ih fun j hj => h j (List.mem_cons_of_mem _ hj), setStatus_records, if_neg]
    intro hi
    exact h k (List.mem_cons_self ..) (by cases hk : k.id; cases id; simp_all)

theorem keeps_foldl_setStatus {plan : List ResourceHandle}
    (h : ∀ k ∈ plan, ¬ t.Leased k.id) :
    Keeps t (plan.foldl (fun t k => t.setStatus k.id .dropped) t) where
  leases := by
    clear h
    induction plan generalizing t with
    | nil => rfl
    | cons k plan ih => exact ih
  active := by
    clear h
    induction plan generalizing t with
    | nil => rfl
    | cons k plan ih => exact ih
  leased := by
    intro id hid
    exact foldl_setStatus_records fun k hk heq => h k hk (heq ▸ hid)
  stored := by
    clear h
    induction plan generalizing t with
    | nil => exact id
    | cons k plan ih =>
      intro hstored
      refine ih ?_
      intro r hr f hf j hj
      obtain ⟨i, hi⟩ := List.mem_iff_getElem?.mp hr
      rw [setStatus_records] at hi
      split at hi
      · obtain ⟨r', hr', rfl⟩ := Option.map_eq_some_iff.mp hi
        exact hstored r' (List.mem_of_getElem? hr') f hf j hj
      · exact hstored r (List.mem_of_getElem? hi) f hf j hj

theorem keeps_dropValue (inv : LeaseInv t) {v : Value} (h : dropValue m v t = .ok ⟨⟩ t') :
    Keeps t t' := by
  obtain ⟨seen, plan, hgraph, hlease, hplan, rfl⟩ := dropValue_eq_ok h
  refine keeps_foldl_setStatus fun k hk => ?_
  obtain ⟨reached, howned⟩ := validateOwnedGraph_eq_ok hgraph
  obtain ⟨⟨⟨⟩, reached'⟩, hrun, hreject⟩ := Except.bind_eq_ok.mp hlease
  rw [collectReachable_of_owned howned] at hrun
  cases hrun
  rcases planDrop_reaches hplan k hk with hk | hk
  · cases hk
  · exact inv.rejected hreject (((collectOwnedIdentities_covers howned).found _).mpr (.inr hk))

theorem Rewrites.keeps {slot slot' container container' : Value}
    {projections : List Projection}
    (h : Rewrites t slot slot' container projections container' t')
    (hfree : ∀ k ∈ slot'.handles, k.lease = none)
    (howner : ∀ k, innerOwner t container projections = some k → ¬ t.Leased k.id) :
    Keeps t t' where
  leases := h.leases.1
  active := h.leases.2
  leased := by
    intro id hid
    cases hin : innerOwner t container projections with
    | none => rw [h.frame.1 hin]
    | some k =>
      refine (h.frame.2 k hin).2 id.index fun hi => howner k hin ?_
      have hk : k.id = id := by cases hk : k.id; cases id; simp_all
      exact hk ▸ hid
  stored := fun hstored => (h.stored hstored hfree).1

theorem Rewrites.not_leased (inv : LeaseInv t) {slot slot' container container' : Value}
    {projections : List Projection}
    (h : Rewrites t slot slot' container projections container' t')
    (htomb : slot.isTombstone = true) {k : ResourceHandle}
    (hk : innerOwner t container projections = some k) : ¬ t.Leased k.id := by
  rintro ⟨i, lease, hholds, hmem⟩
  obtain ⟨r, hr, -, hfields⟩ := inv.intact i lease hholds k.id hmem
  obtain ⟨r', hr', f, hf, hwhole⟩ := (h.not_whole htomb).2 k hk
  obtain rfl := Option.some.inj (hr.symm.trans (observe_record hr'))
  rw [(hfields f hf).1] at hwhole
  cases hwhole

end Operations

section Observing
variable {m : Module} {t t' : ResourceTable}

theorem Sealed.mono {observed observed' : List ResourceId} {id : ResourceId}
    (h : Sealed t observed id) (hsub : observed ⊆ observed') : Sealed t observed' id := by
  obtain ⟨r, hr, halive, hfields⟩ := h
  exact ⟨r, hr, halive, fun f hf => ⟨(hfields f hf).1, fun k hk => hsub ((hfields f hf).2 k hk)⟩⟩

/-- A stretch of the collecting walk: everything it added is sealed. -/
def Seals (t : ResourceTable) (seen seen' : List ResourceId) : Prop :=
  seen ⊆ seen' ∧ ∀ id ∈ seen', id ∈ seen ∨ Sealed t seen' id

theorem Seals.refl (seen : List ResourceId) : Seals t seen seen :=
  ⟨List.Subset.refl _, fun _ h => .inl h⟩

theorem Seals.trans {s u v : List ResourceId} (h₁ : Seals t s u) (h₂ : Seals t u v) :
    Seals t s v := by
  refine ⟨List.Subset.trans h₁.1 h₂.1, fun id hid => ?_⟩
  rcases h₂.2 id hid with hid | hid
  · exact (h₁.2 id hid).imp_right fun h => h.mono h₂.1
  · exact .inr hid

/-- What a value accepted for observation has been collected for. -/
def Shown (v : Value) (seen : List ResourceId) : Prop :=
  v.whole = true ∧ ∀ h ∈ v.handles, h.id ∈ seen

theorem collectReachable_forM_seals {n : ℕ} {l : List Value} {s s' : List ResourceId}
    (hone : ∀ v ∈ l, ∀ s s', (collectReachableResources t n v).run s = .ok (⟨⟩, s') →
      Seals t s s' ∧ Shown v s')
    (h : (l.forM (collectReachableResources t n)).run s = .ok (⟨⟩, s')) :
    Seals t s s' ∧ ∀ v ∈ l, Shown v s' :=
  StateT.run_forM_covers .refl .trans (fun hQ hR => ⟨hQ.1, fun k hk => hR.1 (hQ.2 k hk)⟩) hone h

theorem collectReachable_seals {n : ℕ} {v : Value} {s s' : List ResourceId}
    (hvalid : validateObservationSource t n v = .ok ⟨⟩)
    (h : (collectReachableResources t n v).run s = .ok (⟨⟩, s')) : Seals t s s' ∧ Shown v s' := by
  induction n generalizing v s s' with
  | zero => exact absurd h StateT.run_throw_ne_ok
  | succ n ih =>
    unfold collectReachableResources at h
    unfold validateObservationSource at hvalid
    cases v with
    | resource handle =>
      obtain ⟨r, hr, hfields⟩ := Except.bind_eq_ok.mp hvalid
      obtain ⟨hrec, halive⟩ := observe_eq_ok.mp hr
      obtain ⟨seen, u, hget, h⟩ := StateT.run_bind_eq_ok.mp h
      obtain ⟨rfl, rfl⟩ := StateT.run_get_eq_ok.mp hget
      split at h
      · obtain ⟨-, rfl⟩ := StateT.run_pure_eq_ok.mp h
        exact ⟨.refl _, by simp [Value.whole], by simpa⟩
      · obtain ⟨_, u, hset, h⟩ := StateT.run_bind_eq_ok.mp h
        obtain rfl := StateT.run_set_eq_ok.mp hset
        rw [hrec] at h
        obtain ⟨hseals, hshown⟩ := collectReachable_forM_seals
          (fun f hf _ _ => ih (Except.forM_eq_ok.mp hfields f hf)) h
        refine ⟨⟨fun x hx => hseals.1 (by simp [hx]), fun id hid => ?_⟩, by simp [Value.whole], ?_⟩
        · rcases hseals.2 id hid with hid | hid
          · rcases List.mem_append.mp hid with hid | hid
            · exact .inl hid
            · obtain rfl := List.mem_singleton.mp hid
              exact .inr ⟨r, (record_eq_ok.mp hrec).2.1, halive, hshown⟩
          · exact .inr hid
        · intro k hk
          rw [handles_resource, List.mem_singleton] at hk
          exact hseals.1 (by simp [hk])
    | record item typeArgs fields =>
      obtain ⟨hseals, hshown⟩ := collectReachable_forM_seals
        (fun f hf _ _ => ih (Except.forM_eq_ok.mp hvalid f hf)) h
      refine ⟨hseals, whole_record.mpr fun f hf => (hshown f hf).1, fun k hk => ?_⟩
      obtain ⟨f, hf, hk⟩ := mem_handles_record.mp hk
      exact (hshown f hf).2 k hk
    | variant item typeArgs case payload =>
      obtain ⟨hseals, hshown⟩ := collectReachable_forM_seals
        (fun f hf _ _ => ih (Except.forM_eq_ok.mp hvalid f hf)) h
      refine ⟨hseals, whole_variant.mpr fun f hf => (hshown f hf).1, fun k hk => ?_⟩
      obtain ⟨f, hf, hk⟩ := mem_handles_variant.mp hk
      exact (hshown f hf).2 k hk
    | moved => exact absurd hvalid Except.throw_ne_ok
    | dropped => exact absurd hvalid Except.throw_ne_ok
    | _ =>
      obtain ⟨-, rfl⟩ := StateT.run_pure_eq_ok.mp h
      exact ⟨.refl _, by simp [Value.whole], by simp [Value.handles]⟩

/-- The table with one more lease open. -/
def ResourceTable.opened (t : ResourceTable) (lease : RuntimeObservation) : ResourceTable :=
  { t with leases := t.leases ++ [lease], active := t.active ++ [t.reservedLeaseId] }

/-- The table with one lease ended. -/
def ResourceTable.closed (t : ResourceTable) (id : RuntimeObservationId) : ResourceTable :=
  { t.setLeaseStatus id .ended with active := t.active.filter (· ≠ id) }

theorem opened_holds {lease : RuntimeObservation} (hactive : lease.status = .active)
    {id : RuntimeObservationId} {l : RuntimeObservation} :
    (t.opened lease).Holds id l ↔ t.Holds id l ∨ (id = t.reservedLeaseId ∧ l = lease) := by
  unfold Holds opened reservedLeaseId
  rw [List.getElem?_append]
  by_cases hlt : id.index < t.leases.length
  · have hne : id ≠ ⟨t.leases.length⟩ := by
      rintro rfl
      exact absurd hlt (lt_irrefl _)
    simp [hlt, hne]
  · rw [if_neg hlt]
    have hnone : t.leases[id.index]? = none := List.getElem?_eq_none (not_lt.mp hlt)
    rw [hnone]
    simp only [reduceCtorEq, false_and, false_or]
    constructor
    · rintro ⟨hl, -⟩
      obtain ⟨hi, rfl⟩ := List.getElem?_eq_some_iff.mp hl
      have hi : id.index - t.leases.length < 1 := hi
      refine ⟨?_, by simp⟩
      cases id
      simp_all
      omega
    · rintro ⟨rfl, rfl⟩
      exact ⟨by simp, hactive⟩

theorem LeaseInv.opened (inv : LeaseInv t) {lease : RuntimeObservation}
    (hactive : lease.status = .active) (hintact : Intact t lease.observed) :
    LeaseInv (t.opened lease) where
  active := by
    intro id
    have hmem : id ∈ (t.opened lease).active ↔ id ∈ t.active ∨ id = t.reservedLeaseId := by
      simp [ResourceTable.opened]
    rw [hmem, inv.active]
    simp only [opened_holds hactive, exists_or, exists_and_left, exists_eq, and_true]
  nodup := by
    refine List.nodup_append.mpr ⟨inv.nodup, by simp, ?_⟩
    intro a ha b hb hab
    obtain rfl := List.mem_singleton.mp hb
    obtain ⟨l, hl, -⟩ := (inv.active a).mp ha
    have hlt := (List.getElem?_eq_some_iff.mp hl).choose
    rw [hab] at hlt
    exact absurd hlt (lt_irrefl _)
  stored := inv.stored
  intact := by
    intro id l hholds
    rcases (opened_holds hactive).mp hholds with h | ⟨-, rfl⟩
    · exact inv.intact id l h
    · exact hintact

theorem closed_leases {id : RuntimeObservationId} (i : ℕ) :
    (t.closed id).leases[i]? = if id.index = i then
      (t.leases[i]?).map fun l => { l with status := .ended } else t.leases[i]? := by
  unfold closed setLeaseStatus
  rw [List.getElem?_modify]
  split
  · rfl
  · exact Option.map_id'

theorem closed_holds {id i : RuntimeObservationId} {l : RuntimeObservation} :
    (t.closed id).Holds i l ↔ t.Holds i l ∧ i ≠ id := by
  unfold Holds
  rw [closed_leases]
  split
  · rename_i hi
    have heq : i = id := by cases i; cases id; simp_all
    simp only [heq, ne_eq, not_true_eq_false, and_false, iff_false]
    rintro ⟨hl, hs⟩
    obtain ⟨l', -, rfl⟩ := Option.map_eq_some_iff.mp hl
    cases hs
  · rename_i hi
    have hne : i ≠ id := fun h => hi (h ▸ rfl)
    simp [hne]

theorem LeaseInv.closed (inv : LeaseInv t) (id : RuntimeObservationId) :
    LeaseInv (t.closed id) where
  active := by
    intro i
    have hmem : i ∈ (t.closed id).active ↔ i ∈ t.active ∧ i ≠ id := by
      simp [ResourceTable.closed]
    rw [hmem, inv.active]
    simp only [closed_holds, exists_and_right]
  nodup := inv.nodup.filter _
  stored := inv.stored
  intact := fun i l h => inv.intact i l (closed_holds.mp h).1

end Observing

section Frames
variable {m : Module} {fpu : FloatUnit} {t₀ t t' : ResourceTable}
  {own : List RuntimeObservationId}

/-- What has become of a table since a frame was entered with it: the leases that
were there are untouched and what they hold is frozen, and those opened since and
still open are `own`. -/
structure Since (t₀ t : ResourceTable) (own : List RuntimeObservationId) : Prop where
  inv : LeaseInv t
  active : t.active = t₀.active ++ own
  grows : t₀.leases.length ≤ t.leases.length
  older : ∀ i < t₀.leases.length, t.leases[i]? = t₀.leases[i]?
  newer : ∀ id ∈ own, t₀.leases.length ≤ id.index
  frozen : ∀ id, t₀.Leased id → t.records[id.index]? = t₀.records[id.index]?

theorem Since.refl (inv : LeaseInv t) : Since t t [] :=
  ⟨inv, by simp, le_rfl, fun _ _ => rfl, by simp, fun _ _ => rfl⟩

theorem Since.holds (h : Since t₀ t own) {id : RuntimeObservationId} {l : RuntimeObservation}
    (hl : t₀.Holds id l) : t.Holds id l :=
  ⟨(h.older _ (List.getElem?_eq_some_iff.mp hl.1).choose).trans hl.1, hl.2⟩

theorem Since.leased (h : Since t₀ t own) {id : ResourceId} (hid : t₀.Leased id) :
    t.Leased id := by
  obtain ⟨i, l, hl, hmem⟩ := hid
  exact ⟨i, l, h.holds hl, hmem⟩

theorem Keeps.since (inv : LeaseInv t) (h : Keeps t t') : Since t t' [] where
  inv := inv.keeps h
  active := by simp [h.active]
  grows := by rw [h.leases]
  older := fun i _ => by rw [h.leases]
  newer := by simp
  frozen := h.leased

theorem Since.step (h : Since t₀ t own) (h' : Since t t' []) : Since t₀ t' own where
  inv := h'.inv
  active := by rw [h'.active, h.active, List.append_nil]
  grows := h.grows.trans h'.grows
  older := fun i hi => (h'.older i (hi.trans_le h.grows)).trans (h.older i hi)
  newer := h.newer
  frozen := fun id hid => (h'.frozen id (h.leased hid)).trans (h.frozen id hid)

theorem Since.opened (h : Since t₀ t own) {lease : RuntimeObservation}
    (hactive : lease.status = .active) (hintact : Intact t lease.observed) :
    Since t₀ (t.opened lease) (own ++ [t.reservedLeaseId]) where
  inv := h.inv.opened hactive hintact
  active := by simp [ResourceTable.opened, h.active]
  grows := by
    have := h.grows
    simp only [ResourceTable.opened, List.length_append, List.length_singleton]
    omega
  older := by
    intro i hi
    rw [← h.older i hi]
    exact List.getElem?_append_left (hi.trans_le h.grows)
  newer := by
    intro id hid
    rcases List.mem_append.mp hid with hid | hid
    · exact h.newer id hid
    · obtain rfl := List.mem_singleton.mp hid
      exact h.grows
  frozen := h.frozen

theorem Since.closed {id : RuntimeObservationId} (h : Since t₀ t (own ++ [id])) :
    Since t₀ (t.closed id) own where
  inv := h.inv.closed id
  active := by
    have hnodup := h.inv.nodup
    have hactive := h.active
    rw [← List.append_assoc] at hactive
    rw [hactive, List.nodup_append] at hnodup
    have hfilter : (t₀.active ++ own).filter (· ≠ id) = t₀.active ++ own := by
      refine List.filter_eq_self.mpr fun x hx => ?_
      simpa using hnodup.2.2 x hx id (List.mem_singleton_self id)
    simp only [ResourceTable.closed]
    rw [hactive, List.filter_append, hfilter]
    simp
  grows := by
    have := h.grows
    simpa [ResourceTable.closed, setLeaseStatus] using this
  older := by
    intro i hi
    rw [closed_leases, if_neg, h.older i hi]
    rintro rfl
    exact absurd (h.newer id (by simp)) (not_le.mpr hi)
  newer := fun i hi => h.newer i (by simp [hi])
  frozen := h.frozen

/-- What one step of a frame does to the leases: it opens one, ends the frame's
innermost, or leaves every lease and what it holds alone. -/
inductive LeaseStep (s s' : FrameState) : Prop
  | same : Since s.resources s'.resources [] → s'.activeLeases = s.activeLeases → LeaseStep s s'
  | opened {observation : ObservationId} {lease : RuntimeObservation} :
      lease.status = .active → Intact s.resources lease.observed →
      s'.resources = s.resources.opened lease →
      s'.activeLeases = s.activeLeases ++ [(observation, s.resources.reservedLeaseId)] →
      LeaseStep s s'
  | closed {observation : ObservationId} {id : RuntimeObservationId} :
      s.activeLeases = s'.activeLeases ++ [(observation, id)] →
      s'.resources = s.resources.closed id → LeaseStep s s'

theorem LeaseStep.since {s s' : FrameState} (h : LeaseStep s s')
    (hs : Since t₀ s.resources (s.activeLeases.map (·.2))) :
    Since t₀ s'.resources (s'.activeLeases.map (·.2)) := by
  cases h with
  | same hsame heq => exact heq ▸ hs.step hsame
  | opened hactive hintact ht hleases =>
    rw [ht, hleases, List.map_append]
    exact hs.opened hactive hintact
  | closed hleases ht =>
    rw [hleases, List.map_append] at hs
    exact ht ▸ hs.closed

/-- Where a place read takes out of the storage of a resource, no active lease
holds that resource. -/
def TakeGuard (p : Point) : Prop :=
  match p.instructions with
  | .value _ _ (.placeRead place .transfer) :: _ => ∀ root k,
      p.state.values.read (canonicalRoot p.ctx.loadOrigin place.root) = .ok root →
      innerOwner p.state.resources root place.projections = some k →
      p.state.resources.activeLeaseHolding k.id = none
  | _ => True

/-- A field selected through a leased view holds no handle. -/
def SelectGuard (p : Point) : Prop :=
  match p.instructions with
  | .value _ _ (.recordField base _ field) :: _ => ∀ h r f,
      p.state.values.read base = .ok (.resource h) → h.lease.isSome →
      p.state.resources.observe h = .ok r → r.fields[field]? = some f → f.handles = []
  | _ => True

variable {call : Call} {ctx : FrameContext} {s s' : FrameState}

theorem LeaseStep.of_keeps (inv : LeaseInv s.resources) (h : Keeps s.resources s'.resources)
    (heq : s'.activeLeases = s.activeLeases) : LeaseStep s s' :=
  .same (h.since inv) heq

theorem LeaseStep.insert {id : ValueId} {v : Value} {u : FrameState} (h : LeaseStep s u) :
    LeaseStep s (u.insert id v) := by
  cases h with
  | same hsame heq => exact .same hsame heq
  | opened hactive hintact ht hleases => exact .opened hactive hintact ht hleases
  | closed hleases ht => exact .closed hleases ht

theorem leaseStep_takePlace (inv : LeaseInv s.resources) {place : Place ValueId} {v : Value}
    (hguard : ∀ root k, s.values.read (canonicalRoot ctx.loadOrigin place.root) = .ok root →
      innerOwner s.resources root place.projections = some k →
      s.resources.activeLeaseHolding k.id = none)
    (h : accessPlace ctx.loadOrigin place .transfer s = .ok v s') : LeaseStep s s' := by
  obtain ⟨root, seen, container, t, hroot, -, -, hvalid, hcommit, rfl⟩ :=
    accessPlace_transfer_eq_ok h
  refine .of_keeps inv ?_ rfl
  rcases commitTake_rewrites hvalid hcommit with ⟨-, -, rfl⟩ | ⟨-, hrw⟩
  · exact .refl _
  · exact hrw.keeps (by simp [Value.handles]) fun k hk => inv.not_leased (hguard root k hroot hk)

theorem leaseStep_observe {observation : ObservationId}
    {place : Place ValueId} {declared : Ty} {v : Value}
    (h : beginObserve m ctx.loadOrigin observation place declared s = .ok v s') :
    LeaseStep s s' := by
  obtain ⟨root, seen, observed, -, -, hsource, hcollect, -, rfl⟩ := beginObserve_eq_ok h
  obtain ⟨hseals, -⟩ := collectReachable_seals hsource hcollect
  have hintact : Intact s.resources observed := by
    intro id hid
    exact (hseals.2 id hid).resolve_left (by simp)
  let lease : RuntimeObservation :=
    ⟨s.resources.reservedLeaseId, .active, observed, s.activeLeases.getLast?.map (·.2)⟩
  have hactive : lease.status = .active := rfl
  exact .opened hactive hintact rfl rfl

theorem since_constructParts (inv : LeaseInv s.resources) {values : Values}
    {declared : List Ty} {ids : List ValueId} {parts : List Value} {i : InterpreterState}
    (h : constructParts m values declared ids s.interpreter = .ok parts i) :
    Since s.resources i.resources [] ∧ ∀ f ∈ parts, ∀ k ∈ f.handles, k.lease = none := by
  obtain ⟨supplied, plan, -, -, hplan, rfl⟩ := constructParts_eq_ok h
  obtain ⟨hunleased, hfree⟩ := mapM_planTransfer inv hplan
  exact ⟨(hunleased unleased_empty).keeps.since inv, hfree⟩

/-- What a call guarantees about the leases open when it was made. -/
def LeasePost (_ : CallRequest) (s : InterpreterState) (_ : Outcome) (s' : InterpreterState) :
    Prop :=
  Since s.resources s'.resources []

theorem since_eval (inv : LeaseInv s.resources) {kind : ValueKind} {v : Value}
    {i : InterpreterState} {result : ValueId} {ty : Ty} {rest : List Instruction}
    {terminator : Terminator}
    (hexec : (unexecutableNumericName (substitute ty ctx.subst)).isSome = false)
    (hcall : Guarantees m LeasePost call ⟨ctx, s, .value result ty kind :: rest, terminator⟩)
    (h : EvalEffect m call ctx s.values s.interpreter kind v i) :
    Since s.resources i.resources [] := by
  cases h with
  | scalar | load | recordField | variantPayload => exact .refl inv
  | move _ _ hplan => exact (planTransfer_unleased inv hplan unleased_empty).keeps.since inv
  | call hrequest hi => exact hcall _ _ _ (.call hexec hrequest) hi
  | protocolCall hrequest hi => exact hcall _ _ _ (.protocolCall hexec hrequest) hi
  | resource hparts _ =>
    obtain ⟨hsince, hfree⟩ := since_constructParts inv hparts
    exact hsince.step ((keeps_construct hsince.inv hfree).since hsince.inv)
  | record hparts _ => exact (since_constructParts inv hparts).1
  | variant hparts _ => exact (since_constructParts inv hparts).1

theorem leaseStep_value (inv : LeaseInv s.resources) {result : ValueId} {ty : Ty}
    {kind : ValueKind} {rest : List Instruction} {terminator : Terminator}
    (hguard : TakeGuard ⟨ctx, s, .value result ty kind :: rest, terminator⟩)
    (hcall : Guarantees m LeasePost call ⟨ctx, s, .value result ty kind :: rest, terminator⟩)
    (h : execValue m fpu call ctx result ty kind s = .ok ⟨⟩ s') : LeaseStep s s' := by
  obtain ⟨v, u, heffect, hexec, rfl⟩ := execValue_eq_ok h
  refine LeaseStep.insert ?_
  cases heffect with
  | @placeRead place mode _ _ hread =>
    cases mode with
    | observe =>
      obtain ⟨_, _, -, -, -, rfl⟩ := accessPlace_observe_eq_ok.mp hread
      exact .same (.refl inv) rfl
    | transfer => exact leaseStep_takePlace inv hguard hread
  | observePlace hobserve => exact leaseStep_observe hobserve
  | eval heval => exact .same (since_eval inv hexec hcall heval) rfl

theorem leaseStep_storePlace (inv : LeaseInv s.resources) {place : Place ValueId}
    {source : ValueId} (h : storePlaceTransfer m ctx.loadOrigin place source s = .ok ⟨⟩ s') :
    LeaseStep s s' := by
  obtain ⟨root, incoming, rebuilt, plan, updated, t, _, _, -, -, -, -, hplan, htarget, -, -, -,
    hvalid, hcommit, rfl⟩ := storePlaceTransfer_eq_ok h
  have hne : place.projections ≠ [] := by
    intro hnil
    rw [hnil] at htarget
    exact absurd htarget Except.throw_ne_ok
  obtain ⟨slot, htomb, hrw⟩ := commitStore_rewrites hne hvalid hcommit
  have hkeeps : Keeps s.resources t :=
    hrw.keeps (planTransfer_free hplan) fun _ hk => hrw.not_leased inv htomb hk
  have hunleased : Unleased t plan := by
    intro id hid hleased
    obtain ⟨i, l, hl, hmem⟩ := hleased
    exact planTransfer_unleased inv hplan unleased_empty id hid ⟨i, l, hkeeps.holds.mp hl, hmem⟩
  exact .of_keeps inv (hkeeps.trans hunleased.keeps) rfl

theorem leaseStep_instruction (inv : LeaseInv s.resources) {i : Instruction}
    {rest : List Instruction} {terminator : Terminator}
    (hguard : TakeGuard ⟨ctx, s, i :: rest, terminator⟩)
    (hcall : Guarantees m LeasePost call ⟨ctx, s, i :: rest, terminator⟩)
    (h : execInstruction m fpu call ctx i s = .ok ⟨⟩ s') : LeaseStep s s' := by
  cases i with
  | value result ty kind => exact leaseStep_value inv hguard hcall h
  | store slot value mode =>
    cases mode with
    | transfer =>
      obtain ⟨_, _, _, -, -, hplan, -, rfl⟩ := execStore_transfer_eq_ok (perform_eq_ok.mp h)
      exact .of_keeps inv (planTransfer_unleased inv hplan unleased_empty).keeps rfl
    | observe =>
      obtain ⟨_, _, -, -, -, rfl⟩ := execStore_observe_eq_ok (perform_eq_ok.mp h)
      exact .of_keeps inv (.refl _) rfl
  | drop value =>
    obtain ⟨_, _, -, hdrop, rfl⟩ := execDrop_eq_ok (perform_eq_ok.mp h)
    exact .of_keeps inv (keeps_dropValue inv hdrop) rfl
  | decomposeVariant value variant case taken =>
    obtain ⟨_, _, -, -, -, -, rfl⟩ := decomposeVariant_eq_ok (perform_eq_ok.mp h)
    exact .of_keeps inv (.refl _) rfl
  | storePlace place value => exact leaseStep_storePlace inv (perform_eq_ok.mp h)
  | endObserve observation =>
    obtain ⟨id, hlast, rfl⟩ := endObserve_eq_ok (perform_eq_ok.mp h)
    obtain ⟨front, hfront⟩ := List.getLast?_eq_some_iff.mp hlast
    have hleases : s.activeLeases = s.activeLeases.dropLast ++ [(observation, id)] := by
      simp [hfront]
    exact .closed hleases rfl

theorem leaseStep_leaving (inv : LeaseInv s.resources) {v : Value}
    (h : ExitEffect m ctx s v s') : LeaseStep s s' := by
  cases h with
  | nothing => exact .same (.refl inv) rfl
  | value _ hplan _ =>
    exact .of_keeps inv (planTransfer_unleased inv hplan unleased_empty).keeps rfl

theorem leaseStep_jump (inv : LeaseInv s.resources) {terminator : Terminator} {next : BlockId}
    (hcall : Guarantees m LeasePost call ⟨ctx, s, [], terminator⟩)
    (h : execTerminator m call ctx terminator s = .ok (.goto next) s') : LeaseStep s s' := by
  cases execTerminator_effect h with
  | jump => exact .same (.refl inv) rfl
  | invoke hrequest hi _ => exact .same (hcall _ _ _ (.invoke hrequest) hi) rfl

theorem leaseStep_exit (inv : LeaseInv s.resources) {terminator : Terminator} {outcome : Outcome}
    (h : execTerminator m call ctx terminator s = .ok (.exit outcome) s') :
    LeaseStep s s' ∧ s'.activeLeases = [] := by
  have hleaving : ∀ {v}, s.activeLeases = [] → ExitEffect m ctx s v s' →
      LeaseStep s s' ∧ s'.activeLeases = [] := by
    intro v hnil hv
    refine ⟨leaseStep_leaving inv hv, ?_⟩
    cases hv <;> exact hnil
  cases execTerminator_effect h with
  | ret hnil hv => exact hleaving hnil hv
  | raise hnil hv => exact hleaving hnil hv

theorem bindParameter_unleased (inv : LeaseInv t) {subst : Subst} {param : Param} {arg : Value}
    {b : ValueId × Value} {p p' : BindingPlan}
    (h : (bindParameter m t subst param arg).run p = .ok (b, p')) (hp : Unleased t p.plan) :
    Unleased t p'.plan := by
  unfold bindParameter at h
  obtain ⟨_, u, hvalid, h⟩ := StateT.run_bind_eq_ok.mp h
  obtain ⟨-, rfl⟩ := StateT.run_liftM_eq_ok.mp hvalid
  obtain ⟨_, u, hget, h⟩ := StateT.run_bind_eq_ok.mp h
  obtain ⟨rfl, rfl⟩ := StateT.run_get_eq_ok.mp hget
  split at h
  · obtain ⟨⟨bound, plan⟩, u, hplan, h⟩ := StateT.run_bind_eq_ok.mp h
    obtain ⟨hrun, rfl⟩ := StateT.run_liftM_eq_ok.mp hplan
    obtain ⟨_, u, hset, h⟩ := StateT.run_bind_eq_ok.mp h
    obtain rfl := StateT.run_set_eq_ok.mp hset
    obtain ⟨-, rfl⟩ := StateT.run_pure_eq_ok.mp h
    exact planTransfer_unleased inv hrun hp
  · obtain ⟨⟨⟨⟩, reached⟩, u, hreach, h⟩ := StateT.run_bind_eq_ok.mp h
    obtain ⟨-, rfl⟩ := StateT.run_liftM_eq_ok.mp hreach
    obtain ⟨_, u, hset, h⟩ := StateT.run_bind_eq_ok.mp h
    obtain rfl := StateT.run_set_eq_ok.mp hset
    obtain ⟨bound, u, hview, h⟩ := StateT.run_bind_eq_ok.mp h
    obtain ⟨-, rfl⟩ := StateT.run_liftM_eq_ok.mp hview
    obtain ⟨-, rfl⟩ := StateT.run_pure_eq_ok.mp h
    exact hp

theorem since_bindParameters {request : CallRequest} {i i' : InterpreterState} {values : Values}
    (inv : LeaseInv i.resources) (h : bindParameters m request i = .ok (ctx, values) i') :
    Since i.resources i'.resources [] := by
  obtain ⟨subst, bindings, planned, hbind, -, -, -, -, rfl⟩ := bindParameters_eq_ok h
  obtain ⟨hunleased, -⟩ := StateT.run_mapM_induction
    (R := fun p p' : BindingPlan => Unleased i.resources p.plan → Unleased i.resources p'.plan)
    (P := fun _ _ => True) (fun _ => id) (fun h₁ h₂ hp => h₂ (h₁ hp))
    (fun _ _ _ _ _ hb => ⟨bindParameter_unleased inv hb, trivial⟩) hbind
  exact (hunleased unleased_empty).keeps.since inv

theorem leaseRule : FrameRule m fpu TakeGuard (fun _ s => LeaseInv s.resources) LeasePost
    (fun _ s _ st => Since s.resources st.resources (st.activeLeases.map (·.2))) where
  enter := by
    intro _ s _ _ _ hpre hbind
    exact since_bindParameters (i := s.enter) hpre hbind
  nested := fun hJ _ => hJ.inv
  instruction := fun hJ hguard hcall h => (leaseStep_instruction hJ.inv hguard hcall h).since hJ
  jump := fun hJ _ hcall h => (leaseStep_jump hJ.inv hcall h).since hJ
  exit := by
    intro _ _ _ _ _ _ _ _ hJ _ h
    obtain ⟨hstep, hnil⟩ := leaseStep_exit hJ.inv h
    have hsince := hstep.since hJ
    rwa [hnil] at hsince

end Frames

end Napitia.Interpreter
