import Napitia.Interpreter.Paths

/-!
# Observing views

A view of a value is the value with each of its handles downgraded and, under a
lease, bound to it. What a view shows depends on the records its handles name
and on nothing else, which is what makes a frozen record a frozen view.
-/
namespace Napitia.Interpreter
open Nir ResourceTable

section
variable {t t' : ResourceTable} {lease : Option RuntimeObservationId} {n : ℕ} {v w : Value}

/-- The handle a view carries in place of another. -/
def ResourceHandle.viewed (h : ResourceHandle) (lease : Option RuntimeObservationId) :
    ResourceHandle :=
  { h with role := .observer, lease := lease.or h.lease }

theorem toObserver_eq_ok {h k : ResourceHandle} :
    t.toObserver h = .ok k ↔ (∃ r, t.observe h = .ok r) ∧ k = h.viewed none := by
  unfold toObserver
  simp only [Except.bind_eq_ok, Except.pure_eq_ok]
  exact ⟨fun ⟨r, hr, hk⟩ => ⟨⟨r, hr⟩, hk⟩, fun ⟨⟨r, hr⟩, hk⟩ => ⟨r, hr, hk⟩⟩

theorem toLeasedObserver_eq_ok {h k : ResourceHandle} {id : RuntimeObservationId} :
    t.toLeasedObserver h id = .ok k ↔ (∃ r, t.observe h = .ok r) ∧ k = h.viewed (some id) := by
  unfold toLeasedObserver
  simp only [Except.bind_eq_ok, Except.pure_eq_ok]
  exact ⟨fun ⟨r, hr, hk⟩ => ⟨⟨r, hr⟩, hk⟩, fun ⟨⟨r, hr⟩, hk⟩ => ⟨r, hr, hk⟩⟩

theorem mapM_congr {f g : Value → Except InterpreterError Value} (l : List Value)
    (h : ∀ v ∈ l, f v = g v) : l.mapM f = l.mapM g := by
  induction l with
  | nil => rw [List.mapM_nil, List.mapM_nil]
  | cons v vs ih =>
    rw [List.mapM_cons, List.mapM_cons, h v (List.mem_cons_self ..),
      ih fun w hw => h w (List.mem_cons_of_mem _ hw)]

/-- The frame's two rebuilding walks are the table's own, without a lease and
with one. -/
theorem toObservingView_eq : toObservingView t n v = t.observingView none n v := by
  induction n generalizing v with
  | zero => rfl
  | succ n ih =>
    unfold toObservingView observingView
    cases v with
    | record item typeArgs fields => simp only [mapM_congr fields fun _ _ => ih]
    | variant item typeArgs case payload => simp only [mapM_congr payload fun _ _ => ih]
    | _ => rfl

theorem toLeasedView_eq {id : RuntimeObservationId} :
    toLeasedView t id n v = t.observingView (some id) n v := by
  induction n generalizing v with
  | zero => rfl
  | succ n ih =>
    unfold toLeasedView observingView
    cases v with
    | record item typeArgs fields => simp only [mapM_congr fields fun _ _ => ih]
    | variant item typeArgs case payload => simp only [mapM_congr payload fun _ _ => ih]
    | _ => rfl

theorem forall₂_handlesAll {R : ResourceHandle → ResourceHandle → Prop} {vs ws : List Value}
    (h : List.Forall₂ (fun v w => List.Forall₂ R v.handles w.handles) vs ws) :
    List.Forall₂ R (Value.handlesAll vs) (Value.handlesAll ws) := by
  induction h with
  | nil => exact .nil
  | cons hv _ ih => exact List.rel_append hv ih

/-- A view carries exactly the handles of what it views, each observable and
each in its viewed form. -/
theorem observingView_handles (h : t.observingView lease n v = .ok w) :
    List.Forall₂ (fun h k => (∃ r, t.observe h = .ok r) ∧ k = h.viewed lease)
      v.handles w.handles := by
  induction n generalizing v w with
  | zero => exact absurd h Except.throw_ne_ok
  | succ n ih =>
    unfold observingView at h
    cases v with
    | resource handle =>
      cases lease with
      | none =>
        obtain ⟨k, hk, h⟩ := Except.bind_eq_ok.mp h
        obtain rfl := Except.pure_eq_ok.mp h
        simpa using toObserver_eq_ok.mp hk
      | some id =>
        obtain ⟨k, hk, h⟩ := Except.bind_eq_ok.mp h
        obtain rfl := Except.pure_eq_ok.mp h
        simpa using toLeasedObserver_eq_ok.mp hk
    | record item typeArgs fields =>
      obtain ⟨ws, hws, h⟩ := Except.bind_eq_ok.mp h
      obtain rfl := Except.pure_eq_ok.mp h
      simp only [Value.handles]
      exact forall₂_handlesAll ((Except.mapM_eq_ok.mp hws).imp fun _ _ => ih)
    | variant item typeArgs case payload =>
      obtain ⟨ws, hws, h⟩ := Except.bind_eq_ok.mp h
      obtain rfl := Except.pure_eq_ok.mp h
      simp only [Value.handles]
      exact forall₂_handlesAll ((Except.mapM_eq_ok.mp hws).imp fun _ _ => ih)
    | _ =>
      obtain rfl := Except.pure_eq_ok.mp h
      simp [Value.handles]

theorem observingView_mem (h : t.observingView lease n v = .ok w) {k : ResourceHandle}
    (hk : k ∈ w.handles) : ∃ h ∈ v.handles, k = h.viewed lease := by
  obtain ⟨h, hh, hview⟩ := (observingView_handles h).exists_left hk
  exact ⟨h, hh, hview.2⟩

/-- Two tables that answer alike about each handle of a value show the same view
of it. -/
theorem observingView_congr (h : ∀ k ∈ v.handles, t'.observe k = t.observe k) :
    t'.observingView lease n v = t.observingView lease n v := by
  induction n generalizing v with
  | zero => rfl
  | succ n ih =>
    unfold observingView
    cases v with
    | resource handle =>
      have hh := h handle (by simp)
      cases lease <;> simp only [toObserver, toLeasedObserver, hh]
    | record item typeArgs fields =>
      simp only [mapM_congr fields fun f hf => ih fun k hk =>
        h k (mem_handles_record.mpr ⟨f, hf, hk⟩)]
    | variant item typeArgs case payload =>
      simp only [mapM_congr payload fun f hf => ih fun k hk =>
        h k (mem_handles_variant.mpr ⟨f, hf, hk⟩)]
    | _ => rfl

end

end Napitia.Interpreter
