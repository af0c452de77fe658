import Mathlib.Data.List.Forall2

/-!
# Walks that accumulate and may be refused

A walk is an action of `StateT σ (Except ε)`: it threads what it has collected
and stops at the first refusal. The rules here take a completed walk apart into
its steps, and lift a relation between the states before and after one step to
the whole of a `forM` or a `mapM`.
-/
namespace StateT
variable {ε σ α β : Type}

theorem run_bind_eq_ok {x : StateT σ (Except ε) α} {f : α → StateT σ (Except ε) β} {s s' : σ}
    {b : β} :
    (x >>= f).run s = .ok (b, s') ↔ ∃ a u, x.run s = .ok (a, u) ∧ (f a).run u = .ok (b, s') := by
  simp only [StateT.run_bind]
  cases h : x.run s with
  | error e => simp [bind, Except.bind]
  | ok p =>
    obtain ⟨a, u⟩ := p
    simp [bind, Except.bind, and_assoc]

theorem run_liftM_eq_ok {x : Except ε α} {s s' : σ} {a : α} :
    (liftM x : StateT σ (Except ε) α).run s = .ok (a, s') ↔ x = .ok a ∧ s = s' := by
  cases x with
  | error e => simp [liftM, monadLift, MonadLift.monadLift, StateT.lift, StateT.run, bind,
      Except.bind]
  | ok b => simp [liftM, monadLift, MonadLift.monadLift, StateT.lift, StateT.run, bind,
      Except.bind, pure, Except.pure]

theorem run_pure_eq_ok {s s' : σ} {a b : α} :
    (pure a : StateT σ (Except ε) α).run s = .ok (b, s') ↔ a = b ∧ s = s' := by
  rw [StateT.run_pure]
  simp [pure, Except.pure]

theorem run_get_eq_ok {s s' a : σ} :
    (get : StateT σ (Except ε) σ).run s = .ok (a, s') ↔ s = a ∧ s = s' := by
  simp [StateT.run_get, pure, Except.pure]

theorem run_set_eq_ok {s s' t : σ} {a : PUnit.{1}} :
    (set t : StateT σ (Except ε) PUnit.{1}).run s = .ok (a, s') ↔ t = s' := by
  simp [StateT.run_set, pure, Except.pure]

theorem run_throw_ne_ok {e : ε} {s : σ} {r : α × σ} :
    (throw e : StateT σ (Except ε) α).run s ≠ .ok r := by
  simp [StateT.run, throw, throwThe, MonadExceptOf.throw, StateT.lift, bind, Except.bind]

/-- A guard that refuses was not met by a walk that completed. -/
theorem run_guard_eq_ok {c : Prop} [Decidable c] {e : ε} {f : α → StateT σ (Except ε) β}
    {x : StateT σ (Except ε) β} {s : σ} {r : β × σ} :
    (if c then (throw e : StateT σ (Except ε) α) >>= f else x).run s = .ok r ↔
      ¬ c ∧ x.run s = .ok r := by
  obtain ⟨b, s'⟩ := r
  by_cases hc : c
  · simp only [hc, if_true, run_bind_eq_ok, not_true_eq_false, false_and, iff_false]
    rintro ⟨_, _, h, -⟩
    exact run_throw_ne_ok h
  · simp [hc]

/-- A reflexive and transitive relation kept by each step is kept by the walk
over a list. -/
theorem run_forM_induction {R : σ → σ → Prop} (hrefl : ∀ s, R s s)
    (htrans : ∀ {s u v}, R s u → R u v → R s v) {f : α → StateT σ (Except ε) Unit}
    {l : List α} (hf : ∀ a ∈ l, ∀ s s', (f a).run s = .ok (⟨⟩, s') → R s s') {s s' : σ}
    (h : (l.forM f).run s = .ok (⟨⟩, s')) : R s s' := by
  induction l generalizing s with
  | nil =>
    simp only [List.forM, run_pure_eq_ok] at h
    exact h.2 ▸ hrefl s
  | cons a l ih =>
    simp only [List.forM, run_bind_eq_ok] at h
    obtain ⟨⟨⟩, u, hu, hl⟩ := h
    exact htrans (hf a (List.mem_cons_self ..) s u hu)
      (ih (fun b hb => hf b (List.mem_cons_of_mem _ hb)) hl)

/-- A walk over a list that leaves something behind for each element, when later
steps keep what earlier ones left. -/
theorem run_forM_covers {R : σ → σ → Prop} {Q : α → σ → Prop} (hrefl : ∀ s, R s s)
    (htrans : ∀ {s u v}, R s u → R u v → R s v) (hQ : ∀ {a s s'}, Q a s → R s s' → Q a s')
    {f : α → StateT σ (Except ε) Unit} {l : List α}
    (hf : ∀ a ∈ l, ∀ s s', (f a).run s = .ok (⟨⟩, s') → R s s' ∧ Q a s') {s s' : σ}
    (h : (l.forM f).run s = .ok (⟨⟩, s')) : R s s' ∧ ∀ a ∈ l, Q a s' := by
  induction l generalizing s with
  | nil =>
    simp only [List.forM, run_pure_eq_ok] at h
    exact ⟨h.2 ▸ hrefl s, by simp⟩
  | cons a l ih =>
    simp only [List.forM, run_bind_eq_ok] at h
    obtain ⟨⟨⟩, u, hu, hl⟩ := h
    obtain ⟨hR, hQa⟩ := hf a (List.mem_cons_self ..) s u hu
    obtain ⟨hR', hQl⟩ := ih (fun b hb => hf b (List.mem_cons_of_mem _ hb)) hl
    refine ⟨htrans hR hR', ?_⟩
    rintro b (_ | ⟨_, hb⟩)
    · exact hQ hQa hR'
    · exact hQl b hb

/-- The same for `mapM`, where each step also relates its input to its output. -/
theorem run_mapM_induction {R : σ → σ → Prop} {P : α → β → Prop} (hrefl : ∀ s, R s s)
    (htrans : ∀ {s u v}, R s u → R u v → R s v) {f : α → StateT σ (Except ε) β}
    {l : List α} (hf : ∀ a ∈ l, ∀ s s' b, (f a).run s = .ok (b, s') → R s s' ∧ P a b)
    {s s' : σ} {bs : List β} (h : (l.mapM f).run s = .ok (bs, s')) :
    R s s' ∧ List.Forall₂ P l bs := by
  induction l generalizing s bs with
  | nil =>
    rw [List.mapM_nil, run_pure_eq_ok] at h
    obtain ⟨rfl, rfl⟩ := h
    exact ⟨hrefl _, .nil⟩
  | cons a l ih =>
    rw [List.mapM_cons] at h
    obtain ⟨b, u, hu, h⟩ := run_bind_eq_ok.mp h
    obtain ⟨bs', v, hv, h⟩ := run_bind_eq_ok.mp h
    obtain ⟨rfl, rfl⟩ := run_pure_eq_ok.mp h
    obtain ⟨hR, hP⟩ := hf a (List.mem_cons_self ..) s u b hu
    obtain ⟨hR', hPs⟩ := ih (fun c hc => hf c (List.mem_cons_of_mem _ hc)) hv
    exact ⟨htrans hR hR', .cons hP hPs⟩

end StateT

namespace Except
variable {ε α β : Type}

theorem bind_eq_ok {x : Except ε α} {f : α → Except ε β} {b : β} :
    (x >>= f) = .ok b ↔ ∃ a, x = .ok a ∧ f a = .ok b := by
  cases x <;> simp [bind, Except.bind]

/-- Two continuations that agree on the answer agree. -/
theorem bind_congr {x : Except ε α} {f g : α → Except ε β} (h : ∀ a, x = .ok a → f a = g a) :
    x >>= f = x >>= g := by
  cases x with
  | error e => rfl
  | ok a => exact h a rfl

theorem map_eq_ok {x : Except ε α} {f : α → β} {b : β} :
    f <$> x = .ok b ↔ ∃ a, x = .ok a ∧ f a = b := by
  cases x <;> simp [Functor.map, Except.map]

theorem pure_eq_ok {a b : α} : (pure a : Except ε α) = .ok b ↔ b = a := by
  simp [pure, Except.pure, eq_comm]

theorem throw_ne_ok {e : ε} {a : α} : (throw e : Except ε α) ≠ .ok a := by
  simp [throw, throwThe, MonadExceptOf.throw]

/-- A guard that refuses was not met by a question that was answered. -/
theorem guard_eq_ok {c : Prop} [Decidable c] {e : ε} {f : α → Except ε β} {x : Except ε β}
    {b : β} : (if c then (throw e : Except ε α) >>= f else x) = .ok b ↔ ¬ c ∧ x = .ok b := by
  by_cases hc : c
  · simp [hc, bind, Except.bind, throw, throwThe, MonadExceptOf.throw]
  · simp [hc]

/-- A `forM` of questions succeeds exactly when each of them does. -/
theorem forM_eq_ok {f : α → Except ε Unit} {l : List α} :
    l.forM f = .ok ⟨⟩ ↔ ∀ a ∈ l, f a = .ok ⟨⟩ := by
  induction l with
  | nil => simp [List.forM, pure, Except.pure]
  | cons a l ih =>
    simp only [List.forM, bind_eq_ok, ih, List.forall_mem_cons]
    exact ⟨fun ⟨_, h⟩ => h, fun h => ⟨⟨⟩, h⟩⟩

/-- A `mapM` of questions succeeds exactly when each of them does. -/
theorem mapM_eq_ok {f : α → Except ε β} {l : List α} {bs : List β} :
    l.mapM f = .ok bs ↔ List.Forall₂ (fun a b => f a = .ok b) l bs := by
  induction l generalizing bs with
  | nil =>
    rw [List.mapM_nil, pure_eq_ok, List.forall₂_nil_left_iff]
  | cons a l ih =>
    rw [List.mapM_cons]
    simp only [bind_eq_ok, ih, pure_eq_ok]
    constructor
    · rintro ⟨b, hb, bs', hbs, rfl⟩
      exact .cons hb hbs
    · rintro (_ | ⟨hb, hbs⟩)
      exact ⟨_, hb, _, hbs, rfl⟩

end Except

namespace List
variable {α β : Type} {R : α → β → Prop}

theorem Forall₂.exists_left {l : List α} {l' : List β} (h : Forall₂ R l l') {b : β}
    (hb : b ∈ l') : ∃ a ∈ l, R a b := by
  induction h with
  | nil => cases hb
  | @cons a b' l l' hab _ ih =>
    rcases List.mem_cons.mp hb with rfl | hb
    · exact ⟨a, List.mem_cons_self .., hab⟩
    · obtain ⟨a', ha', hR⟩ := ih hb
      exact ⟨a', List.mem_cons_of_mem _ ha', hR⟩

theorem Forall₂.getElem?_left {l : List α} {l' : List β} (h : Forall₂ R l l') {i : ℕ} {b : β}
    (hb : l'[i]? = some b) : ∃ a, l[i]? = some a ∧ R a b := by
  induction h generalizing i with
  | nil => simp at hb
  | @cons a b' l l' hab _ ih =>
    cases i with
    | zero =>
      cases hb
      exact ⟨a, rfl, hab⟩
    | succ i => exact ih (by simpa using hb)

theorem Forall₂.exists_right {l : List α} {l' : List β} (h : Forall₂ R l l') {a : α}
    (ha : a ∈ l) : ∃ b ∈ l', R a b := by
  obtain ⟨b, hb, hR⟩ := h.flip.exists_left ha
  exact ⟨b, hb, hR⟩

end List
