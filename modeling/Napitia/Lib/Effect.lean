import Mathlib.Logic.Basic

/-!
# Actions over a state that survives failure

`EStateM` keeps the state an action had reached when it failed, so what a failed
action leaves behind is a question with an answer. An action is atomic at a
state when failing there leaves that state alone, and sure at a state when it
does not fail there. The rules below follow the shape of a `do` block: questions
that only read come first and hand their answers on, and the writes that follow
have to be sure.
-/
namespace EStateM
variable {ε σ τ α β : Type}

/-- Runs an action on one component of a larger state. -/
def zoom (view : σ → τ) (put : τ → σ → σ) (x : EStateM ε τ α) : EStateM ε σ α := fun s =>
  match x (view s) with
  | .ok a t => .ok a (put t s)
  | .error e t => .error e (put t s)

/-- Failing at this state leaves it as it was. -/
def AtomicAt (x : EStateM ε σ α) (s : σ) : Prop := ∀ e s', x s = .error e s' → s' = s

/-- Failing leaves every state as it was. -/
def Atomic (x : EStateM ε σ α) : Prop := ∀ s, AtomicAt x s

/-- The action succeeds at this state. -/
def Sure (x : EStateM ε σ α) (s : σ) : Prop := ∃ a s', x s = .ok a s'

theorem bind_apply (x : EStateM ε σ α) (f : α → EStateM ε σ β) (s : σ) :
    (x >>= f) s = match x s with
      | .ok a s' => f a s'
      | .error e s' => .error e s' := rfl

@[simp] theorem pure_apply (a : α) (s : σ) : (pure a : EStateM ε σ α) s = .ok a s := rfl

@[simp] theorem throw_apply (e : ε) (s : σ) : (throw e : EStateM ε σ α) s = .error e s := rfl

@[simp] theorem get_apply (s : σ) : (get : EStateM ε σ σ) s = .ok s s := rfl

@[simp] theorem set_apply (s t : σ) : (set t : EStateM ε σ PUnit) s = .ok ⟨⟩ t := rfl

@[simp] theorem modify_apply (f : σ → σ) (s : σ) :
    (modify f : EStateM ε σ PUnit) s = .ok ⟨⟩ (f s) := rfl

@[simp] theorem liftExcept_ok (a : α) (s : σ) :
    (liftExcept (.ok a : Except ε α) : EStateM ε σ α) s = .ok a s := rfl

@[simp] theorem liftExcept_error (e : ε) (s : σ) :
    (liftExcept (.error e : Except ε α) : EStateM ε σ α) s = .error e s := rfl

theorem bind_of_ok {x : EStateM ε σ α} {f : α → EStateM ε σ β} {s s' : σ} {a : α}
    (h : x s = .ok a s') : (x >>= f) s = f a s' := by
  rw [bind_apply, h]

theorem bind_of_error {x : EStateM ε σ α} {f : α → EStateM ε σ β} {s s' : σ} {e : ε}
    (h : x s = .error e s') : (x >>= f) s = .error e s' := by
  rw [bind_apply, h]

theorem bind_eq_ok {x : EStateM ε σ α} {f : α → EStateM ε σ β} {s s' : σ} {b : β} :
    (x >>= f) s = .ok b s' ↔ ∃ a u, x s = .ok a u ∧ f a u = .ok b s' := by
  rw [bind_apply]
  cases h : x s <;> simp [and_assoc]

theorem liftExcept_eq_ok {x : Except ε α} {s s' : σ} {a : α} :
    (liftExcept x : EStateM ε σ α) s = .ok a s' ↔ x = .ok a ∧ s' = s := by
  cases x <;> simp [eq_comm]

theorem pure_eq_ok {a b : α} {s s' : σ} :
    (pure a : EStateM ε σ α) s = .ok b s' ↔ b = a ∧ s' = s := by
  simp [eq_comm]

theorem throw_ne_ok {e : ε} {a : α} {s s' : σ} :
    (throw e : EStateM ε σ α) s ≠ .ok a s' := by
  simp

theorem modify_eq_ok {f : σ → σ} {s s' : σ} {a : PUnit.{1}} :
    (modify f : EStateM ε σ PUnit) s = .ok a s' ↔ s' = f s := by
  simp [eq_comm]

/-- A guard that refuses was not met by an action that succeeded. -/
theorem guard_eq_ok {c : Prop} [Decidable c] {e : ε} {f : α → EStateM ε σ β}
    {x : EStateM ε σ β} {s s' : σ} {b : β} :
    (if c then (throw e : EStateM ε σ α) >>= f else x) s = .ok b s' ↔ ¬ c ∧ x s = .ok b s' := by
  by_cases hc : c
  · simp [hc, bind_eq_ok]
  · simp [hc]

theorem get_bind_eq_ok {f : σ → EStateM ε σ β} {s s' : σ} {b : β} :
    (get >>= f) s = .ok b s' ↔ f s s = .ok b s' := Iff.rfl

/-- An answered question and what follows it. -/
theorem ask_bind_eq_ok {x : Except ε α} {f : α → EStateM ε σ β} {s s' : σ} {b : β} :
    (liftExcept x >>= f) s = .ok b s' ↔ ∃ a, x = .ok a ∧ f a s = .ok b s' := by
  simp only [bind_eq_ok, liftExcept_eq_ok]
  exact ⟨fun ⟨a, _, ⟨hx, rfl⟩, hf⟩ => ⟨a, hx, hf⟩, fun ⟨a, hx, hf⟩ => ⟨a, s, ⟨hx, rfl⟩, hf⟩⟩

theorem zoom_eq_ok {view : σ → τ} {put : τ → σ → σ} {x : EStateM ε τ α} {s s' : σ} {a : α} :
    zoom view put x s = .ok a s' ↔ ∃ t, x (view s) = .ok a t ∧ s' = put t s := by
  unfold zoom
  cases x (view s) with
  | ok b t =>
    constructor
    · intro h
      cases h
      exact ⟨t, rfl, rfl⟩
    · rintro ⟨_, h, rfl⟩
      cases h
      rfl
  | error e t => simp

theorem adaptExcept_eq_ok {ε' : Type} {f : ε → ε'} {x : EStateM ε σ α} {s s' : σ} {a : α} :
    adaptExcept f x s = .ok a s' ↔ x s = .ok a s' := by
  unfold adaptExcept
  cases x s <;> simp

theorem Sure.bind {x : EStateM ε σ α} {f : α → EStateM ε σ β} {s s' : σ} {a : α}
    (hx : x s = .ok a s') (hf : Sure (f a) s') : Sure (x >>= f) s := by
  obtain ⟨b, u, hu⟩ := hf
  exact ⟨b, u, by rw [bind_of_ok hx, hu]⟩

theorem sure_pure (a : α) (s : σ) : Sure (pure a : EStateM ε σ α) s := ⟨a, s, rfl⟩

theorem sure_modify (f : σ → σ) (s : σ) : Sure (modify f : EStateM ε σ PUnit) s := ⟨⟨⟩, f s, rfl⟩

theorem Sure.atomicAt {x : EStateM ε σ α} {s : σ} (h : Sure x s) : AtomicAt x s := by
  intro e s' he
  obtain ⟨a, u, hu⟩ := h
  rw [hu] at he
  cases he

theorem atomicAt_throw (e : ε) (s : σ) : AtomicAt (throw e : EStateM ε σ α) s := by
  intro e' s' h
  cases h
  rfl

theorem atomicAt_liftExcept (x : Except ε α) (s : σ) :
    AtomicAt (liftExcept x : EStateM ε σ α) s := by
  intro e s' h
  cases x <;> cases h
  rfl

theorem AtomicAt.ite {c : Prop} [Decidable c] {x y : EStateM ε σ α} {s : σ}
    (hx : c → AtomicAt x s) (hy : ¬ c → AtomicAt y s) : AtomicAt (if c then x else y) s := by
  split
  · exact hx ‹_›
  · exact hy ‹_›

/-- What follows a refusal is never reached. -/
theorem atomicAt_throw_bind (e : ε) (f : α → EStateM ε σ β) (s : σ) :
    AtomicAt ((throw e : EStateM ε σ α) >>= f) s := by
  intro e' s' h
  rw [bind_of_error (throw_apply e s)] at h
  cases h
  rfl

theorem AtomicAt.get_bind {f : σ → EStateM ε σ β} {s : σ} (h : AtomicAt (f s) s) :
    AtomicAt (get >>= f) s := by
  intro e s' he
  exact h e s' he

/-- A read-only question hands its answer to what follows it. -/
theorem AtomicAt.ask_bind {x : Except ε α} {f : α → EStateM ε σ β} {s : σ}
    (h : ∀ a, x = .ok a → AtomicAt (f a) s) : AtomicAt (liftExcept x >>= f) s := by
  intro e s' he
  cases x with
  | ok a => exact h a rfl e s' (by rwa [bind_of_ok (liftExcept_ok a s)] at he)
  | error e' =>
    rw [bind_of_error (liftExcept_error e' s)] at he
    cases he
    rfl

/-- The first write: it may still fail without trace, and once it has happened
nothing after it may fail. -/
theorem AtomicAt.bind_sure {x : EStateM ε σ α} {f : α → EStateM ε σ β} {s : σ}
    (hx : AtomicAt x s) (hf : ∀ a s', x s = .ok a s' → Sure (f a) s') :
    AtomicAt (x >>= f) s := by
  intro e s' he
  cases hs : x s with
  | ok a u =>
    rw [bind_of_ok hs] at he
    obtain ⟨b, v, hv⟩ := hf a u hs
    rw [hv] at he
    cases he
  | error e' u =>
    rw [bind_of_error hs] at he
    cases he
    exact hx _ _ hs

theorem zoom_ok {view : σ → τ} {put : τ → σ → σ} {x : EStateM ε τ α} {s : σ} {a : α} {t : τ}
    (h : x (view s) = .ok a t) : zoom view put x s = .ok a (put t s) := by
  unfold zoom
  rw [h]

/-- Looking at a component through a lawful view keeps atomicity. -/
theorem AtomicAt.zoom {view : σ → τ} {put : τ → σ → σ} {x : EStateM ε τ α} {s : σ}
    (hput : put (view s) s = s) (hx : AtomicAt x (view s)) : AtomicAt (zoom view put x) s := by
  intro e s' h
  unfold EStateM.zoom at h
  cases ht : x (view s) with
  | ok a t =>
    rw [ht] at h
    cases h
  | error e' t =>
    rw [ht] at h
    cases h
    rw [hx _ _ ht, hput]

end EStateM
