import Napitia.Lib.Effect

/-!
# Properties that survive failure

An action keeps a property of the state when the state it leaves has the property again,
whether the action completed or failed on the way. The rules follow the shape of a `do`
block; an action that leaves the state alone when it fails needs to be looked at only where
it completes.
-/
namespace EStateM
variable {ε ε' σ τ α β : Type}

/-- The state a computation leaves, completed or failed. -/
def Result.left : Result ε σ α → σ
  | .ok _ s => s
  | .error _ s => s

/-- The action keeps the property, whatever comes of it. -/
def Always (P : σ → Prop) (x : EStateM ε σ α) : Prop := ∀ s, P s → P (x s).left

section
variable {P : σ → Prop} {x : EStateM ε σ α} {f : α → EStateM ε σ β}

theorem Always.pure (a : α) : Always P (pure a : EStateM ε σ α) := fun _ h => h

theorem Always.throw (e : ε) : Always P (throw e : EStateM ε σ α) := fun _ h => h

theorem Always.get : Always P (get : EStateM ε σ σ) := fun _ h => h

theorem Always.modify {g : σ → σ} (hg : ∀ s, P s → P (g s)) :
    Always P (modify g : EStateM ε σ PUnit) := hg

theorem Always.ask (e : Except ε α) : Always P (liftExcept e : EStateM ε σ α) := by
  intro s h
  cases e with
  | ok a => exact h
  | error e => exact h

theorem Always.bind (hx : Always P x) (hf : ∀ a, Always P (f a)) : Always P (x >>= f) := by
  intro s hs
  have hleft := hx s hs
  rw [bind_apply]
  cases h : x s with
  | ok a u =>
    rw [h] at hleft
    exact hf a u hleft
  | error e u =>
    rw [h] at hleft
    exact hleft

theorem Always.ite {c : Prop} [Decidable c] {y : EStateM ε σ α} (hx : Always P x)
    (hy : Always P y) : Always P (if c then x else y) := by
  split
  · exact hx
  · exact hy

theorem always_guard {c : Prop} [Decidable c] {e : ε} {g : β → EStateM ε σ α} (hx : Always P x) :
    Always P (if c then (throw e : EStateM ε σ β) >>= g else x) := by
  split
  · exact fun _ hs => hs
  · exact hx

theorem Always.forM {l : List β} {g : β → EStateM ε σ PUnit} (h : ∀ b ∈ l, Always P (g b)) :
    Always P (l.forM g) := by
  induction l with
  | nil => exact .pure _
  | cons b l ih => exact (h b (by simp)).bind fun _ => ih fun c hc => h c (by simp [hc])

theorem Always.zoom {view : σ → τ} {put : τ → σ → σ} {y : EStateM ε τ α}
    (h : ∀ s, P s → P (put (y (view s)).left s)) : Always P (zoom view put y) := by
  intro s hs
  have hput := h s hs
  unfold EStateM.zoom
  cases hy : y (view s) with
  | ok a t =>
    rw [hy] at hput
    exact hput
  | error e t =>
    rw [hy] at hput
    exact hput

theorem Always.adaptExcept {g : ε → ε'} (hx : Always P x) : Always P (adaptExcept g x) := by
  intro s hs
  have hleft := hx s hs
  unfold EStateM.adaptExcept
  cases h : x s with
  | ok a u =>
    rw [h] at hleft
    exact hleft
  | error e u =>
    rw [h] at hleft
    exact hleft

/-- An action that leaves the state alone when it fails. -/
theorem Atomic.always (hx : Atomic x) (h : ∀ s a s', P s → x s = .ok a s' → P s') : Always P x := by
  intro s hs
  cases hrun : x s with
  | ok a s' => exact h s a s' hs hrun
  | error e s' =>
    rw [hx s e s' hrun]
    exact hs

end

end EStateM
