import Mathlib.Data.List.Basic
import Napitia.Lib.Walk

/-!
# Actions whose success does not depend on the state

An action over a state that may be refused yields a property when it succeeds
from every state with a result that has it, and is refused when it fails from
every state. Many an action is one or the other by a question that never looks
at the state: it is settled by a proposition. The rules follow the shape of a
`do` block.
-/
namespace StateT
variable {ε σ α β : Type}

/-- The action succeeds from every state, with a result of the property. -/
def Yields (x : StateT σ (Except ε) α) (Q : α → Prop) : Prop :=
  ∀ s, ∃ a s', x.run s = .ok (a, s') ∧ Q a

/-- The action fails from every state. -/
def Refused (x : StateT σ (Except ε) α) : Prop := ∀ s, ∃ e, x.run s = .error e

/-- The action succeeds from every state when the proposition holds, and from
none when it does not. -/
structure SettledBy (x : StateT σ (Except ε) α) (P : Prop) : Prop where
  succeeds : P → x.Yields fun _ => True
  refused : ¬ P → x.Refused

theorem run_bind_ok {x : StateT σ (Except ε) α} {f : α → StateT σ (Except ε) β} {s s' : σ} {a : α}
    (h : x.run s = .ok (a, s')) : (x >>= f).run s = (f a).run s' := by
  rw [StateT.run_bind, h]
  rfl

theorem run_bind_error {x : StateT σ (Except ε) α} {f : α → StateT σ (Except ε) β} {s : σ} {e : ε}
    (h : x.run s = .error e) : (x >>= f).run s = .error e := by
  rw [StateT.run_bind, h]
  rfl

theorem yields_pure {a : α} {Q : α → Prop} (h : Q a) :
    (pure a : StateT σ (Except ε) α).Yields Q := fun s => ⟨a, s, rfl, h⟩

theorem yields_modify (f : σ → σ) :
    (modify f : StateT σ (Except ε) PUnit).Yields fun _ => True := fun s => ⟨⟨⟩, f s, rfl, trivial⟩

theorem yields_get : (get : StateT σ (Except ε) σ).Yields fun _ => True :=
  fun s => ⟨s, s, rfl, trivial⟩

theorem refused_throw (e : ε) : (throw e : StateT σ (Except ε) α).Refused := fun _ => ⟨e, rfl⟩

theorem Yields.bind {x : StateT σ (Except ε) α} {f : α → StateT σ (Except ε) β} {Q : α → Prop}
    {R : β → Prop} (hx : x.Yields Q) (hf : ∀ a, Q a → (f a).Yields R) : (x >>= f).Yields R := by
  intro s
  obtain ⟨a, s', hs, ha⟩ := hx s
  rw [run_bind_ok hs]
  exact hf a ha s'

theorem Yields.mono {x : StateT σ (Except ε) α} {Q R : α → Prop} (hx : x.Yields Q)
    (h : ∀ a, Q a → R a) : x.Yields R := by
  intro s
  obtain ⟨a, s', hs, ha⟩ := hx s
  exact ⟨a, s', hs, h a ha⟩

/-- A loop whose body always succeeds collects one result for each element. -/
theorem yields_mapM {γ : Type} {f : γ → StateT σ (Except ε) α} {Q : γ → α → Prop}
    (h : ∀ c, (f c).Yields (Q c)) (l : List γ) :
    (l.mapM f).Yields fun as => List.Forall₂ Q l as := by
  induction l with
  | nil => exact yields_pure .nil
  | cons c l ih =>
    rw [List.mapM_cons]
    apply (h c).bind
    intro a ha
    apply ih.bind
    intro as has
    exact yields_pure (.cons ha has)

theorem yields_forM {γ : Type} {f : γ → StateT σ (Except ε) PUnit}
    (h : ∀ c, (f c).Yields fun _ => True) (l : List γ) : (l.forM f).Yields fun _ => True := by
  induction l with
  | nil => exact yields_pure trivial
  | cons c l ih => exact (h c).bind fun _ _ => ih

theorem Refused.bind {x : StateT σ (Except ε) α} {f : α → StateT σ (Except ε) β}
    (hx : x.Refused) : (x >>= f).Refused := by
  intro s
  obtain ⟨e, he⟩ := hx s
  exact ⟨e, run_bind_error he⟩

theorem Yields.bind_refused {x : StateT σ (Except ε) α} {f : α → StateT σ (Except ε) β}
    {Q : α → Prop} (hx : x.Yields Q) (hf : ∀ a, Q a → (f a).Refused) : (x >>= f).Refused := by
  intro s
  obtain ⟨a, s', hs, ha⟩ := hx s
  rw [run_bind_ok hs]
  exact hf a ha s'

namespace SettledBy

theorem of_yields {x : StateT σ (Except ε) α} {P : Prop} (hP : P) (hx : x.Yields fun _ => True) :
    x.SettledBy P := ⟨fun _ => hx, fun h => absurd hP h⟩

theorem of_refused {x : StateT σ (Except ε) α} {P : Prop} (hP : ¬ P) (hx : x.Refused) :
    x.SettledBy P := ⟨fun h => absurd h hP, fun _ => hx⟩

theorem congr {x : StateT σ (Except ε) α} {P Q : Prop} (h : x.SettledBy P) (hPQ : P ↔ Q) :
    x.SettledBy Q := ⟨fun q => h.succeeds (hPQ.mpr q), fun q => h.refused fun p => q (hPQ.mp p)⟩

/-- Success from any one state is the proposition. -/
theorem run_iff {x : StateT σ (Except ε) α} {P : Prop} (h : x.SettledBy P) (s : σ) :
    (∃ a s', x.run s = .ok (a, s')) ↔ P := by
  constructor
  · rintro ⟨a, s', hs⟩
    by_contra hP
    obtain ⟨e, he⟩ := h.refused hP s
    rw [he] at hs
    cases hs
  · intro hP
    obtain ⟨a, s', hs, -⟩ := h.succeeds hP s
    exact ⟨a, s', hs⟩

/-- What comes before and always succeeds does not matter. -/
theorem after {x : StateT σ (Except ε) α} {f : α → StateT σ (Except ε) β} {Q : α → Prop}
    {P : Prop} (hx : x.Yields Q) (hf : ∀ a, Q a → (f a).SettledBy P) : (x >>= f).SettledBy P :=
  ⟨fun p => hx.bind fun a ha => (hf a ha).succeeds p,
    fun p => hx.bind_refused fun a ha => (hf a ha).refused p⟩

/-- One action and then another, each settled on its own. -/
theorem and {x : StateT σ (Except ε) α} {f : α → StateT σ (Except ε) β} {P R : Prop}
    (hx : x.SettledBy P) (hf : ∀ a, (f a).SettledBy R) : (x >>= f).SettledBy (P ∧ R) := by
  constructor
  · rintro ⟨p, r⟩
    exact (hx.succeeds p).bind fun a _ => (hf a).succeeds r
  · intro h
    by_cases p : P
    · exact (hx.succeeds p).bind_refused fun a _ => (hf a).refused fun r => h ⟨p, r⟩
    · exact (hx.refused p).bind

theorem forM {γ : Type} {f : γ → StateT σ (Except ε) PUnit} {P : γ → Prop} {l : List γ}
    (h : ∀ c ∈ l, (f c).SettledBy (P c)) : (l.forM f).SettledBy (∀ c ∈ l, P c) := by
  induction l with
  | nil => exact .of_yields (by simp) (yields_pure trivial)
  | cons c l ih =>
    have hc := h c (by simp)
    have hl := ih fun d hd => h d (by simp [hd])
    change (f c >>= fun _ => l.forM f).SettledBy _
    exact (hc.and fun _ => hl).congr (by simp)

/-- A guard in front of an action. -/
theorem guarded {c : Prop} [Decidable c] {e : ε} {x : StateT σ (Except ε) β} {P : Prop}
    (hx : x.SettledBy P) :
    (if c then (throw e : StateT σ (Except ε) α) >>= fun _ => x else x).SettledBy (¬ c ∧ P) := by
  by_cases hc : c
  · rw [if_pos hc]
    exact .of_refused (fun h => h.1 hc) (refused_throw e).bind
  · rw [if_neg hc]
    exact hx.congr (by simp [hc])

end SettledBy

end StateT
