import Mathlib.Data.List.Infix

/-!
# Computations that only add to a log

A stage that reports every problem it finds and goes on regardless is judged by the
log it leaves. As long as each of its parts only adds to the log, a run that ends
with an empty one was silent all the way, and can be taken apart where it is bound.
-/
namespace Napitia.Log
variable {σ ε α β : Type} {log : σ → List ε}

/-- The computation adds to the log and takes nothing out of it. -/
def Appends (log : σ → List ε) (x : StateM σ α) : Prop :=
  ∀ s, log s <+: log (x.run s).2

section
variable {x : StateM σ α} {f : α → StateM σ β} {s s' : σ}

theorem Appends.pure (a : α) : Appends log (pure a : StateM σ α) :=
  fun _ => List.prefix_rfl

theorem Appends.get : Appends log (get : StateM σ σ) :=
  fun _ => List.prefix_rfl

theorem Appends.modify {g : σ → σ} (h : ∀ s, log s <+: log (g s)) :
    Appends log (modify g : StateM σ PUnit) := h

theorem Appends.bind (hx : Appends log x) (hf : ∀ a, Appends log (f a)) :
    Appends log (x >>= f) :=
  fun s => (hx s).trans (hf (x.run s).1 (x.run s).2)

theorem Appends.ite {p : Prop} [Decidable p] {y : StateM σ α} (hx : Appends log x)
    (hy : Appends log y) : Appends log (if p then x else y) := by
  split
  · exact hx
  · exact hy

theorem Appends.forM {l : List α} {g : α → StateM σ PUnit} (h : ∀ a, Appends log (g a)) :
    Appends log (l.forM g) := by
  induction l with
  | nil => exact .pure _
  | cons a l ih => exact (h a).bind fun _ => ih

theorem Appends.foldlM {l : List α} {g : β → α → StateM σ β} (h : ∀ b a, Appends log (g b a))
    (b : β) : Appends log (l.foldlM g b) := by
  induction l generalizing b with
  | nil => exact .pure b
  | cons a l ih =>
    rw [List.foldlM_cons]
    exact (h b a).bind ih

theorem Appends.mapM {l : List α} {g : α → StateM σ β} (h : ∀ a, Appends log (g a)) :
    Appends log (l.mapM g) := by
  induction l with
  | nil => exact .pure _
  | cons a l ih =>
    rw [List.mapM_cons]
    exact (h a).bind fun _ => ih.bind fun _ => .pure _

/-- A run with an empty log began with one. -/
theorem Appends.nil {a : α} (hx : Appends log x) (h : x.run s = (a, s')) (hs : log s' = []) :
    log s = [] := by
  have hprefix := hx s
  rw [h, hs] at hprefix
  exact List.prefix_nil.mp hprefix

/-- A run with an empty log had one where it was bound. -/
theorem silent_bind {b : β} (hf : ∀ a, Appends log (f a)) (h : (x >>= f).run s = (b, s'))
    (hs : log s' = []) :
    ∃ a u, x.run s = (a, u) ∧ log u = [] ∧ (f a).run u = (b, s') :=
  ⟨_, _, rfl, (hf _).nil h hs, h⟩

theorem silent_forM {l : List α} {g : α → StateM σ PUnit} (hg : ∀ a, Appends log (g a))
    (h : (l.forM g).run s = (⟨⟩, s')) (hs : log s' = []) :
    ∀ a ∈ l, ∃ u u', (g a).run u = (⟨⟩, u') ∧ log u' = [] := by
  induction l generalizing s with
  | nil => exact fun a ha => absurd ha List.not_mem_nil
  | cons a l ih =>
    obtain ⟨⟨⟩, u, hrun, hu, h⟩ := silent_bind (fun _ => Appends.forM hg) h hs
    intro b hb
    rcases List.mem_cons.mp hb with rfl | hb
    · exact ⟨s, u, hrun, hu⟩
    · exact ih h b hb

end

end Napitia.Log
