import Mathlib.Order.Defs.Unbundled

/-!
# Running a computation over a state

What a computation that only reads and writes a state does, one constructor of a `do`
block at a time, with no monad left in the result.
-/
namespace Napitia.Stateful
variable {σ α β : Type}

theorem run_bind (x : StateM σ α) (f : α → StateM σ β) (s : σ) :
    (x >>= f).run s = (f (x.run s).1).run (x.run s).2 := rfl

theorem run_pure (a : α) (s : σ) : (pure a : StateM σ α).run s = (a, s) := rfl

theorem run_get (s : σ) : (get : StateM σ σ).run s = (s, s) := rfl

theorem run_modify (g : σ → σ) (s : σ) : (modify g : StateM σ PUnit).run s = (⟨⟩, g s) := rfl

theorem run_ite {p : Prop} [Decidable p] (x y : StateM σ α) (s : σ) :
    (if p then x else y).run s = if p then x.run s else y.run s := by
  split <;> rfl

/-- The computation leaves every state related to the one it began in. -/
def Within (R : σ → σ → Prop) (x : StateM σ α) : Prop := ∀ s, R s (x.run s).2

section
variable {R : σ → σ → Prop} {x y : StateM σ α} {f : α → StateM σ β}

theorem Within.pure [Std.Refl R] (a : α) : Within R (pure a : StateM σ α) :=
  fun s => Std.Refl.refl s

theorem Within.get [Std.Refl R] : Within R (get : StateM σ σ) :=
  fun s => Std.Refl.refl s

theorem Within.modify {g : σ → σ} (h : ∀ s, R s (g s)) : Within R (modify g : StateM σ PUnit) := h

theorem Within.bind [IsTrans σ R] (hx : Within R x) (hf : ∀ a, Within R (f a)) :
    Within R (x >>= f) :=
  fun s => IsTrans.trans _ _ _ (hx s) (hf (x.run s).1 (x.run s).2)

/-- What follows a read of the state may use what was read. -/
theorem Within.get_bind {g : σ → StateM σ β} (h : ∀ s, R s ((g s).run s).2) :
    Within R ((MonadState.get : StateM σ σ) >>= g) := h

theorem Within.ite {p : Prop} [Decidable p] (hx : Within R x) (hy : Within R y) :
    Within R (if p then x else y) := by
  split
  · exact hx
  · exact hy

theorem Within.forM [Std.Refl R] [IsTrans σ R] {l : List α} {g : α → StateM σ PUnit}
    (h : ∀ a, Within R (g a)) : Within R (l.forM g) := by
  induction l with
  | nil => exact .pure _
  | cons a l ih => exact (h a).bind fun _ => ih

end

/-! ### Invariants -/

section
variable {ι : Type} {I : ι → σ → Prop} {Q : α → Prop} {Q' : β → Prop} {x y : StateM σ α}
  {f : α → StateM σ β}

/-- Each invariant of the family holds after the computation where it held before, and the
result is as told. -/
def Maintains (I : ι → σ → Prop) (Q : α → Prop) (x : StateM σ α) : Prop :=
  ∀ i s, I i s → I i (x.run s).2 ∧ Q (x.run s).1

/-- The invariants alone, whatever the result. -/
abbrev Safe (I : ι → σ → Prop) (x : StateM σ α) : Prop := Maintains I (fun _ => True) x

theorem Safe.intro (h : ∀ i s, I i s → I i (x.run s).2) : Safe I x := fun i s hs => ⟨h i s hs, ⟨⟩⟩

theorem Maintains.safe (h : Maintains I Q x) : Safe I x := fun i s hs => ⟨(h i s hs).1, ⟨⟩⟩

theorem Maintains.pure {a : α} (h : Q a) : Maintains I Q (pure a : StateM σ α) :=
  fun _ _ hs => ⟨hs, h⟩

theorem Safe.pure (a : α) : Safe I (pure a : StateM σ α) := Maintains.pure ⟨⟩

/-- A state that is read satisfies the invariants. -/
theorem Maintains.get : Maintains I (fun s => ∃ i, I i s) (get : StateM σ σ) :=
  fun i _ hs => ⟨hs, i, hs⟩

theorem Maintains.bind (hx : Maintains I Q x) (hf : ∀ a, Q a → Maintains I Q' (f a)) :
    Maintains I Q' (x >>= f) := by
  intro i s hs
  have h := hx i s hs
  exact hf _ h.2 i _ h.1

theorem Safe.bind (hx : Safe I x) (hf : ∀ a, Maintains I Q' (f a)) : Maintains I Q' (x >>= f) :=
  Maintains.bind hx fun a _ => hf a

theorem Maintains.ite {p : Prop} [Decidable p] (hx : Maintains I Q x) (hy : Maintains I Q y) :
    Maintains I Q (if p then x else y) := by
  split
  · exact hx
  · exact hy

theorem Safe.forM {l : List α} {g : α → StateM σ PUnit} (h : ∀ a ∈ l, Safe I (g a)) :
    Safe I (l.forM g) := by
  induction l with
  | nil => exact .pure _
  | cons a l ih =>
    exact (h a List.mem_cons_self).bind fun _ => ih fun b hb => h b (List.mem_cons_of_mem a hb)

end

/-! ### Relations as invariants -/

section
variable {R : σ → σ → Prop} {x : StateM σ α}

/-- What a computation stays within holds from any state before it on. -/
theorem Within.safe [IsTrans σ R] (h : Within R x) : Safe R x :=
  .intro fun _ s hs => IsTrans.trans _ _ _ hs (h s)

theorem Safe.within [Std.Refl R] (h : Safe R x) : Within R x :=
  fun s => (h s s (Std.Refl.refl s)).1

end

end Napitia.Stateful
