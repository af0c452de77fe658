import Mathlib.Control.Basic
import Mathlib.Data.List.Forall2

/-!
# Computations that keep a memo right

A computation over a memo keeps a property of its answer when, from any memo that
is right, it runs to such an answer and leaves a memo that is right. The rules follow
the monad, whatever it is the memo is threaded through.
-/
namespace StateT
variable {σ α β : Type} {m : Type → Type} [Monad m]

/-- From this state the computation reaches an answer that meets `P`, in a state that
meets `I`. -/
def Answers (I : σ → Prop) (x : StateT σ m α) (P : α → Prop) (s : σ) : Prop :=
  ∃ a s', x.run s = pure (a, s') ∧ P a ∧ I s'

/-- From every state that meets `I` the computation reaches an answer that meets
`P`, in a state that meets `I`. -/
def Keeps (I : σ → Prop) (x : StateT σ m α) (P : α → Prop) : Prop := ∀ s, I s → x.Answers I P s

variable {I : σ → Prop}

theorem Keeps.mono {x : StateT σ m α} {P Q : α → Prop} (h : x.Keeps I P)
    (hPQ : ∀ a, P a → Q a) : x.Keeps I Q := by
  intro s hs
  have ⟨a, s', hrun, hP, hI⟩ := h s hs
  exact ⟨a, s', hrun, hPQ a hP, hI⟩

theorem keeps_pure {P : α → Prop} {a : α} (h : P a) :
    (pure a : StateT σ m α).Keeps I P :=
  fun s hs => ⟨a, s, rfl, h, hs⟩

variable [LawfulMonad m]

theorem Keeps.bind {x : StateT σ m α} {f : α → StateT σ m β} {P : α → Prop} {Q : β → Prop}
    (hx : x.Keeps I P) (hf : ∀ a, P a → (f a).Keeps I Q) : (x >>= f).Keeps I Q := by
  intro s hs
  have ⟨a, s', hrun, hP, hI⟩ := hx s hs
  have ⟨b, s'', hrun', hQ, hI'⟩ := hf a hP s' hI
  refine ⟨b, s'', ?_, hQ, hI'⟩
  rw [StateT.run_bind, hrun, pure_bind]
  exact hrun'

theorem keeps_get_bind {f : σ → StateT σ m β} {Q : β → Prop}
    (hf : ∀ s, I s → (f s).Keeps I Q) : ((get : StateT σ m σ) >>= f).Keeps I Q := by
  intro s hs
  have ⟨b, s', hrun, hQ, hI⟩ := hf s hs s hs
  refine ⟨b, s', ?_, hQ, hI⟩
  rw [StateT.run_bind, StateT.run_get, pure_bind]
  exact hrun

omit [LawfulMonad m] in
theorem keeps_modify {f : σ → σ} (hf : ∀ s, I s → I (f s)) :
    (modify f : StateT σ m PUnit).Keeps I fun _ => True :=
  fun s hs => ⟨⟨⟩, f s, StateT.run_modify .., trivial, hf s hs⟩

/-! ### One element after the other -/

/-- From one state to another, each element answered with `P` on the way. -/
inductive Through (f : α → StateT σ m β) (P : β → Prop) : List α → σ → σ → Prop
  | nil {s} : Through f P [] s s
  | cons {a l b s s' t} : (f a).run s = pure (b, s') → P b → Through f P l s' t →
    Through f P (a :: l) s t

/-- The elements before `a` are answered with `P`, which comes to the state `t`. -/
def ComesTo (f : α → StateT σ m β) (P : β → Prop) (l : List α) (s : σ) (a : α) (t : σ) : Prop :=
  ∃ before rest, l = before ++ a :: rest ∧ Through f P before s t

section
variable {f : α → StateT σ m β} {P : β → Prop} {l : List α} {a x : α} {b : β} {s s' t : σ}

omit [LawfulMonad m] in
theorem ComesTo.head : ComesTo f P (a :: l) s a s := ⟨[], l, rfl, .nil⟩

omit [LawfulMonad m] in
theorem ComesTo.tail (hrun : (f a).run s = pure (b, s')) (hb : P b) (h : ComesTo f P l s' x t) :
    ComesTo f P (a :: l) s x t := by
  obtain ⟨before, rest, heq, hthrough⟩ := h
  exact ⟨a :: before, rest, congrArg (a :: ·) heq, .cons hrun hb hthrough⟩

omit [LawfulMonad m] in
theorem ComesTo.mem (h : ComesTo f P l s a t) : a ∈ l := by
  obtain ⟨before, rest, heq, -⟩ := h
  rw [heq]
  exact List.mem_append_right _ List.mem_cons_self

omit [LawfulMonad m] in
/-- Where every element keeps the invariant, so does coming to one. -/
theorem ComesTo.keeps (hpure : Function.Injective (pure : β × σ → m (β × σ))) {Q : α → β → Prop}
    (hf : ∀ x t, ComesTo f P l s x t → I t → (f x).Answers I (Q x) t) (hs : I s)
    (h : ComesTo f P l s a t) : I t := by
  obtain ⟨before, rest, heq, hthrough⟩ := h
  subst heq
  induction hthrough with
  | nil => exact hs
  | cons hrun hb _ ih =>
    obtain ⟨b', s'', hrun', -, hs''⟩ := hf _ _ .head hs
    rw [hrun] at hrun'
    cases hpure hrun'
    exact ih hs'' fun x t hx => hf x t (hx.tail hrun hb)

end

theorem Answers.bind {x : StateT σ m α} {f : α → StateT σ m β} {P : α → Prop} {Q : β → Prop} {s : σ}
    (hx : x.Answers I P s) (hf : ∀ a t, P a → I t → x.run s = pure (a, t) → (f a).Answers I Q t) :
    (x >>= f).Answers I Q s := by
  obtain ⟨a, t, hrun, hP, hI⟩ := hx
  obtain ⟨b, t', hrun', hQ, hI'⟩ := hf a t hP hI hrun
  refine ⟨b, t', ?_, hQ, hI'⟩
  rw [StateT.run_bind, hrun, pure_bind]
  exact hrun'

omit [LawfulMonad m] in
theorem Answers.mono {x : StateT σ m α} {P Q : α → Prop} {s : σ} (h : x.Answers I P s)
    (hPQ : ∀ a, P a → Q a) : x.Answers I Q s := by
  obtain ⟨a, t, hrun, hP, hI⟩ := h
  exact ⟨a, t, hrun, hPQ a hP, hI⟩

theorem Answers.of_get {f : σ → StateT σ m β} {Q : β → Prop} {s : σ} (h : (f s).Answers I Q s) :
    ((get : StateT σ m σ) >>= f).Answers I Q s := by
  obtain ⟨b, t, hrun, hQ, hI⟩ := h
  refine ⟨b, t, ?_, hQ, hI⟩
  rw [StateT.run_bind, StateT.run_get, pure_bind]
  exact hrun

/-- An element is asked only after those before it were answered with `false`. -/
theorem Answers.anyM {f : α → StateT σ m Bool} {q : α → Prop} {l : List α} {s : σ}
    (hf : ∀ a t, ComesTo f (· = false) l s a t → I t → (f a).Answers I (fun b => b = true ↔ q a) t)
    (hs : I s) : (l.anyM f).Answers I (fun b => b = true ↔ ∃ a ∈ l, q a) s := by
  induction l generalizing s with
  | nil => exact keeps_pure (by simp) s hs
  | cons a l ih =>
    rw [List.anyM]
    apply (hf a s .head hs).bind
    intro b t hb ht hrun
    cases b with
    | true => exact keeps_pure (by simp [hb.mp rfl]) t ht
    | false =>
      apply (ih (fun x u hx => hf x u (hx.tail hrun rfl)) ht).mono
      intro b' hb'
      have hno : ¬ q a := fun hq => Bool.false_ne_true (hb.mpr hq)
      simp [hb', hno]

theorem Answers.filterM {f : α → StateT σ m Bool} {q : α → Prop} {l : List α} {s : σ}
    (hf : ∀ a t, ComesTo f (fun _ => True) l s a t → I t →
      (f a).Answers I (fun b => b = true ↔ q a) t) (hs : I s) :
    (l.filterM f).Answers I (fun kept => ∀ a, a ∈ kept ↔ a ∈ l ∧ q a) s := by
  have haux : ∀ acc, (List.filterAuxM f l acc).Answers I (fun kept =>
      ∀ a, a ∈ kept ↔ a ∈ acc ∨ (a ∈ l ∧ q a)) s := by
    induction l generalizing s with
    | nil => exact fun acc => keeps_pure (by simp) s hs
    | cons a l ih =>
      intro acc
      rw [List.filterAuxM]
      apply (hf a s .head hs).bind
      intro b t hb ht hrun
      apply (ih (fun x u hx => hf x u (hx.tail hrun trivial)) ht _).mono
      intro kept hkept x
      rw [hkept x]
      cases b with
      | true =>
        have hq : q a := hb.mp rfl
        simp only [cond_true, List.mem_cons]
        constructor
        · rintro ((heq | hacc) | hrest)
          · exact .inr ⟨.inl heq, heq ▸ hq⟩
          · exact .inl hacc
          · exact .inr ⟨.inr hrest.1, hrest.2⟩
        · rintro (hacc | ⟨heq | hl, hx⟩)
          · exact .inl (.inr hacc)
          · exact .inl (.inl heq)
          · exact .inr ⟨hl, hx⟩
      | false =>
        have hno : ¬ q a := fun hq => Bool.false_ne_true (hb.mpr hq)
        simp only [cond_false, List.mem_cons]
        constructor
        · rintro (hacc | ⟨hl, hx⟩)
          · exact .inl hacc
          · exact .inr ⟨.inr hl, hx⟩
        · rintro (hacc | ⟨heq | hl, hx⟩)
          · exact .inl hacc
          · exact absurd (heq ▸ hx) hno
          · exact .inr ⟨hl, hx⟩
  rw [List.filterM]
  apply (haux []).bind
  intro kept t hkept ht _
  exact keeps_pure (by simpa using hkept) t ht

theorem Answers.mapM {f : α → StateT σ m β} {P : α → β → Prop} {l : List α} {s : σ}
    (hf : ∀ a t, ComesTo f (fun _ => True) l s a t → I t → (f a).Answers I (P a) t) (hs : I s) :
    (l.mapM f).Answers I (List.Forall₂ P l) s := by
  induction l generalizing s with
  | nil => exact keeps_pure .nil s hs
  | cons a l ih =>
    rw [List.mapM_cons]
    apply (hf a s .head hs).bind
    intro b t hb ht hrun
    apply (ih (fun x u hx => hf x u (hx.tail hrun trivial)) ht).bind
    intro bs u hbs hu _
    exact keeps_pure (.cons hb hbs) u hu

end StateT

theorem Option.exists_anyM {α : Type} {f : α → Option Bool} {q : α → Prop} {l : List α}
    (hf : ∀ a ∈ l, ∃ b, f a = some b ∧ (b = true ↔ q a)) :
    ∃ b, l.anyM f = some b ∧ (b = true ↔ ∃ a ∈ l, q a) := by
  induction l with
  | nil => exact ⟨false, rfl, by simp⟩
  | cons a l ih =>
    have ⟨b, hb, hq⟩ := hf a List.mem_cons_self
    have ⟨b', hb', hq'⟩ := ih fun a' ha' => hf a' (List.mem_cons_of_mem _ ha')
    rw [List.anyM, hb]
    cases b with
    | true => exact ⟨true, rfl, by simp [hq.mp rfl]⟩
    | false =>
      have hno : ¬ q a := fun h => Bool.false_ne_true (hq.mpr h)
      exact ⟨b', hb', by simp [hq', hno]⟩
