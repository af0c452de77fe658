import Mathlib.Data.List.Infix

/-!
# Values standing along a path

A sparse tree that records a value only where something happened is read from the
root down: the first record on the way that is not the default decides for everything
below it.
-/
namespace Napitia.Prefixes
variable {π β : Type}

/-- The first value on the way down to `p` that is not the default. -/
def firstAlong [DecidableEq β] (f : List π → β) (d : β) (p : List π) : β :=
  ((p.inits.map f).find? (· ≠ d)).getD d

/-- Every value strictly above `p` is the default. -/
def ClearAbove (f : List π → β) (d : β) (p : List π) : Prop :=
  ∀ q, q <+: p → q ≠ p → f q = d

section
variable {f g : List π → β} {d u : β} {p q k : List π}

theorem clearAbove_nil : ClearAbove f d [] :=
  fun _ hq hne => absurd (List.prefix_nil.mp hq) hne

theorem ClearAbove.of_prefix (h : ClearAbove f d p) (hk : k <+: p) : ClearAbove f d k := by
  intro q hq hne
  apply h q (hq.trans hk)
  intro heq
  subst heq
  exact hne (hq.eq_of_length_le hk.length_le)

theorem clearAbove_concat {c : π} :
    ClearAbove f d (p ++ [c]) ↔ ClearAbove f d p ∧ f p = d := by
  constructor
  · intro h
    exact ⟨h.of_prefix (List.prefix_append _ _), h p (List.prefix_append _ _) (by simp)⟩
  · intro h q hq hne
    rcases List.prefix_concat_iff.mp hq with heq | hq
    · exact absurd heq hne
    · by_cases hqp : q = p
      · exact hqp ▸ h.2
      · exact h.1 q hq hqp

section
variable [DecidableEq β]

theorem firstAlong_nil : firstAlong f d [] = f [] := by
  by_cases h : f [] = d <;> simp [firstAlong, h]

/-- One step further down: a value already decided stands. -/
theorem firstAlong_concat (c : π) : firstAlong f d (p ++ [c]) =
    if firstAlong f d p = d then f (p ++ [c]) else firstAlong f d p := by
  have hstep : firstAlong f d (p ++ [c]) =
      (((p.inits.map f).find? (· ≠ d)).or ([f (p ++ [c])].find? (· ≠ d))).getD d := by
    have hinits : (p ++ [c]).inits = p.inits ++ [p ++ [c]] := by
      simp [List.inits_append, List.inits]
    rw [firstAlong, hinits, List.map_append, List.map_singleton, List.find?_append]
  obtain h | h := Option.eq_none_or_eq_some ((p.inits.map f).find? (· ≠ d))
  · have hp : firstAlong f d p = d := by
      rw [firstAlong, h, Option.getD_none]
    rw [hstep, h, if_pos hp]
    by_cases hc : f (p ++ [c]) = d <;> simp [hc]
  · obtain ⟨u, hu⟩ := h
    have hp : firstAlong f d p = u := by
      rw [firstAlong, hu, Option.getD_some]
    have hne : u ≠ d := by simpa using List.find?_some hu
    rw [hstep, hu, hp, if_neg hne, Option.some_or, Option.getD_some]

theorem firstAlong_eq_default_iff : firstAlong f d p = d ↔ ClearAbove f d p ∧ f p = d := by
  induction p using List.reverseRecOn with
  | nil => simp [firstAlong_nil, clearAbove_nil]
  | append_singleton p c ih =>
    rw [firstAlong_concat, clearAbove_concat]
    by_cases h : firstAlong f d p = d
    · simp [h, ih.mp h]
    · rw [if_neg h]
      exact iff_of_false h fun hc => h (ih.mpr hc.1)

/-- Below a value that is not the default, with only the default above it, that value
is read. -/
theorem firstAlong_of_prefix (hk : k <+: p) (hclear : ClearAbove f d k) (hu : f k ≠ d) :
    firstAlong f d p = f k := by
  obtain ⟨t, rfl⟩ := hk
  induction t using List.reverseRecOn with
  | nil =>
    rw [List.append_nil]
    induction k using List.reverseRecOn with
    | nil => exact firstAlong_nil
    | append_singleton k c _ =>
      rw [firstAlong_concat, if_pos (firstAlong_eq_default_iff.mpr (clearAbove_concat.mp hclear))]
  | append_singleton t c ih =>
    rw [← List.append_assoc, firstAlong_concat, ih, if_neg hu]

/-- What is read is the default, or stands at some prefix as the first of its kind. -/
theorem exists_first (h : firstAlong f d p ≠ d) :
    ∃ k, k <+: p ∧ ClearAbove f d k ∧ f k = firstAlong f d p := by
  induction p using List.reverseRecOn with
  | nil => exact ⟨[], List.prefix_rfl, clearAbove_nil, firstAlong_nil.symm⟩
  | append_singleton p c ih =>
    by_cases hp : firstAlong f d p = d
    · refine ⟨p ++ [c], List.prefix_rfl, clearAbove_concat.mpr ?_, ?_⟩
      · exact firstAlong_eq_default_iff.mp hp
      · rw [firstAlong_concat, if_pos hp]
    · obtain ⟨k, hk, hclear, heq⟩ := ih hp
      exact ⟨k, hk.trans (List.prefix_append _ _), hclear,
        by rw [heq, firstAlong_concat, if_neg hp]⟩

theorem firstAlong_congr (h : ∀ q, q <+: p → f q = g q) : firstAlong f d p = firstAlong g d p := by
  rw [firstAlong, firstAlong, List.map_congr_left fun q hq => h q ((List.mem_inits q p).mp hq)]

end

end

end Napitia.Prefixes
