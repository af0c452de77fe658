import Napitia.Resourceck.Uses

/-!
# What an accepted assignment restores

The checker accepts an assignment to a place that its state proves empty. The place may be
empty because something above it was moved or dropped, and the storage it would be
assigned into is gone with it: recording the place then changes nothing, since what
stands above it goes on deciding it.
-/
namespace Napitia.Resourceck
open Nir Lower

variable {place : LocalPlace} {s : FlowState} {code : String}

/-- The assignment adds no diagnostic. -/
def AcceptsReassignment (s : FlowState) (place : LocalPlace) : Prop :=
  ((checkReassignment place).run s).2.diagnostics = s.diagnostics

/-- The place and all below it is owned after the assignment, and nothing above it had been
moved or dropped before. -/
structure Restores (s : FlowState) (place : LocalPlace) : Prop where
  owned : ∀ key, isAncestorOf place key →
    placeState ((checkReassignment place).run s).2.states key = .available
  standing : ∀ key, isAncestorOf key place → key ≠ place →
    placeState s.states key ≠ .moved ∧ placeState s.states key ≠ .dropped

theorem run_checkReassignment (h : s.rejectsOwnership place = none) :
    (checkReassignment place).run s = (⟨⟩,
      match placeState s.states place with
      | .moved | .dropped => s.setPlace place .available
      | .error => s
      | .available | .dropScheduled =>
        { s with diagnostics := s.diagnostics ++ [Codes.reassignmentOfLiveResource]
                 states := setPlaceState s.states place .error }) := by
  rw [checkReassignment, Stateful.run_bind, run_rejectOwnership_none h]
  cases hstate : placeState s.states place <;>
    simp only [Bool.false_eq_true, if_false, Stateful.run_bind, Stateful.run_get, hstate] <;> rfl

theorem not_accepts_of_rejected (h : s.rejectsOwnership place = some code) :
    ¬ AcceptsReassignment s place := by
  rw [AcceptsReassignment, checkReassignment, Stateful.run_bind, run_rejectOwnership_some h]
  simp only [if_true, Stateful.run_pure]
  exact fun h => List.cons_ne_nil _ _ (List.append_right_eq_self.mp h)

theorem not_accepts_of_live (h : s.rejectsOwnership place = none)
    (hlive : holdsLiveValue (placeState s.states place)) : ¬ AcceptsReassignment s place := by
  rw [AcceptsReassignment, run_checkReassignment h]
  cases hstate : placeState s.states place <;> simp_all [holdsLiveValue]

theorem clearAbove_of_restores (hreject : s.rejectsOwnership place = none)
    (hempty : ¬ holdsLiveValue (placeState s.states place)) (h : Restores s place) :
    ClearAbove (recorded s.states) place ∧ placeState s.states place ≠ .error := by
  have howned := h.owned place isAncestorOf_refl
  rw [run_checkReassignment hreject] at howned
  have herror : placeState s.states place ≠ .error := by
    intro herror
    simp only [herror] at howned
    cases howned
  have hset : placeState (setPlaceState s.states place .available) place = .available := by
    cases hstate : placeState s.states place <;> simp_all [holdsLiveValue, FlowState.setPlace]
  refine ⟨?_, herror⟩
  -- the first record above the place that is not available would decide it still
  intro key hkey hne
  by_contra hrecord
  have hread : placeState s.states key ≠ .available := by
    intro havailable
    exact hrecord (readDown_eq_available.mp havailable key isAncestorOf_refl)
  obtain ⟨first, hfirst, hclear, heq⟩ := exists_deciding hread
  have hfirst_ne : first ≠ place := by
    intro heq'
    subst heq'
    exact hne (isAncestorOf_antisymm hkey hfirst)
  have hfirst_held : recorded s.states first ≠ .available := by
    rw [heq, ← placeState_eq_readDown]
    exact hread
  rw [placeState_setPlaceState_of_above (isAncestorOf_trans hfirst hkey) hfirst_ne hclear
    hfirst_held] at hset
  exact hfirst_held hset

theorem restores_of_clearAbove (hreject : s.rejectsOwnership place = none)
    (hempty : ¬ holdsLiveValue (placeState s.states place))
    (hclear : ClearAbove (recorded s.states) place) (herror : placeState s.states place ≠ .error) :
    Restores s place := by
  constructor
  case owned =>
    intro key hkey
    rw [run_checkReassignment hreject]
    have hset := placeState_setPlaceState .available hkey hclear
    cases hstate : placeState s.states place <;> simp_all [holdsLiveValue, FlowState.setPlace]
  case standing =>
    intro key hkey hne
    have havailable : placeState s.states key = .available := by
      rw [placeState_eq_readDown, readDown_eq_available]
      intro k hk
      apply hclear k (isAncestorOf_trans hk hkey)
      intro heq
      subst heq
      exact hne (isAncestorOf_antisymm hkey hk)
    simp [havailable]

/-- An accepted assignment restores the place, in storage that still stands, exactly when
it is refused anyway, or nothing above the place is recorded as anything but owned and the
place itself is not an error reported before. -/
theorem checkReassignment_restores_iff (s : FlowState) (place : LocalPlace) :
    (AcceptsReassignment s place → Restores s place) ↔
      (s.rejectsOwnership place = none → ¬ holdsLiveValue (placeState s.states place) →
        ClearAbove (recorded s.states) place ∧ placeState s.states place ≠ .error) := by
  constructor
  · intro hrestores hreject hempty
    apply clearAbove_of_restores hreject hempty
    apply hrestores
    rw [AcceptsReassignment, run_checkReassignment hreject]
    cases hstate : placeState s.states place <;> simp_all [holdsLiveValue, FlowState.setPlace]
  · intro hclear haccepts
    have hreject : s.rejectsOwnership place = none := by
      cases hreject : s.rejectsOwnership place with
      | none => rfl
      | some code => exact absurd haccepts (not_accepts_of_rejected hreject)
    have hempty : ¬ holdsLiveValue (placeState s.states place) :=
      fun hlive => not_accepts_of_live hreject hlive haccepts
    exact restores_of_clearAbove hreject hempty (hclear hreject hempty).1 (hclear hreject hempty).2

/-- A field assigned to after its whole record was moved away: accepted, and neither owned
afterwards nor part of anything that still stands. -/
theorem field_of_moved_reassigned :
    let record : LocalPlace := ofRoot ⟨0⟩
    let s : FlowState := ((applyPlaceMove record).run { states := setPlaceState ∅ record .available }).2
    AcceptsReassignment s (fieldOf record ⟨0⟩ ⟨0⟩) ∧ ¬ Restores s (fieldOf record ⟨0⟩ ⟨0⟩) := by
  constructor
  · rw [AcceptsReassignment]
    decide
  intro h
  exact (h.standing (ofRoot ⟨0⟩) (by decide) (by decide)).1 (by decide)

end Napitia.Resourceck
