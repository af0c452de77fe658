import Napitia.Resourceck.State

/-!
# Reading a place from its root down

What decides a place is the first record on the way to it, and that is the record
function restricted to its ancestors: a record table, or the table two paths meet in.
-/
namespace Napitia.Resourceck
open Nir Lower

variable {a b c key place : LocalPlace} {states : PlaceStates} {state : ResourceState}

/-! ### Ancestors -/

theorem isAncestorOf_iff :
    isAncestorOf a b = true ↔ a.root = b.root ∧ a.projections <+: b.projections := by
  simp [isAncestorOf]

@[simp] theorem isAncestorOf_refl : isAncestorOf a a = true := by
  simp [isAncestorOf]

theorem isAncestorOf_trans (hab : isAncestorOf a b) (hbc : isAncestorOf b c) :
    isAncestorOf a c := by
  rw [isAncestorOf_iff] at *
  exact ⟨hab.1.trans hbc.1, hab.2.trans hbc.2⟩

theorem isAncestorOf_antisymm (hab : isAncestorOf a b) (hba : isAncestorOf b a) : a = b := by
  rw [isAncestorOf_iff] at *
  obtain ⟨root, projections⟩ := a
  obtain ⟨root', projections'⟩ := b
  have hproj : projections = projections' := hab.2.eq_of_length_le hba.2.length_le
  simp_all

theorem isAncestorOf_total (hac : isAncestorOf a c) (hbc : isAncestorOf b c) :
    isAncestorOf a b ∨ isAncestorOf b a := by
  rw [isAncestorOf_iff] at hac hbc
  rcases List.prefix_or_prefix_of_prefix hac.2 hbc.2 with h | h
  · exact .inl (isAncestorOf_iff.mpr ⟨hac.1.trans hbc.1.symm, h⟩)
  · exact .inr (isAncestorOf_iff.mpr ⟨hbc.1.trans hac.1.symm, h⟩)

/-! ### A record read down -/

/-- The state a record function gives to a place. -/
def readDown (record : LocalPlace → ResourceState) (place : LocalPlace) : ResourceState :=
  Prefixes.firstAlong (fun projections => record ⟨place.root, projections⟩) .available
    place.projections

/-- Nothing strictly above the place is recorded as anything but `available`. -/
def ClearAbove (record : LocalPlace → ResourceState) (place : LocalPlace) : Prop :=
  ∀ key, isAncestorOf key place → key ≠ place → record key = .available

theorem placeState_eq_readDown : placeState states place = readDown (recorded states) place := rfl

section
variable {record record' : LocalPlace → ResourceState}

theorem clearAbove_iff : ClearAbove record place ↔
    Prefixes.ClearAbove (fun projections => record ⟨place.root, projections⟩) .available
      place.projections := by
  constructor
  · intro h projections hprefix hne
    apply h ⟨place.root, projections⟩ (isAncestorOf_iff.mpr ⟨rfl, hprefix⟩)
    intro heq
    exact hne (congrArg Place.projections heq)
  · intro h key hkey hne
    obtain ⟨root, projections⟩ := key
    obtain ⟨rfl, hprefix⟩ := isAncestorOf_iff.mp hkey
    apply h projections hprefix
    intro heq
    exact hne (by simp only [heq])

theorem ClearAbove.of_ancestor (h : ClearAbove record place) (hkey : isAncestorOf key place) :
    ClearAbove record key := by
  intro k hk hne
  apply h k (isAncestorOf_trans hk hkey)
  intro heq
  subst heq
  exact hne (isAncestorOf_antisymm hk hkey)

theorem readDown_eq_available :
    readDown record place = .available ↔ ∀ key, isAncestorOf key place → record key = .available := by
  rw [readDown, Prefixes.firstAlong_eq_default_iff, ← clearAbove_iff]
  constructor
  · intro h key hkey
    by_cases hne : key = place
    · exact hne ▸ h.2
    · exact h.1 key hkey hne
  · intro h
    exact ⟨fun key hkey _ => h key hkey, h place isAncestorOf_refl⟩

/-- Below a record that is not `available`, with only `available` above it, that record
is read. -/
theorem readDown_of_ancestor (hkey : isAncestorOf key place) (hclear : ClearAbove record key)
    (hne : record key ≠ .available) : readDown record place = record key := by
  obtain ⟨root, projections⟩ := key
  obtain ⟨rfl, hprefix⟩ := isAncestorOf_iff.mp hkey
  exact Prefixes.firstAlong_of_prefix hprefix (clearAbove_iff.mp hclear) hne

theorem readDown_self (hclear : ClearAbove record place) : readDown record place = record place := by
  by_cases h : record place = .available
  · rw [h, readDown_eq_available]
    intro key hkey
    by_cases hne : key = place
    · exact hne ▸ h
    · exact hclear key hkey hne
  · exact readDown_of_ancestor isAncestorOf_refl hclear h

theorem exists_deciding (h : readDown record place ≠ .available) :
    ∃ key, isAncestorOf key place ∧ ClearAbove record key ∧ record key = readDown record place := by
  obtain ⟨projections, hprefix, hclear, heq⟩ := Prefixes.exists_first h
  exact ⟨⟨place.root, projections⟩, isAncestorOf_iff.mpr ⟨rfl, hprefix⟩, clearAbove_iff.mpr hclear,
    heq⟩

theorem readDown_congr (h : ∀ key, isAncestorOf key place → record key = record' key) :
    readDown record place = readDown record' place := by
  apply Prefixes.firstAlong_congr
  intro projections hprefix
  exact h _ (isAncestorOf_iff.mpr ⟨rfl, hprefix⟩)

end

/-! ### Recording a place -/

theorem recorded_setPlaceState : recorded (setPlaceState states place state) key =
    if key = place then state
    else if isAncestorOf place key then .available else recorded states key := by
  by_cases hkey : key = place
  · rw [hkey, recorded, setPlaceState, AList.lookup_insert, if_pos rfl, Option.getD_some]
  · rw [recorded, setPlaceState, AList.lookup_insert_ne hkey, AList.lookup_retain, if_neg hkey]
    by_cases habove : isAncestorOf place key
    · have hroot : key.root = place.root := (isAncestorOf_iff.mp habove).1.symm
      simp [habove, hkey, hroot]
    · simp [habove, recorded]

/-- A place just recorded is read as it was recorded, and so is all below it, unless
something above it decides. -/
theorem placeState_setPlaceState (state : ResourceState) (hbelow : isAncestorOf place key)
    (hclear : ClearAbove (recorded states) place) :
    placeState (setPlaceState states place state) key = state := by
  have hclear' : ClearAbove (recorded (setPlaceState states place state)) place := by
    intro k hk hne
    rw [recorded_setPlaceState, if_neg hne, if_neg fun h => hne (isAncestorOf_antisymm hk h)]
    exact hclear k hk hne
  have hself : recorded (setPlaceState states place state) place = state := by
    rw [recorded_setPlaceState, if_pos rfl]
  rw [placeState_eq_readDown]
  by_cases hstate : state = .available
  · rw [hstate, readDown_eq_available]
    intro k hk
    rcases isAncestorOf_total hk hbelow with h | h
    · by_cases hne : k = place
      · rw [hne, ← hstate, hself]
      · exact hstate ▸ hclear' k h hne
    · rw [recorded_setPlaceState, if_pos h]
      simp
  · rw [readDown_of_ancestor hbelow hclear' (hself.trans_ne hstate), hself]

/-- A record above the place that is not `available` decides whatever is recorded for
the place itself. -/
theorem placeState_setPlaceState_of_above (hkey : isAncestorOf key place) (hne : key ≠ place)
    (hclear : ClearAbove (recorded states) key) (hrecord : recorded states key ≠ .available) :
    placeState (setPlaceState states place state) place = recorded states key := by
  have hsame : ∀ k, isAncestorOf k key →
      recorded (setPlaceState states place state) k = recorded states k := by
    intro k hk
    have hplace : k ≠ place := by
      intro heq
      subst heq
      exact hne (isAncestorOf_antisymm hkey hk)
    rw [recorded_setPlaceState, if_neg hplace, if_neg]
    intro h
    exact hplace (isAncestorOf_antisymm (isAncestorOf_trans hk hkey) h)
  rw [placeState_eq_readDown, readDown_of_ancestor hkey, hsame key isAncestorOf_refl]
  · intro k hk hk'
    rw [hsame k hk]
    exact hclear k hk hk'
  · rw [hsame key isAncestorOf_refl]
    exact hrecord

end Napitia.Resourceck
