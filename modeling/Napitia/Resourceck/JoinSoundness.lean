import Napitia.Resourceck.Flow

/-!
# When a join is sound

The join takes an edge that records nothing for a key to stand where the entry stood.
That is wrong for an edge that dropped and assigned anew a whole containing the key: it
erased the record, and owns what the entry had lost. Up to such keys the joined state
is owned only where every edge owns, and a disagreement ends in an error. What is reported
of one depends on more: on the position a construct stands in, and on what was an error
before.
-/
namespace Napitia.Resourceck
open Nir Lower Stateful

/-- Moved away or destroyed. -/
def Gone (state : ResourceState) : Prop := state = .moved ∨ state = .dropped

/-- Owned after the join only if owned on every edge, and an error if owned on one edge
and gone on another. -/
structure JoinMarked (edges : List PlaceStates) (after : PlaceStates) (place : LocalPlace) :
    Prop where
  owned : holdsLiveValue (placeState after place) →
    ∀ edge ∈ edges, holdsLiveValue (placeState edge place)
  marked : ∀ edge ∈ edges, ∀ other ∈ edges, holdsLiveValue (placeState edge place) →
    Gone (placeState other place) → placeState after place = .error

/-- Owned on one edge and gone on another. -/
def Disputed (edges : List PlaceStates) (place : LocalPlace) : Prop :=
  ∃ edge ∈ edges, ∃ other ∈ edges,
    holdsLiveValue (placeState edge place) ∧ Gone (placeState other place)

/-- A place the edges dispute is an error after the join, and it is reported. -/
structure JoinSound (edges : List PlaceStates) (after : PlaceStates) (reports : Prop)
    (place : LocalPlace) : Prop extends JoinMarked edges after place where
  reported : Disputed edges place → reports

section
variable {entry first : PlaceStates} {edges rest : List PlaceStates} {poisoned : List LocalPlace}
  {key place : LocalPlace} {a b u : ResourceState} {l : List ResourceState}

/-! ### Joining states -/

theorem join_eq_iff (hu : u ≠ .error) : a.join b = u ↔ a = u ∧ b = u := by
  rw [ResourceState.join]
  split
  case isTrue h => simp [h]
  case isFalse h =>
    constructor
    · exact fun he => absurd he.symm hu
    · exact fun he => absurd (he.1.trans he.2.symm) h

theorem foldl_join_eq_iff (hu : u ≠ .error) :
    l.foldl ResourceState.join a = u ↔ a = u ∧ ∀ b ∈ l, b = u := by
  induction l generalizing a with
  | nil => simp
  | cons b l ih =>
    rw [List.foldl_cons, ih, join_eq_iff hu]
    simp [and_assoc]

/-- What the edges come to at a key, a poisoned one aside. -/
def merged (entry : PlaceStates) (edges : List PlaceStates) (poisoned : List LocalPlace)
    (key : LocalPlace) : ResourceState :=
  if key ∈ poisoned then .error
  else
    match edges.map (defaultFor entry · key) with
    | [] => .available
    | first :: rest => rest.foldl ResourceState.join first

theorem merged_of_mem (h : key ∈ poisoned) : merged entry edges poisoned key = .error := if_pos h

theorem merged_cons_of_notMem (h : key ∉ poisoned) :
    merged entry (first :: rest) poisoned key =
      (rest.map (defaultFor entry · key)).foldl ResourceState.join (defaultFor entry first key) :=
  if_neg h

theorem merged_eq_iff (hedges : edges ≠ []) (hu : u ≠ .error) :
    merged entry edges poisoned key = u ↔
      key ∉ poisoned ∧ ∀ edge ∈ edges, defaultFor entry edge key = u := by
  obtain ⟨first, rest, rfl⟩ := List.exists_cons_of_ne_nil hedges
  by_cases hkey : key ∈ poisoned
  · simp [merged_of_mem hkey, hkey, hu.symm]
  · rw [merged_cons_of_notMem hkey, foldl_join_eq_iff hu]
    simp [hkey]

/-! ### The joined tables -/

theorem recorded_of_notMem (h : key ∉ entry.keys) : recorded entry key = .available := by
  rw [recorded, AList.lookup_eq_none.mpr (AList.mem_keys.not.mpr h), Option.getD_none]

theorem mem_keys_of_recorded (h : recorded entry key ≠ .available) : key ∈ entry.keys := by
  by_contra hkey
  exact h (recorded_of_notMem hkey)

theorem mem_trackedRoots (h : key ∈ entry.keys) : key.root ∈ trackedRoots entry :=
  List.mem_map.mpr ⟨key, h, rfl⟩

theorem mem_trackedKeys {states : PlaceStates} :
    key ∈ trackedKeys entry states ↔ key ∈ states.keys ∧ key.root ∈ trackedRoots entry := by
  simp [trackedKeys]

theorem mem_compareKeys_of_entry {backedges : List PlaceStates} (h : key ∈ entry.keys) :
    key ∈ compareKeys entry backedges := by
  simp [compareKeys, h]

theorem defaultFor_of_notMem {states : PlaceStates} (h : key ∉ states.keys) :
    defaultFor entry states key = recorded entry key := by
  rw [defaultFor, AList.lookup_eq_none.mpr (AList.mem_keys.not.mpr h), Option.getD_none]

theorem merged_of_notMem (hedges : edges ≠ []) (hroot : key.root ∈ trackedRoots entry)
    (hentry : key ∉ entry.keys) (hkeys : key ∉ edges.flatMap (trackedKeys entry))
    (hpoisoned : key ∉ poisoned) : merged entry edges poisoned key = .available := by
  rw [merged_eq_iff hedges (by decide)]
  refine ⟨hpoisoned, ?_⟩
  intro edge hedge
  have hedgeKeys : key ∉ edge.keys := fun h =>
    hkeys (List.mem_flatMap.mpr ⟨edge, hedge, mem_trackedKeys.mpr ⟨h, hroot⟩⟩)
  rw [defaultFor_of_notMem hedgeKeys, recorded_of_notMem hentry]

theorem lookup_foldl_join (table : PlaceStates) :
    (rest.foldl (fun joined other => joined.mapValues fun key state =>
      state.join (defaultFor entry other key)) table).lookup key =
      (table.lookup key).map fun state =>
        (rest.map (defaultFor entry · key)).foldl ResourceState.join state := by
  induction rest generalizing table with
  | nil => simp
  | cons other rest ih =>
    rw [List.foldl_cons, ih, AList.lookup_mapValues]
    cases table.lookup key <;> rfl

theorem recorded_joinBranchStates {branches : List (PlaceStates × Bool)}
    (hedges : reachableBranches branches ≠ []) (hroot : key.root ∈ trackedRoots entry) :
    recorded (joinBranchStates entry branches) key =
      merged entry (reachableBranches branches) [] key := by
  obtain ⟨first, rest, heq⟩ := List.exists_cons_of_ne_nil hedges
  rw [recorded, joinBranchStates, heq]
  simp only [lookup_foldl_join, AList.lookup_tabulate, List.mem_dedup, List.mem_append]
  by_cases hkey : key ∈ entry.keys ∨ key ∈ (first :: rest).flatMap (trackedKeys entry)
  · rw [if_pos hkey, merged_cons_of_notMem List.not_mem_nil, Option.map_some, Option.getD_some]
  · rw [if_neg hkey, Option.map_none, Option.getD_none]
    rw [not_or] at hkey
    rw [merged_of_notMem (List.cons_ne_nil _ _) hroot hkey.1 hkey.2 List.not_mem_nil]

theorem lookup_foldl_joinExit (acc : PlaceStates × List LocalPlace) :
    (rest.foldl (joinExit entry poisoned) acc).1.lookup key =
      (acc.1.lookup key).map fun state =>
        if key ∈ poisoned then state
        else (rest.map (defaultFor entry · key)).foldl ResourceState.join state := by
  induction rest generalizing acc with
  | nil => simp
  | cons other rest ih =>
    rw [List.foldl_cons, ih, joinExit, AList.lookup_mapValues]
    by_cases hkey : key ∈ poisoned <;> cases acc.1.lookup key <;> simp [hkey]

theorem lookup_foldl_insert_error (table : PlaceStates) :
    (poisoned.foldl (fun after key => after.insert key ResourceState.error) table).lookup key =
      if key ∈ poisoned then some .error else table.lookup key := by
  induction poisoned generalizing table with
  | nil => simp
  | cons k poisoned ih =>
    rw [List.foldl_cons, ih]
    by_cases hmem : key ∈ poisoned
    · simp [hmem]
    · by_cases hk : key = k
      · rw [hk, AList.lookup_insert]
        simp
      · simp [hmem, hk, AList.lookup_insert_ne hk]

theorem recorded_finishLoop {afterBase : Option PlaceStates} {frame : LoopFrame}
    {reachable : Bool} {fallthrough : PlaceStates}
    (hedges : frame.breakStates ++ afterBase.toList ≠ [])
    (hroot : key.root ∈ trackedRoots entry) :
    recorded (finishLoop entry afterBase frame reachable fallthrough).1 key =
      merged entry (frame.breakStates ++ afterBase.toList)
        (poisonedKeys entry (frame.backedges reachable fallthrough)) key := by
  obtain ⟨first, rest, heq⟩ := List.exists_cons_of_ne_nil hedges
  rw [recorded, finishLoop, heq]
  simp only [lookup_foldl_joinExit, lookup_foldl_insert_error, AList.lookup_tabulate,
    List.mem_dedup, List.mem_append]
  by_cases hpoisoned : key ∈ poisonedKeys entry (frame.backedges reachable fallthrough)
  · simp [hpoisoned, merged_of_mem]
  · simp only [if_neg hpoisoned]
    split
    · rw [merged_cons_of_notMem hpoisoned, Option.map_some, Option.getD_some]
    · rename_i hkey
      rw [Option.map_none, Option.getD_none]
      rw [not_or] at hkey
      have hentry : key ∉ entry.keys := fun h => hkey.1 (mem_compareKeys_of_entry h)
      rw [merged_of_notMem (List.cons_ne_nil _ _) hroot hentry hkey.2 hpoisoned]

/-! ### Stale keys -/

theorem defaultFor_of_mem (entry : PlaceStates) {states : PlaceStates} (h : key ∈ states.keys) :
    defaultFor entry states key = recorded states key := by
  obtain ⟨state, hstate⟩ := Option.isSome_iff_exists.mp (AList.lookup_isSome.mpr h)
  simp [defaultFor, recorded, hstate]

theorem recorded_of_defaultFor {states : PlaceStates}
    (h : defaultFor entry states key = .available) : recorded states key = .available := by
  by_cases hkey : key ∈ states.keys
  · rw [← defaultFor_of_mem entry hkey, h]
  · exact recorded_of_notMem hkey

/-- The join takes this key to stand where it stood on entry, though some edge has
erased its record. -/
structure Stale (entry : PlaceStates) (edges : List PlaceStates) (poisoned : List LocalPlace)
    (key : LocalPlace) : Prop where
  held : recorded entry key ≠ .available
  known : recorded entry key ≠ .error
  unpoisoned : key ∉ poisoned
  erased : ∃ edge ∈ edges, key ∉ edge.keys
  agreed : ∀ edge ∈ edges, defaultFor entry edge key = recorded entry key
  above : ∀ k, isAncestorOf k key → k ≠ key →
    k ∉ poisoned ∧ ∀ edge ∈ edges, defaultFor entry edge k = .available

/-- Nothing comes of a stale key: what the entry had lost is kept by no edge's record and
disagreed about nowhere below, and what a `defer` protected is owned on every edge. -/
structure Harmless (entry : PlaceStates) (edges : List PlaceStates) (key : LocalPlace) : Prop where
  lost : Gone (recorded entry key) → ∀ edge ∈ edges, key ∉ edge.keys
  agreeing : Gone (recorded entry key) → ∀ place, isAncestorOf key place →
    ∀ edge ∈ edges, ∀ other ∈ edges, holdsLiveValue (placeState edge place) →
      ¬ Gone (placeState other place)
  protected_ : recorded entry key = .dropScheduled → ∀ place, isAncestorOf key place →
    ∀ edge ∈ edges, holdsLiveValue (placeState edge place)

theorem Stale.tracked (h : Stale entry edges poisoned key) : key.root ∈ trackedRoots entry :=
  mem_trackedRoots (mem_keys_of_recorded h.held)

theorem Stale.merged (h : Stale entry edges poisoned key) :
    merged entry edges poisoned key = recorded entry key := by
  obtain ⟨edge, hedge, _⟩ := h.erased
  exact (merged_eq_iff (List.ne_nil_of_mem hedge) h.known).mpr ⟨h.unpoisoned, h.agreed⟩

theorem Stale.clearAbove (h : Stale entry edges poisoned key) :
    ClearAbove (Resourceck.merged entry edges poisoned) key := by
  intro k hk hne
  obtain ⟨edge, hedge, _⟩ := h.erased
  exact (merged_eq_iff (List.ne_nil_of_mem hedge) (by decide)).mpr (h.above k hk hne)

theorem Stale.edge_clearAbove (h : Stale entry edges poisoned key) {edge : PlaceStates}
    (hedge : edge ∈ edges) : ClearAbove (recorded edge) key :=
  fun k hk hne => recorded_of_defaultFor ((h.above k hk hne).2 edge hedge)

theorem Stale.owned (h : Stale entry edges poisoned key) {edge : PlaceStates}
    (hedge : edge ∈ edges) (hkey : key ∉ edge.keys) : placeState edge key = .available := by
  rw [placeState_eq_readDown, readDown_self (h.edge_clearAbove hedge), recorded_of_notMem hkey]

theorem Stale.kept (h : Stale entry edges poisoned key) {edge : PlaceStates}
    (hedge : edge ∈ edges) (hkey : key ∈ edge.keys) : placeState edge key = recorded entry key := by
  rw [placeState_eq_readDown, readDown_self (h.edge_clearAbove hedge),
    ← defaultFor_of_mem entry hkey, h.agreed edge hedge]

theorem gone_not_live (h : Gone u) : ¬ holdsLiveValue u := by
  rcases h with rfl | rfl <;> decide

theorem gone_ne_error (h : Gone u) : u ≠ .error := by
  rcases h with rfl | rfl <;> decide

theorem scheduled_of_live (hlive : holdsLiveValue u) (hne : u ≠ .available) :
    u = .dropScheduled := by
  cases u <;> simp_all [holdsLiveValue]

theorem scheduled_of_held (hne : u ≠ .available) (hknown : u ≠ .error) (hgone : ¬ Gone u) :
    u = .dropScheduled := by
  cases u <;> simp_all [Gone]

theorem placeState_of_merged {after : PlaceStates}
    (hafter : ∀ key : LocalPlace, key.root ∈ trackedRoots entry →
      recorded after key = merged entry edges poisoned key)
    (hroot : place.root ∈ trackedRoots entry) :
    placeState after place = readDown (merged entry edges poisoned) place := by
  apply readDown_congr
  intro k hk
  apply hafter
  rw [(isAncestorOf_iff.mp hk).1]
  exact hroot

theorem Stale.placeState {after : PlaceStates}
    (hafter : ∀ key : LocalPlace, key.root ∈ trackedRoots entry →
      recorded after key = Resourceck.merged entry edges poisoned key)
    (h : Stale entry edges poisoned key) (hplace : isAncestorOf key place) :
    placeState after place = recorded entry key := by
  have hroot : place.root ∈ trackedRoots entry := (isAncestorOf_iff.mp hplace).1 ▸ h.tracked
  rw [placeState_of_merged hafter hroot, ← h.merged]
  apply readDown_of_ancestor hplace h.clearAbove
  rw [h.merged]
  exact h.held

theorem harmless_of_marked {after : PlaceStates}
    (hafter : ∀ key : LocalPlace, key.root ∈ trackedRoots entry →
      recorded after key = merged entry edges poisoned key)
    (hsound : ∀ place : LocalPlace, place.root ∈ trackedRoots entry → JoinMarked edges after place)
    (h : Stale entry edges poisoned key) : Harmless entry edges key := by
  have hbelow : ∀ place, isAncestorOf key place → JoinMarked edges after place := by
    intro place hplace
    exact hsound place ((isAncestorOf_iff.mp hplace).1 ▸ h.tracked)
  have hagreeing : Gone (recorded entry key) → ∀ place, isAncestorOf key place →
      ∀ edge ∈ edges, ∀ other ∈ edges, holdsLiveValue (placeState edge place) →
        ¬ Gone (placeState other place) := by
    intro hgone place hplace edge hedge other hother hlive hother'
    have herror := (hbelow place hplace).marked edge hedge other hother hlive hother'
    rw [h.placeState hafter hplace] at herror
    exact gone_ne_error hgone herror
  constructor
  case lost =>
    intro hgone edge hedge hkey
    obtain ⟨other, hother, hnone⟩ := h.erased
    apply hagreeing hgone key isAncestorOf_refl other hother edge hedge
    · rw [h.owned hother hnone]
      rfl
    · rwa [h.kept hedge hkey]
  case agreeing => exact hagreeing
  case protected_ =>
    intro hscheduled place hplace
    apply (hbelow place hplace).owned
    rw [h.placeState hafter hplace, hscheduled]
    rfl

theorem marked_of_harmless {after : PlaceStates} (hedges : edges ≠ [])
    (hafter : ∀ key : LocalPlace, key.root ∈ trackedRoots entry →
      recorded after key = merged entry edges poisoned key)
    (hharmless : ∀ key, Stale entry edges poisoned key → Harmless entry edges key)
    (hroot : place.root ∈ trackedRoots entry) : JoinMarked edges after place := by
  have hread := placeState_of_merged hafter hroot
  by_cases havailable : placeState after place = .available
  · -- every record on the way is available on every edge
    have hlive : ∀ edge ∈ edges, placeState edge place = .available := by
      intro edge hedge
      rw [placeState_eq_readDown, readDown_eq_available]
      intro k hk
      rw [hread, readDown_eq_available] at havailable
      exact recorded_of_defaultFor
        (((merged_eq_iff hedges (by decide)).mp (havailable k hk)).2 edge hedge)
    constructor
    case owned =>
      intro _ edge hedge
      rw [hlive edge hedge]
      rfl
    case marked =>
      intro _ _ other hother _ hgone
      rw [hlive other hother] at hgone
      exact absurd rfl (gone_not_live hgone)
  by_cases herror : placeState after place = .error
  · constructor
    · intro hlive
      rw [herror] at hlive
      exact absurd hlive (by decide)
    · exact fun _ _ _ _ _ _ => herror
  -- one key decides, and all edges agree about it
  obtain ⟨key, hkey, hclear, hmerged⟩ := exists_deciding (hread ▸ havailable)
  rw [← hread] at hmerged
  have hagreed := (merged_eq_iff hedges (hmerged.trans_ne herror)).mp rfl
  have habove : ∀ k, isAncestorOf k key → k ≠ key →
      k ∉ poisoned ∧ ∀ edge ∈ edges, defaultFor entry edge k = .available :=
    fun k hk hne => (merged_eq_iff hedges (by decide)).mp (hclear k hk hne)
  by_cases hkept : ∀ edge ∈ edges, key ∈ edge.keys
  · have hsame : ∀ edge ∈ edges, placeState edge place = placeState after place := by
      intro edge hedge
      have hrecord : recorded edge key = placeState after place := by
        rw [← defaultFor_of_mem entry (hkept edge hedge), hagreed.2 edge hedge, hmerged]
      rw [placeState_eq_readDown, readDown_of_ancestor hkey, hrecord]
      · exact fun k hk hne => recorded_of_defaultFor ((habove k hk hne).2 edge hedge)
      · rwa [hrecord]
    constructor
    case owned =>
      intro hlive edge hedge
      rwa [hsame edge hedge]
    case marked =>
      intro edge hedge other hother hlive hgone
      rw [hsame edge hedge] at hlive
      rw [hsame other hother] at hgone
      exact absurd hlive (gone_not_live hgone)
  · rw [not_forall] at hkept
    obtain ⟨edge₀, hkept⟩ := hkept
    rw [Classical.not_imp] at hkept
    have hentry : recorded entry key = placeState after place := by
      rw [← defaultFor_of_notMem hkept.2, hagreed.2 edge₀ hkept.1, hmerged]
    have hstale : Stale entry edges poisoned key :=
      { held := hentry.trans_ne havailable
        known := hentry.trans_ne herror
        unpoisoned := hagreed.1
        erased := ⟨edge₀, hkept⟩
        agreed := fun edge hedge => by rw [hagreed.2 edge hedge, hmerged, hentry]
        above := habove }
    have hharm := hharmless key hstale
    constructor
    case owned =>
      intro hlive
      apply hharm.protected_ _ place hkey
      rw [hentry]
      exact scheduled_of_live hlive havailable
    case marked =>
      intro edge hedge other hother hlive hgone
      by_cases hlost : Gone (recorded entry key)
      · exact absurd hgone (hharm.agreeing hlost place hkey edge hedge other hother hlive)
      · have hscheduled : recorded entry key = .dropScheduled :=
          scheduled_of_held hstale.held hstale.known hlost
        exact absurd (hharm.protected_ hscheduled place hkey other hother) (gone_not_live hgone)

theorem marked_iff_harmless {after : PlaceStates} (hedges : edges ≠ [])
    (hafter : ∀ key : LocalPlace, key.root ∈ trackedRoots entry →
      recorded after key = merged entry edges poisoned key) :
    (∀ place : LocalPlace, place.root ∈ trackedRoots entry → JoinMarked edges after place) ↔
      ∀ key, Stale entry edges poisoned key → Harmless entry edges key :=
  ⟨fun hsound _ hstale => harmless_of_marked hafter hsound hstale,
    fun hharmless _ hroot => marked_of_harmless hedges hafter hharmless hroot⟩

theorem not_stale_nil : ¬ Stale entry [] poisoned key := by
  intro h
  obtain ⟨edge, hedge, _⟩ := h.erased
  exact List.not_mem_nil hedge

theorem joinMarked_nil {after : PlaceStates} : JoinMarked [] after place :=
  ⟨fun _ _ hedge => absurd hedge List.not_mem_nil, fun _ hedge => absurd hedge List.not_mem_nil⟩

/-! ### The top of a loop -/

/-- A place owned on entry and gone where a path reaches the top again, or the other way
round, is an error after the loop: some key at or above it is poisoned. -/
def CarryPoisoned (entry : PlaceStates) (backedges : List PlaceStates) (place : LocalPlace) : Prop :=
  ∀ edge ∈ backedges,
    holdsLiveValue (placeState entry place) ∧ Gone (placeState edge place) ∨
      Gone (placeState entry place) ∧ holdsLiveValue (placeState edge place) →
    ∃ key ∈ poisonedKeys entry backedges, isAncestorOf key place

/-- The same, and it is reported. -/
def CarrySound (entry : PlaceStates) (backedges : List PlaceStates) (reports : Prop)
    (place : LocalPlace) : Prop :=
  ∀ edge ∈ backedges,
    holdsLiveValue (placeState entry place) ∧ Gone (placeState edge place) ∨
      Gone (placeState entry place) ∧ holdsLiveValue (placeState edge place) →
    (∃ key ∈ poisonedKeys entry backedges, isAncestorOf key place) ∧ reports

/-- What the entry holds for the key is decided there, and the edge has erased it. -/
structure Erased (entry edge : PlaceStates) (key : LocalPlace) : Prop where
  erased : key ∉ edge.keys
  entryAbove : ClearAbove (recorded entry) key
  edgeAbove : ClearAbove (recorded edge) key

/-- What the entry had lost, and what a `defer` protects and the edge has lost below, is
compared at or above the place all the same. -/
structure Compared (entry edge : PlaceStates) (backedges : List PlaceStates) (key : LocalPlace) :
    Prop where
  lost : Gone (recorded entry key) → ∃ k ∈ poisonedKeys entry backedges, isAncestorOf k key
  scheduled : recorded entry key = .dropScheduled → ∀ place, isAncestorOf key place →
    Gone (placeState edge place) → ∃ k ∈ poisonedKeys entry backedges, isAncestorOf k place

variable {edge : PlaceStates} {backedges : List PlaceStates}

/-- A key recorded on a back edge and not poisoned is recorded as on entry, or as an error
on one of the two. -/
theorem recorded_of_unpoisoned (hedge : edge ∈ backedges) (hkey : key ∈ edge.keys)
    (hroot : key.root ∈ trackedRoots entry) (hknown : recorded entry key ≠ .error)
    (h : key ∉ poisonedKeys entry backedges) :
    recorded edge key = recorded entry key ∨ recorded edge key = .error := by
  by_contra hne
  rw [not_or] at hne
  apply h
  have hcompare : key ∈ compareKeys entry backedges := by
    simp only [compareKeys, List.mem_dedup, List.mem_append, List.mem_flatMap]
    exact .inr ⟨edge, hedge, mem_trackedKeys.mpr ⟨hkey, hroot⟩⟩
  simp only [poisonedKeys, List.mem_filter, List.any_eq_true, decide_eq_true_eq]
  exact ⟨hcompare, hknown, edge, hedge, by rwa [defaultFor_of_mem _ hkey]⟩

theorem ancestor_tracked (hroot : place.root ∈ trackedRoots entry)
    (hkey : isAncestorOf key place) : key.root ∈ trackedRoots entry := by
  rw [(isAncestorOf_iff.mp hkey).1]
  exact hroot

theorem gone_ne_available (h : Gone u) : u ≠ .available := by
  rcases h with rfl | rfl <;> decide

theorem Erased.entry_state (h : Erased entry edge key) (hplace : isAncestorOf key place)
    (hheld : recorded entry key ≠ .available) : placeState entry place = recorded entry key :=
  readDown_of_ancestor hplace h.entryAbove hheld

theorem Erased.edge_state (h : Erased entry edge key) : placeState edge key = .available := by
  rw [placeState_eq_readDown, readDown_self h.edgeAbove, recorded_of_notMem h.erased]

theorem compared_of_carryPoisoned
    (hsound : ∀ place : LocalPlace, place.root ∈ trackedRoots entry →
      CarryPoisoned entry backedges place)
    (hedge : edge ∈ backedges) (h : Erased entry edge key) :
    Compared entry edge backedges key := by
  constructor
  case lost =>
    intro hgone
    have hheld := gone_ne_available hgone
    apply hsound key (mem_trackedRoots (mem_keys_of_recorded hheld)) edge hedge
    right
    rw [h.entry_state isAncestorOf_refl hheld, h.edge_state]
    exact ⟨hgone, rfl⟩
  case scheduled =>
    intro hscheduled place hplace hgone
    have hheld : recorded entry key ≠ .available := by simp [hscheduled]
    have hroot := mem_trackedRoots (mem_keys_of_recorded hheld)
    apply hsound place ((isAncestorOf_iff.mp hplace).1 ▸ hroot) edge hedge
    left
    rw [h.entry_state hplace hheld, hscheduled]
    exact ⟨rfl, hgone⟩

/-- Where the back edge records `available` and nothing else above a key of the entry, and
the key is not poisoned, the edge has erased the key. -/
theorem erased_of_unpoisoned (hedge : edge ∈ backedges) (hroot : key.root ∈ trackedRoots entry)
    (hentry : ClearAbove (recorded entry) key) (hheld : recorded entry key ≠ .available)
    (hknown : recorded entry key ≠ .error) (hunpoisoned : key ∉ poisonedKeys entry backedges)
    (habove : ClearAbove (recorded edge) key) (hrecord : recorded edge key = .available) :
    Erased entry edge key := by
  refine ⟨?_, hentry, habove⟩
  intro hkey
  rcases recorded_of_unpoisoned hedge hkey hroot hknown hunpoisoned with h | h
  · exact hheld (h.symm.trans hrecord)
  · rw [hrecord] at h
    cases h

/-- Two records on the way to one place that each decide it, in their own table: the one
further up is not touched by the other table. -/
theorem above_or_below {record record' : LocalPlace → ResourceState} {key' : LocalPlace}
    (hkey : isAncestorOf key place) (hkey' : isAncestorOf key' place)
    (hclear : ClearAbove record key) (hclear' : ClearAbove record' key') :
    key = key' ∨ record key' = .available ∨
      (ClearAbove record' key ∧ record' key = .available) := by
  by_cases heq : key = key'
  · exact .inl heq
  rcases isAncestorOf_total hkey hkey' with h | h
  · exact .inr (.inr ⟨hclear'.of_ancestor h, hclear' key h heq⟩)
  · exact .inr (.inl (hclear key' h (Ne.symm heq)))

theorem carryPoisoned_of_compared
    (hcompared : ∀ edge ∈ backedges, ∀ key, Erased entry edge key →
      Compared entry edge backedges key)
    (hroot : place.root ∈ trackedRoots entry) : CarryPoisoned entry backedges place := by
  intro edge hedge hdisagree
  by_contra hnone
  have hunpoisoned : ∀ key, isAncestorOf key place → key ∉ poisonedKeys entry backedges :=
    fun key hkey hmem => hnone ⟨key, hmem, hkey⟩
  rcases hdisagree with ⟨hlive, hgone⟩ | ⟨hgone, hlive⟩
  · -- lost on the back edge: at a key the entry records nothing of its own for
    obtain ⟨key, hkey, hclear, hrecord⟩ := exists_deciding (gone_ne_available hgone)
    rw [← placeState_eq_readDown] at hrecord
    rw [← hrecord] at hgone
    have hmem := mem_keys_of_recorded (gone_ne_available hgone)
    have hsame : recorded entry key = .error ∨ recorded edge key = recorded entry key := by
      by_cases herror : recorded entry key = .error
      · exact .inl herror
      · rcases recorded_of_unpoisoned hedge hmem (ancestor_tracked hroot hkey) herror
          (hunpoisoned key hkey) with h | h
        · exact .inr h
        · exact absurd h (gone_ne_error hgone)
    have hheld : recorded entry key ≠ .available := by
      rcases hsame with h | h
      · simp [h]
      · rw [← h]
        exact gone_ne_available hgone
    have hnot : placeState entry place ≠ .available := by
      intro h
      exact hheld (readDown_eq_available.mp h key hkey)
    have hscheduled := scheduled_of_live hlive hnot
    obtain ⟨key', hkey', hclear', hrecord'⟩ := exists_deciding hnot
    rw [← placeState_eq_readDown, hscheduled] at hrecord'
    rcases above_or_below hkey' hkey hclear' hclear with heq | habove | ⟨habove, havailable⟩
    · subst heq
      rcases hsame with h | h
      · rw [hrecord'] at h
        cases h
      · rw [h, hrecord'] at hgone
        exact absurd rfl (gone_not_live hgone)
    · exact hheld habove
    · have herased := erased_of_unpoisoned hedge (ancestor_tracked hroot hkey') hclear'
        (by simp [hrecord']) (by simp [hrecord']) (hunpoisoned key' hkey') habove havailable
      exact hnone ((hcompared edge hedge key' herased).scheduled hrecord' place hkey'
        (hrecord ▸ hgone))
  · -- lost on entry: at a key the back edge has erased
    obtain ⟨key, hkey, hclear, hrecord⟩ := exists_deciding (gone_ne_available hgone)
    rw [← placeState_eq_readDown] at hrecord
    rw [← hrecord] at hgone
    have hheld := gone_ne_available hgone
    have hknown := gone_ne_error hgone
    have habove : ClearAbove (recorded edge) key ∧ recorded edge key = .available := by
      by_cases hnot : placeState edge place = .available
      · have hall := readDown_eq_available.mp hnot
        exact ⟨fun k hk _ => hall k (isAncestorOf_trans hk hkey), hall key hkey⟩
      · have hscheduled := scheduled_of_live hlive hnot
        obtain ⟨key', hkey', hclear', hrecord'⟩ := exists_deciding hnot
        rw [← placeState_eq_readDown, hscheduled] at hrecord'
        have hmem' : key' ∈ edge.keys := mem_keys_of_recorded (by simp [hrecord'])
        have hcompare : recorded entry key' ≠ .error →
            recorded edge key' = recorded entry key' := by
          intro herror
          rcases recorded_of_unpoisoned hedge hmem' (ancestor_tracked hroot hkey') herror
            (hunpoisoned key' hkey') with h | h
          · exact h
          · rw [hrecord'] at h
            cases h
        rcases above_or_below hkey hkey' hclear hclear' with heq | h | h
        · subst heq
          rw [← hcompare hknown, hrecord'] at hgone
          exact absurd rfl (gone_not_live hgone)
        · have := hcompare (by simp [h])
          rw [h, hrecord'] at this
          cases this
        · exact h
    have herased := erased_of_unpoisoned hedge (ancestor_tracked hroot hkey) hclear hheld hknown
      (hunpoisoned key hkey) habove.1 habove.2
    obtain ⟨k, hk, hkk⟩ := (hcompared edge hedge key herased).lost hgone
    exact hnone ⟨k, hk, isAncestorOf_trans hkk hkey⟩

theorem carryPoisoned_iff_compared :
    (∀ place : LocalPlace, place.root ∈ trackedRoots entry → CarryPoisoned entry backedges place) ↔
      ∀ edge ∈ backedges, ∀ key, Erased entry edge key → Compared entry edge backedges key :=
  ⟨fun hsound _ hedge _ h => compared_of_carryPoisoned hsound hedge h,
    fun hcompared _ hroot => carryPoisoned_of_compared hcompared hroot⟩

end

/-! ### What is reported -/

section
variable {entry : PlaceStates} {edges rest : List PlaceStates} {poisoned : List LocalPlace}
  {key place : LocalPlace} {branches : List (PlaceStates × Bool)} {kind : ConsumeKind}

theorem not_disputed_nil : ¬ Disputed [] place := by
  rintro ⟨edge, hedge, -⟩
  exact List.not_mem_nil hedge

theorem JoinMarked.error {after : PlaceStates} (h : JoinMarked edges after place)
    (hdisputed : Disputed edges place) : placeState after place = .error := by
  obtain ⟨edge, hedge, other, hother, hlive, hgone⟩ := hdisputed
  exact h.marked edge hedge other hother hlive hgone

theorem isError_iff {states : PlaceStates} :
    isError states = true ↔ ∃ key, states.lookup key = some .error := by
  simp only [isError, List.any_eq_true, decide_eq_true_eq]
  constructor
  · rintro ⟨⟨key, state⟩, hmem, rfl⟩
    exact ⟨key, AList.mem_lookup_iff.mpr hmem⟩
  · rintro ⟨key, hlookup⟩
    exact ⟨⟨key, .error⟩, AList.mem_lookup_iff.mp hlookup, rfl⟩

theorem isError_of_placeState {states : PlaceStates} (h : placeState states place = .error) :
    isError states = true := by
  obtain ⟨key, -, -, hrecord⟩ := exists_deciding (h.trans_ne (by decide))
  rw [← placeState_eq_readDown, h, recorded] at hrecord
  cases hlookup : states.lookup key with
  | none =>
    rw [hlookup] at hrecord
    cases hrecord
  | some state =>
    rw [hlookup, Option.getD_some] at hrecord
    subst hrecord
    exact isError_iff.mpr ⟨key, hlookup⟩

/-- A construct in returned position reports nothing of its branches, and no other does so
where there was an error before. -/
theorem finishBranches_reports (kind : ConsumeKind) (entry : PlaceStates)
    (branches : List (PlaceStates × Bool)) (s : FlowState) :
    ((finishBranches kind entry branches).run s).2.diagnostics ≠ s.diagnostics ↔
      kind ≠ .returned ∧ isError (joinBranchStates entry branches) = true ∧
        isError entry = false := by
  simp only [finishBranches, run_bind, run_modify, run_ite, diagnose, run_pure, Bool.not_eq_true']
  split
  case isTrue h => exact iff_of_true (by simp) h
  case isFalse h => exact iff_of_false (fun hne => hne rfl) h

theorem finishBranches_states (kind : ConsumeKind) (entry : PlaceStates)
    (branches : List (PlaceStates × Bool)) (s : FlowState) :
    ((finishBranches kind entry branches).run s).2.states = joinBranchStates entry branches := by
  simp only [finishBranches, run_bind, run_modify, run_ite, diagnose, run_pure]
  split <;> rfl

theorem mem_foldl_joinExit (acc : PlaceStates × List LocalPlace) :
    key ∈ (rest.foldl (joinExit entry poisoned) acc).2 ↔ key ∈ acc.2 ∨
      ∃ state, acc.1.lookup key = some state ∧ key ∉ poisoned ∧ state ≠ .error ∧
        ∃ other ∈ rest, defaultFor entry other key ≠ state := by
  induction rest generalizing acc with
  | nil => simp
  | cons other rest ih =>
    rw [List.foldl_cons, ih]
    simp only [joinExit, AList.lookup_mapValues, List.mem_union_iff, List.mem_filter,
      List.exists_mem_cons_iff]
    cases hlookup : acc.1.lookup key with
    | none =>
      have hkey : key ∉ acc.1.keys := fun h =>
        AList.lookup_eq_none.mp hlookup (AList.mem_keys.mp h)
      simp [hkey]
    | some state =>
      have hkey : key ∈ acc.1.keys := by
        apply AList.mem_keys.mpr
        exact AList.lookup_isSome.mp (by rw [hlookup]; rfl)
      have hrecord : recorded acc.1 key = state := by rw [recorded, hlookup, Option.getD_some]
      by_cases hpoisoned : key ∈ poisoned
      · simp [hpoisoned]
      by_cases herror : state = .error
      · subst herror
        simp [hpoisoned, hrecord, ResourceState.join]
      by_cases hsame : defaultFor entry other key = state
      · simp [hkey, hpoisoned, herror, hrecord, hsame, ResourceState.join]
      · have hjoin : state.join (defaultFor entry other key) = .error := if_neg (Ne.symm hsame)
        simp [hkey, hpoisoned, herror, hrecord, hsame, hjoin]

/-- Of a loop, every key that some back edge changes is reported, and every other key at
which a later exit differs from the first, unless the first has an error there. -/
def LoopReports (entry : PlaceStates) (poisoned : List LocalPlace) : List PlaceStates → Prop
  | [] => poisoned ≠ []
  | first :: rest => poisoned ≠ [] ∨ ∃ key, key.root ∈ trackedRoots entry ∧ key ∉ poisoned ∧
      defaultFor entry first key ≠ .error ∧
      ∃ other ∈ rest, defaultFor entry other key ≠ defaultFor entry first key

theorem finishLoop_reports (afterBase : Option PlaceStates) (frame : LoopFrame) (reachable : Bool)
    (fallthrough : PlaceStates) :
    (finishLoop entry afterBase frame reachable fallthrough).2 ≠ [] ↔
      LoopReports entry (poisonedKeys entry (frame.backedges reachable fallthrough))
        (frame.breakStates ++ afterBase.toList) := by
  unfold finishLoop
  dsimp only
  generalize hback : frame.backedges reachable fallthrough = backedges
  cases frame.breakStates ++ afterBase.toList with
  | nil => simp [LoopReports]
  | cons first rest =>
    simp only [LoopReports, ne_eq, List.append_eq_nil_iff, List.map_eq_nil_iff, not_and_or]
    refine or_congr_right' fun hnone => ?_
    rw [not_not] at hnone
    rw [hnone, List.eq_nil_iff_forall_not_mem, not_forall]
    refine exists_congr fun key => ?_
    rw [not_not, mem_foldl_joinExit]
    simp only [List.foldl_nil, List.not_mem_nil, false_or, AList.lookup_tabulate, List.mem_dedup,
      List.mem_append, not_false_eq_true, true_and]
    constructor
    · rintro ⟨state, hlookup, herror, other, hother, hne⟩
      split at hlookup
      · rename_i hkey
        cases hlookup
        refine ⟨?_, herror, other, hother, hne⟩
        rcases hkey with hkey | hkey
        · rcases List.mem_append.mp (List.mem_dedup.mp hkey) with hkey | hkey
          · exact mem_trackedRoots hkey
          · obtain ⟨_, _, hkey⟩ := List.mem_flatMap.mp hkey
            exact (mem_trackedKeys.mp hkey).2
        · obtain ⟨_, _, hkey⟩ := List.mem_flatMap.mp hkey
          exact (mem_trackedKeys.mp hkey).2
      · cases hlookup
    · rintro ⟨hroot, herror, other, hother, hne⟩
      refine ⟨_, if_pos ?_, herror, other, hother, hne⟩
      by_contra hkey
      rw [not_or] at hkey
      have hfirst : key ∉ first.keys := fun h => hkey.2
        (List.mem_flatMap.mpr ⟨first, List.mem_cons_self, mem_trackedKeys.mpr ⟨h, hroot⟩⟩)
      have hlater : key ∉ other.keys := fun h => hkey.2
        (List.mem_flatMap.mpr ⟨other, List.mem_cons_of_mem _ hother, mem_trackedKeys.mpr ⟨h, hroot⟩⟩)
      rw [defaultFor_of_notMem hfirst, defaultFor_of_notMem hlater] at hne
      exact hne rfl

theorem carried_reported {afterBase : Option PlaceStates} {frame : LoopFrame} {reachable : Bool}
    {fallthrough : PlaceStates}
    (h : key ∈ poisonedKeys entry (frame.backedges reachable fallthrough)) :
    Codes.loopCarriedInvalidation ∈ (finishLoop entry afterBase frame reachable fallthrough).2 := by
  have hcarried := List.mem_map_of_mem (f := fun _ => Codes.loopCarriedInvalidation) h
  unfold finishLoop
  dsimp only
  split
  · exact hcarried
  · exact List.mem_append_left _ hcarried

end

/-! ### Both joins -/

section
variable {edges : List PlaceStates} {after : PlaceStates} {reports : Prop}

theorem joinSound_iff {tracked : LocalPlace → Prop} :
    (∀ place, tracked place → JoinSound edges after reports place) ↔
      (∀ place, tracked place → JoinMarked edges after place) ∧
        (¬ reports → ∀ place, tracked place → ¬ Disputed edges place) := by
  constructor
  · intro h
    exact ⟨fun place hplace => (h place hplace).toJoinMarked,
      fun hnone place hplace hdisputed => hnone ((h place hplace).reported hdisputed)⟩
  · rintro ⟨hmarked, hreports⟩ place hplace
    refine ⟨hmarked place hplace, fun hdisputed => ?_⟩
    by_contra hnone
    exact hreports hnone place hplace hdisputed

end

end Napitia.Resourceck
