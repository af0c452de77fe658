import Mathlib.Data.List.AList

/-!
# Association lists changed as a whole

What an association list holds after entries are dropped by key, after every value
is rewritten, and when it is the table of a function on a list of keys.
-/
namespace AList
variable {α β : Type} [DecidableEq α]

/-- The entries whose key passes. -/
def retain (p : α → Bool) (m : AList fun _ : α => β) : AList fun _ : α => β where
  entries := m.entries.filter fun e => p e.1
  nodupKeys := m.nodupKeys.sublist List.filter_sublist

/-- Every value rewritten, knowing its key. -/
def mapValues (f : α → β → β) (m : AList fun _ : α => β) : AList fun _ : α => β where
  entries := m.entries.map fun e => ⟨e.1, f e.1 e.2⟩
  nodupKeys := by
    have h : (m.entries.map fun e => (⟨e.1, f e.1 e.2⟩ : Sigma fun _ : α => β)).keys = m.keys := by
      simp [List.keys, AList.keys, Function.comp_def]
    simpa [List.NodupKeys, h] using m.keys_nodup

/-- The table of a function on these keys. -/
def tabulate (keys : List α) (f : α → β) : AList fun _ : α => β :=
  (keys.map fun a => (⟨a, f a⟩ : Sigma fun _ : α => β)).toAList

section
variable {m : AList fun _ : α => β} {p : α → Bool} {a : α}

theorem mem_entries_iff {b : β} : (⟨a, b⟩ : Sigma fun _ : α => β) ∈ m.entries ↔
    m.lookup a = some b :=
  mem_lookup_iff.symm

theorem lookup_retain : (m.retain p).lookup a = if p a then m.lookup a else none := by
  apply Option.ext
  intro b
  rw [← mem_entries_iff]
  by_cases hp : p a <;> simp [retain, hp, mem_entries_iff]

theorem lookup_mapValues (f : α → β → β) : (m.mapValues f).lookup a = (m.lookup a).map (f a) := by
  apply Option.ext
  intro b
  rw [← mem_entries_iff]
  simp only [mapValues, List.mem_map, Option.map_eq_some_iff, ← mem_entries_iff]
  constructor
  · rintro ⟨e, he, heq⟩
    obtain ⟨rfl, h⟩ := Sigma.mk.inj heq
    exact ⟨e.2, he, eq_of_heq h⟩
  · rintro ⟨c, hc, rfl⟩
    exact ⟨⟨a, c⟩, hc, rfl⟩

theorem lookup_tabulate (keys : List α) (f : α → β) :
    (tabulate keys f).lookup a = if a ∈ keys then some (f a) else none := by
  rw [tabulate, lookup_to_alist]
  induction keys with
  | nil => rfl
  | cons k keys ih =>
    by_cases hk : a = k
    · subst hk
      simp
    · simp [hk, ih]

theorem lookup_foldl_insert (keys : List α) (f : α → β) :
    (keys.foldl (fun m k => m.insert k (f k)) m).lookup a =
      if a ∈ keys then some (f a) else m.lookup a := by
  induction keys generalizing m with
  | nil => simp
  | cons k keys ih =>
    rw [List.foldl_cons, ih]
    by_cases hmem : a ∈ keys
    · simp [hmem]
    · by_cases hk : a = k
      · subst hk
        simp [hmem]
      · rw [lookup_insert_ne hk]
        simp [hmem, hk]

/-- What is found after insertions was inserted, or there before them. -/
theorem mem_of_lookup_foldl {entries : List (α × β)} {b : β}
    (h : (entries.foldl (fun m e => m.insert e.1 e.2) m).lookup a = some b) :
    (a, b) ∈ entries ∨ m.lookup a = some b := by
  induction entries generalizing m with
  | nil => exact .inr h
  | cons e entries ih =>
    rcases ih h with hmem | hlookup
    · exact .inl (List.mem_cons_of_mem e hmem)
    · by_cases ha : a = e.1
      · subst ha
        rw [lookup_insert] at hlookup
        cases hlookup
        exact .inl List.mem_cons_self
      · rw [lookup_insert_ne ha] at hlookup
        exact .inr hlookup

end

end AList
