import Mathlib.Data.List.Nodup

/-!
# Ledgers written under accounts

A ledger is written to under keys, and an account says which key is written to and what
fits there. A ledger is kept under some accounts if it has at most one value for each
key and every value fits its account. Ledgers kept under accounts with different keys
are kept together.
-/
namespace Napitia.Ledger
variable {κ τ β : Type}

/-- No key is given two values. -/
def Single (entries : List (κ × β)) : Prop :=
  ∀ k v v', (k, v) ∈ entries → (k, v') ∈ entries → v = v'

/-- No two accounts have one key. -/
def Fresh (accounts : List (κ × τ)) : Prop := (accounts.map Prod.fst).Nodup

instance [DecidableEq κ] (accounts : List (κ × τ)) : Decidable (Fresh accounts) :=
  inferInstanceAs (Decidable (List.Nodup _))

/-- No account of the one list has the key of one of the other. -/
def Apart (as bs : List (κ × τ)) : Prop := ∀ a ∈ as, ∀ b ∈ bs, a.1 ≠ b.1

structure Kept (fits : τ → β → Prop) (accounts : List (κ × τ)) (entries : List (κ × β)) :
    Prop where
  licensed : ∀ e ∈ entries, ∃ tag, (e.1, tag) ∈ accounts ∧ fits tag e.2
  single : Single entries

section
variable {fits : τ → β → Prop} {as bs : List (κ × τ)} {xs ys : List (κ × β)} {k : κ} {tag : τ}

theorem fresh_append : Fresh (as ++ bs) ↔ Fresh as ∧ Fresh bs ∧ Apart as bs := by
  simp only [Fresh, List.map_append, List.nodup_append, Apart, List.mem_map,
    forall_exists_index, and_imp, forall_apply_eq_imp_iff₂]

theorem fresh_cons : Fresh ((k, tag) :: as) ↔ (∀ a ∈ as, a.1 ≠ k) ∧ Fresh as := by
  simp only [Fresh, List.map_cons, List.nodup_cons, List.mem_map, not_exists, not_and]

theorem Kept.nil : Kept fits as [] := ⟨by simp, by simp [Single]⟩

theorem Kept.mono (h : Kept fits as xs) (hle : as ⊆ bs) : Kept fits bs xs := by
  refine ⟨fun e he => ?_, h.single⟩
  obtain ⟨tag, hmem, hfits⟩ := h.licensed e he
  exact ⟨tag, hle hmem, hfits⟩

theorem Kept.append (hx : Kept fits as xs) (hy : Kept fits bs ys) (hapart : Apart as bs) :
    Kept fits (as ++ bs) (ys ++ xs) := by
  constructor
  · intro e he
    cases List.mem_append.mp he with
    | inl he => exact (hy.mono (List.subset_append_right as bs)).licensed e he
    | inr he => exact (hx.mono (List.subset_append_left as bs)).licensed e he
  · have hcross : ∀ k v v', (k, v) ∈ xs → (k, v') ∈ ys → False := by
      intro k v v' hv hv'
      obtain ⟨t, ht, -⟩ := hx.licensed _ hv
      obtain ⟨t', ht', -⟩ := hy.licensed _ hv'
      exact hapart _ ht _ ht' rfl
    intro k v v' hv hv'
    cases List.mem_append.mp hv with
    | inl hv =>
      cases List.mem_append.mp hv' with
      | inl hv' => exact hy.single k v v' hv hv'
      | inr hv' => exact absurd (hcross k v' v hv' hv) id
    | inr hv =>
      cases List.mem_append.mp hv' with
      | inl hv' => exact absurd (hcross k v v' hv hv') id
      | inr hv' => exact hx.single k v v' hv hv'

/-- One value under a key of its own, however often it is written. -/
theorem Kept.under {own : List β} (hx : Kept fits as xs) (hkey : ∀ a ∈ as, a.1 ≠ k)
    (hsame : ∀ v ∈ own, ∀ v' ∈ own, v = v') (hfits : ∀ v ∈ own, fits tag v) :
    Kept fits ((k, tag) :: as) (own.map (Prod.mk k) ++ xs) := by
  have hown : Kept fits [(k, tag)] (own.map (Prod.mk k)) := by
    refine ⟨fun e he => ?_, fun k' v v' hv hv' => ?_⟩
    · obtain ⟨v, hv, rfl⟩ := List.mem_map.mp he
      exact ⟨tag, by simp, hfits v hv⟩
    · simp only [List.mem_map, Prod.mk.injEq, exists_eq_right_right] at hv hv'
      exact hsame v hv.1 v' hv'.1
  have happend := hx.append hown (by
    intro a ha b hb
    rw [List.mem_singleton.mp hb]
    exact hkey a ha)
  refine happend.mono fun a ha => ?_
  cases List.mem_append.mp ha with
  | inl ha => exact List.mem_cons_of_mem _ ha
  | inr ha => rw [List.mem_singleton.mp ha]; exact List.mem_cons_self

/-- Under accounts with keys of their own, what is written under a key fits the account. -/
theorem Kept.fits_of_mem {v : β} (h : Kept fits as xs) (hfresh : Fresh as) (hmem : (k, tag) ∈ as)
    (hv : (k, v) ∈ xs) : fits tag v := by
  obtain ⟨tag', hmem', hfits⟩ := h.licensed _ hv
  have hinj : (k, tag') = (k, tag) :=
    List.inj_on_of_nodup_map hfresh hmem' hmem rfl
  rwa [(Prod.mk.inj hinj).2] at hfits

end

end Napitia.Ledger
