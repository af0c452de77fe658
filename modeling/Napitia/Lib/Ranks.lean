import Mathlib.Algebra.Order.BigOperators.Group.List
import Mathlib.Algebra.Order.Group.Nat
import Mathlib.Data.List.Perm.Subperm
import Mathlib.Logic.Relation
import Mathlib.Order.WellFounded

/-!
# Going down a rank

A table in which every entry is ranked above those it mentions leads nowhere back: a
loop that follows it ends before it has passed every entry, an entry can be added where
nothing it mentions leads to it, and equations along the table have a solution.
-/
namespace Napitia.Ranks

/-- A loop that goes on while there is a next place, for as many turns as it is given. -/
def follow {τ : Type} (next : τ → Option τ) : ℕ → τ → τ
  | 0, t => t
  | n + 1, t =>
    match next t with
    | some t' => follow next n t'
    | none => t

section
variable {τ : Type} {next : τ → Option τ} {rank : τ → ℕ}

/-- The places a loop has passed are distinct, so it ends before it has taken more turns
than there are places to go on from. -/
theorem follow_settled_of_passed (hrank : ∀ t t', next t = some t' → rank t' < rank t)
    {stops : List τ} (hstops : ∀ t t', next t = some t' → t ∈ stops) {n : ℕ} {t : τ}
    (passed : List τ) (hnodup : passed.Nodup) (hpassed : passed ⊆ stops)
    (habove : ∀ u ∈ passed, rank t < rank u) (hn : stops.length < n + passed.length) :
    next (follow next n t) = none := by
  induction n generalizing t passed with
  | zero =>
    have hle := (List.Nodup.subperm hnodup hpassed).length_le
    omega
  | succ n ih =>
    rw [follow]
    cases hnext : next t with
    | none => exact hnext
    | some t' =>
      have hlt := hrank t t' hnext
      have hfresh : t ∉ passed := fun hmem => absurd (habove t hmem) (lt_irrefl _)
      apply ih (t :: passed) (List.nodup_cons.mpr ⟨hfresh, hnodup⟩)
      · exact List.cons_subset.mpr ⟨hstops t t' hnext, hpassed⟩
      · intro u hu
        cases hu with
        | head => exact hlt
        | tail _ hu => exact hlt.trans (habove u hu)
      · rw [List.length_cons]
        omega

theorem follow_settled (hrank : ∀ t t', next t = some t' → rank t' < rank t) {stops : List τ}
    (hstops : ∀ t t', next t = some t' → t ∈ stops) {n : ℕ} (hn : stops.length < n) (t : τ) :
    next (follow next n t) = none :=
  follow_settled_of_passed hrank hstops [] List.nodup_nil (List.nil_subset _) (by simp) (by simpa)

end

section
variable {V : Type} {R R' : V → V → Prop} {v : V}

theorem exists_rank_insert (hranked : ∃ rank : V → ℕ, ∀ u w, R u w → rank w < rank u)
    (mentioned : List V) (hadded : ∀ u w, R' u w → (u = v ∧ w ∈ mentioned) ∨ R u w)
    (hfree : ∀ w ∈ mentioned, ¬ Relation.ReflTransGen R w v) :
    ∃ rank : V → ℕ, ∀ u w, R' u w → rank w < rank u := by
  classical
  obtain ⟨rank, hrank⟩ := hranked
  let lift : ℕ := (mentioned.map fun w => rank w + 1).sum
  have hlift : ∀ w ∈ mentioned, rank w < lift := by
    intro w hw
    have hmem : rank w + 1 ∈ mentioned.map fun w => rank w + 1 := List.mem_map_of_mem hw
    have hle : rank w + 1 ≤ lift := List.single_le_sum (by simp) _ hmem
    omega
  refine ⟨fun u => if Relation.ReflTransGen R u v then rank u + lift else rank u, ?_⟩
  intro u w hmentions
  dsimp only
  rcases hadded u w hmentions with ⟨huv, hw⟩ | hold
  · rw [if_neg (hfree w hw), if_pos (huv ▸ .refl)]
    have hlt := hlift w hw
    omega
  · have hlt := hrank u w hold
    by_cases hpath : Relation.ReflTransGen R w v
    · rw [if_pos hpath, if_pos (.head hold hpath)]
      omega
    · rw [if_neg hpath]
      split <;> omega

theorem exists_solution {T : Type} [Inhabited T]
    (hranked : ∃ rank : V → ℕ, ∀ u w, R u w → rank w < rank u) (F : V → (V → T) → T)
    (hF : ∀ u θ θ', (∀ w, R u w → θ w = θ' w) → F u θ = F u θ') : ∃ θ : V → T, ∀ u, θ u = F u θ := by
  classical
  obtain ⟨rank, hrank⟩ := hranked
  have hwf : WellFounded fun w u => R u w :=
    Subrelation.wf (fun h => hrank _ _ h) (measure rank).wf
  let below (u : V) (rec : ∀ w, R u w → T) : T := F u fun w => if h : R u w then rec w h else default
  refine ⟨hwf.fix below, fun u => ?_⟩
  rw [hwf.fix_eq]
  apply hF
  intro w hw
  rw [dif_pos hw]

end

end Napitia.Ranks
