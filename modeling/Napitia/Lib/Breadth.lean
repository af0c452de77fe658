import Mathlib.Data.List.Nodup
import Mathlib.Data.List.Perm.Subperm
import Mathlib.Logic.Relation

/-!
# What a graph reaches, breadth first

Nodes are looked into in the order they are found in, so that the list of the nodes found is
also the order of the search.
-/
namespace Breadth
variable {N : Type} [DecidableEq N]

/-- The targets that have not been reached, each where it is met first. -/
def discover (reached : List N) : List N → List N
  | [] => []
  | target :: rest =>
    if target ∈ reached then discover reached rest
    else target :: discover (target :: reached) rest

/-- The queue worked off from the front, for `fuel` nodes at most. -/
def visit (succ : N → List N) : ℕ → List N → List N → List N
  | 0, reached, _ => reached
  | _ + 1, reached, [] => reached
  | fuel + 1, reached, n :: queue =>
    visit succ fuel (reached ++ discover reached (succ n)) (queue ++ discover reached (succ n))

def reach (succ : N → List N) (fuel : ℕ) (start : N) : List N := visit succ fuel [start] [start]

section
variable {succ : N → List N} {start x : N} {reached queue nodes : List N}

theorem mem_discover (targets : List N) :
    x ∈ discover reached targets ↔ x ∈ targets ∧ x ∉ reached := by
  induction targets generalizing reached with
  | nil => simp [discover]
  | cons target rest ih =>
    rw [discover]
    by_cases h : target ∈ reached
    · rw [if_pos h, ih, List.mem_cons]
      constructor
      · intro hx
        exact ⟨.inr hx.1, hx.2⟩
      · intro hx
        have hne : x ≠ target := fun heq => hx.2 (heq ▸ h)
        exact ⟨hx.1.resolve_left hne, hx.2⟩
    · rw [if_neg h, List.mem_cons, ih, List.mem_cons, List.mem_cons]
      by_cases hx : x = target
      · simp [hx, h]
      · simp [hx]

theorem discover_nodup (targets : List N) : (discover reached targets).Nodup := by
  induction targets generalizing reached with
  | nil => exact List.nodup_nil
  | cons target rest ih =>
    rw [discover]
    split
    · exact ih
    · rw [List.nodup_cons]
      constructor
      · intro hmem
        exact ((mem_discover rest).mp hmem).2 List.mem_cons_self
      · exact ih

/-- What holds between two nodes of the search: what has been reached can be, and all targets
of what has left the queue are reached. -/
structure Found (succ : N → List N) (start : N) (nodes reached queue : List N) : Prop where
  nodup : reached.Nodup
  within : ∀ x ∈ reached, x ∈ nodes
  start_mem : start ∈ reached
  reaches : ∀ x ∈ reached, Relation.ReflTransGen (fun x y => y ∈ succ x) start x
  queued : ∀ x ∈ queue, x ∈ reached
  closed : ∀ x ∈ reached, x ∈ queue ∨ ∀ y ∈ succ x, y ∈ reached

theorem Found.next {n : N} (h : Found succ start nodes reached (n :: queue))
    (hclosed : ∀ x ∈ nodes, ∀ y ∈ succ x, y ∈ nodes) :
    Found succ start nodes (reached ++ discover reached (succ n))
      (queue ++ discover reached (succ n)) := by
  have hn := h.queued n List.mem_cons_self
  constructor
  · rw [List.nodup_append']
    exact ⟨h.nodup, discover_nodup _, fun x hx hnew => ((mem_discover _).mp hnew).2 hx⟩
  · intro x hx
    rcases List.mem_append.mp hx with hx | hx
    · exact h.within x hx
    · exact hclosed n (h.within n hn) x ((mem_discover _).mp hx).1
  · exact List.mem_append_left _ h.start_mem
  · intro x hx
    rcases List.mem_append.mp hx with hx | hx
    · exact h.reaches x hx
    · exact (h.reaches n hn).tail ((mem_discover _).mp hx).1
  · intro x hx
    rcases List.mem_append.mp hx with hx | hx
    · exact List.mem_append_left _ (h.queued x (List.mem_cons_of_mem _ hx))
    · exact List.mem_append_right _ hx
  · intro x hx
    rcases List.mem_append.mp hx with hold | hnew
    · by_cases heq : x = n
      · right
        intro y hy
        rw [heq] at hy
        by_cases hmem : y ∈ reached
        · exact List.mem_append_left _ hmem
        · exact List.mem_append_right _ ((mem_discover _).mpr ⟨hy, hmem⟩)
      · rcases h.closed x hold with hqueue | hall
        · exact .inl (List.mem_append_left _ ((List.mem_cons.mp hqueue).resolve_left heq))
        · exact .inr fun y hy => List.mem_append_left _ (hall y hy)
    · exact .inl (List.mem_append_right _ hnew)

theorem Found.visit (hclosed : ∀ x ∈ nodes, ∀ y ∈ succ x, y ∈ nodes) (fuel : ℕ)
    (h : Found succ start nodes reached queue)
    (hfuel : nodes.length + queue.length ≤ fuel + reached.length) :
    Found succ start nodes (visit succ fuel reached queue) [] := by
  induction fuel generalizing reached queue with
  | zero =>
    have hle : reached.length ≤ nodes.length :=
      (List.subperm_of_subset h.nodup h.within).length_le
    have hnil : queue = [] := List.length_eq_zero_iff.mp (by omega)
    subst hnil
    exact h
  | succ fuel ih =>
    cases queue with
    | nil => exact h
    | cons n queue =>
      refine ih (h.next hclosed) ?_
      simp only [List.length_append, List.length_cons] at hfuel ⊢
      omega

/-- In a set of nodes that every target is in, the search finds what can be reached, and finds
it once. -/
theorem reach_spec (hclosed : ∀ x ∈ nodes, ∀ y ∈ succ x, y ∈ nodes) (hstart : start ∈ nodes) :
    (reach succ nodes.length start).Nodup ∧ ∀ x, x ∈ reach succ nodes.length start ↔
      Relation.ReflTransGen (fun x y => y ∈ succ x) start x := by
  have hfirst : Found succ start nodes [start] [start] := by
    constructor
    · exact List.nodup_singleton start
    · simpa using hstart
    · exact List.mem_singleton_self start
    · intro x hx
      rw [List.mem_singleton.mp hx]
    · exact fun x hx => hx
    · exact fun x hx => .inl hx
  have hlast := hfirst.visit hclosed nodes.length (by simp)
  refine ⟨hlast.nodup, fun x => ⟨hlast.reaches x, fun hx => ?_⟩⟩
  induction hx with
  | refl => exact hlast.start_mem
  | tail _ hedge ih =>
    rcases hlast.closed _ ih with hnil | hall
    · cases hnil
    · exact hall _ hedge

end
end Breadth
