import Mathlib.Algebra.BigOperators.Group.Finset.Basic
import Mathlib.Algebra.GroupWithZero.Nat
import Mathlib.Algebra.Order.BigOperators.Group.Finset
import Mathlib.Data.List.Chain
import Napitia.Lib.DepthFirst

/-!
# Searching for one cycle

A depth-first search with an explicit stack colours its nodes and stops at the first edge that
leads back into its path. The part of the path from there on is a cycle. Where the search ends
without one no infinite chain of edges begins at any of the nodes it started from, and it does
end: every round uses up an edge or a frame.
-/
namespace CycleSearch
open DepthFirst (Color)
variable {N : Type} [DecidableEq N]

structure State (N : Type) where
  color : N → Color
  /-- The nodes being visited, the innermost first, each with the edge to try next. -/
  stack : List (N × ℕ)
  /-- The same nodes, the outermost first. -/
  path : List N

/-- A closed path, with the edge whose discovery closed it. -/
structure Witness (N : Type) where
  cycle : List N
  source : N
  target : N

inductive Outcome (N : Type) where
  | done (color : N → Color)
  | found (witness : Witness N)

section
variable (targets : N → List N)

def walk : ℕ → State N → Option (Outcome N)
  | _, ⟨color, [], _⟩ => some (.done color)
  | 0, _ => none
  | fuel + 1, ⟨color, (current, edge) :: below, path⟩ =>
    match (targets current)[edge]? with
    | none => walk fuel ⟨Function.update color current .black, below, path.dropLast⟩
    | some target =>
      match color target with
      | .white =>
        walk fuel ⟨Function.update color target .gray,
          (target, 0) :: (current, edge + 1) :: below, path ++ [target]⟩
      | .gray =>
        if target ∈ path then some (.found ⟨path.drop (path.idxOf target), current, target⟩)
        else walk fuel ⟨color, (current, edge + 1) :: below, path⟩
      | .black => walk fuel ⟨color, (current, edge + 1) :: below, path⟩

/-- The first cycle met from any of the starts, if the fuel lasts for each of them. -/
def search (fuel : ℕ) : List N → (N → Color) → Option (Option (Witness N))
  | [], _ => some none
  | start :: starts, color =>
    if color start = .white then
      match walk targets fuel ⟨Function.update color start .gray, [(start, 0)], [start]⟩ with
      | none => none
      | some (.found witness) => some (some witness)
      | some (.done color) => search fuel starts color
    else search fuel starts color

/-- The witness is a path along edges that the last edge closes. -/
structure Witness.Closes (w : Witness N) : Prop where
  nodup : w.cycle.Nodup
  chain : w.cycle.IsChain fun a b => b ∈ targets a
  first : w.cycle.head? = some w.target
  last : w.cycle.getLast? = some w.source
  closing : w.target ∈ targets w.source

/-- No infinite chain of edges begins here. -/
def Finishes (n : N) : Prop := Acc (fun m n => m ∈ targets n) n

/-- Of every node on the stack the edges tried so far lead to finished nodes, or to the node
above it. -/
def Settled (color : N → Color) : Option N → List (N × ℕ) → Prop
  | _, [] => True
  | above, (n, edge) :: below =>
    edge ≤ (targets n).length ∧
      (∀ target ∈ (targets n).take edge, color target = .black ∨ some target = above) ∧
      Settled color (some n) below

/-- What the colours say of a set of nodes that the edges do not leave. -/
structure Inv (nodes : Finset N) (color : N → Color) (stack : List (N × ℕ)) (path : List N) :
    Prop where
  path_eq : path = (stack.map Prod.fst).reverse
  nodup : path.Nodup
  gray : ∀ n, color n = .gray ↔ n ∈ path
  within : ∀ n ∈ path, n ∈ nodes
  chain : path.IsChain fun a b => b ∈ targets a
  settled : Settled targets color none stack
  black : ∀ n ∈ nodes, color n = .black → Finishes targets n

/-- How many rounds a walk can still take. -/
def potential (nodes : Finset N) (color : N → Color) (stack : List (N × ℕ)) : ℕ :=
  (∑ n ∈ nodes with color n = .white, ((targets n).length + 1)) +
    (stack.map fun frame => (targets frame.1).length + 1 - frame.2).sum

end

variable {targets : N → List N} {nodes : Finset N}

omit [DecidableEq N] in
theorem Settled.mono {color color' : N → Color} {above above' : Option N} {stack : List (N × ℕ)}
    (h : Settled targets color above stack) (hblack : ∀ n, color n = .black → color' n = .black)
    (habove : ∀ n, above = some n → above' = some n ∨ color' n = .black) :
    Settled targets color' above' stack := by
  induction stack generalizing above above' with
  | nil => trivial
  | cons frame below ih =>
    obtain ⟨n, edge⟩ := frame
    obtain ⟨hedge, htried, hbelow⟩ := h
    refine ⟨hedge, fun target htarget => ?_, ih hbelow fun m hm => Or.inl hm⟩
    rcases htried target htarget with hdone | htop
    · exact Or.inl (hblack target hdone)
    · rcases habove target htop.symm with hsame | hdone
      · exact Or.inr hsame.symm
      · exact Or.inl hdone

omit [DecidableEq N] in
/-- Trying one edge more, to a node that is finished or about to be visited. -/
theorem Settled.next {color : N → Color} {above : Option N} {n target : N} {edge : ℕ}
    {below : List (N × ℕ)} (h : Settled targets color none ((n, edge) :: below))
    (hedge : (targets n)[edge]? = some target)
    (htarget : color target = .black ∨ some target = above) :
    Settled targets color above ((n, edge + 1) :: below) := by
  obtain ⟨hle, htried, hbelow⟩ := h
  obtain ⟨hlt, hget⟩ := List.getElem?_eq_some_iff.mp hedge
  refine ⟨hlt, fun t ht => ?_, hbelow⟩
  rw [List.take_add_one, hedge] at ht
  rcases List.mem_append.mp ht with ht | ht
  · rcases htried t ht with hdone | htop
    · exact Or.inl hdone
    · cases htop
  · have heq : t = target := by simpa using ht
    rwa [heq]

theorem potential_pop {color : N → Color} {n : N} {edge : ℕ} {below : List (N × ℕ)}
    (hgray : color n = .gray) (hle : edge ≤ (targets n).length) :
    potential targets nodes (Function.update color n .black) below <
      potential targets nodes color ((n, edge) :: below) := by
  have hwhite : (nodes.filter fun m => Function.update color n .black m = .white) =
      nodes.filter fun m => color m = .white := by
    refine Finset.filter_congr fun m _ => ?_
    by_cases hm : m = n
    · subst hm
      simp [hgray]
    · rw [Function.update_of_ne hm]
  simp only [potential, hwhite, List.map_cons, List.sum_cons]
  omega

omit [DecidableEq N] in
theorem potential_next {color : N → Color} {n : N} {edge : ℕ} {below : List (N × ℕ)}
    (hlt : edge < (targets n).length) :
    potential targets nodes color ((n, edge + 1) :: below) <
      potential targets nodes color ((n, edge) :: below) := by
  simp only [potential, List.map_cons, List.sum_cons]
  omega

theorem sum_white_visit (targets : N → List N) {color : N → Color} {target : N} (hnode : target ∈ nodes)
    (hwhite : color target = .white) :
    (∑ m ∈ nodes with Function.update color target .gray m = .white, ((targets m).length + 1)) +
        ((targets target).length + 1) =
      ∑ m ∈ nodes with color m = .white, ((targets m).length + 1) := by
  have herase : (nodes.filter fun m => Function.update color target .gray m = .white) =
      (nodes.filter fun m => color m = .white).erase target := by
    ext m
    by_cases hm : m = target
    · subst hm
      simp
    · simp [hm]
  rw [herase]
  exact Finset.sum_erase_add _ _ (Finset.mem_filter.mpr ⟨hnode, hwhite⟩)

theorem potential_visit {color : N → Color} {n target : N} {edge : ℕ} {below : List (N × ℕ)}
    (hlt : edge < (targets n).length) (hnode : target ∈ nodes)
    (hwhite : color target = .white) :
    potential targets nodes (Function.update color target .gray)
        ((target, 0) :: (n, edge + 1) :: below) <
      potential targets nodes color ((n, edge) :: below) := by
  have hsum := sum_white_visit targets hnode hwhite
  simp only [potential, List.map_cons, List.sum_cons]
  omega

/-! ### One round -/

section
variable {color : N → Color} {n target : N} {edge : ℕ} {below : List (N × ℕ)} {path : List N}

omit [DecidableEq N] in
theorem Inv.eq_append (h : Inv targets nodes color ((n, edge) :: below) path) :
    path = (below.map Prod.fst).reverse ++ [n] := by
  rw [h.path_eq]
  simp

omit [DecidableEq N] in
theorem Inv.mem_nodes (h : Inv targets nodes color ((n, edge) :: below) path) : n ∈ nodes := by
  refine h.within n ?_
  rw [h.eq_append]
  simp

omit [DecidableEq N] in
theorem Inv.getLast? (h : Inv targets nodes color ((n, edge) :: below) path) :
    path.getLast? = some n := by
  rw [h.eq_append]
  exact List.getLast?_concat

theorem Inv.pop (h : Inv targets nodes color ((n, edge) :: below) path)
    (hedge : (targets n)[edge]? = none) (hclosed : ∀ n ∈ nodes, ∀ t ∈ targets n, t ∈ nodes) :
    Inv targets nodes (Function.update color n .black) below path.dropLast := by
  obtain ⟨hle, htried, hbelow⟩ := h.settled
  have hdrop : path.dropLast = (below.map Prod.fst).reverse := by
    rw [h.eq_append]
    exact List.dropLast_concat
  have hnotin : n ∉ path.dropLast := by
    intro hmem
    have hnodup := h.nodup
    rw [h.eq_append] at hnodup
    rw [hdrop] at hmem
    exact (List.nodup_append.mp hnodup).2.2 n hmem n (List.mem_singleton_self n) rfl
  have hlength : (targets n).length ≤ edge := List.getElem?_eq_none_iff.mp hedge
  have hfinished : Finishes targets n := by
    refine Acc.intro n fun t ht => ?_
    rcases htried t (by rwa [List.take_of_length_le hlength]) with hdone | htop
    · exact h.black t (hclosed n h.mem_nodes t ht) hdone
    · cases htop
  refine ⟨hdrop, h.nodup.sublist (List.dropLast_sublist path), ?_, ?_, h.chain.dropLast, ?_, ?_⟩
  · intro m
    by_cases hm : m = n
    · subst hm
      simp [hnotin]
    · rw [Function.update_of_ne hm, h.gray m, hdrop, h.eq_append]
      simp [hm]
  · exact fun m hm => h.within m (List.dropLast_subset path hm)
  · refine hbelow.mono (fun m hm => ?_) fun m hm => ?_
    · by_cases hmn : m = n
      · rw [hmn, Function.update_self]
      · rwa [Function.update_of_ne hmn]
    · cases hm
      exact Or.inr (Function.update_self ..)
  · intro m hm hblack
    by_cases hmn : m = n
    · rwa [hmn]
    · rw [Function.update_of_ne hmn] at hblack
      exact h.black m hm hblack

theorem Inv.visit (h : Inv targets nodes color ((n, edge) :: below) path)
    (hedge : (targets n)[edge]? = some target) (hwhite : color target = .white)
    (hclosed : ∀ n ∈ nodes, ∀ t ∈ targets n, t ∈ nodes) :
    Inv targets nodes (Function.update color target .gray)
      ((target, 0) :: (n, edge + 1) :: below) (path ++ [target]) := by
  have htarget : target ∈ targets n := List.mem_of_getElem? hedge
  have hnotin : target ∉ path := by
    intro hmem
    have hgray := (h.gray target).mpr hmem
    rw [hwhite] at hgray
    cases hgray
  refine ⟨?_, ?_, ?_, ?_, ?_, ?_, ?_⟩
  · rw [h.eq_append]
    simp
  · exact h.nodup.append (List.nodup_singleton target) (by simpa using hnotin)
  · intro m
    by_cases hm : m = target
    · subst hm
      simp
    · rw [Function.update_of_ne hm, h.gray m]
      simp [hm]
  · intro m hm
    rcases List.mem_append.mp hm with hm | hm
    · exact h.within m hm
    · rw [List.mem_singleton.mp hm]
      exact hclosed n h.mem_nodes target htarget
  · refine List.isChain_append.mpr ⟨h.chain, List.isChain_singleton target, ?_⟩
    intro a ha b hb
    obtain rfl : a = n := Option.some.inj ((Option.mem_def.mp ha).symm.trans h.getLast?)
    obtain rfl : target = b := by simpa using hb
    exact htarget
  · refine ⟨Nat.zero_le _, fun t ht => by simp at ht, ?_⟩
    refine (h.settled.next hedge (Or.inr rfl)).mono (fun m hm => ?_) fun m hm => Or.inl hm
    have hne : m ≠ target := by
      rintro rfl
      rw [hwhite] at hm
      cases hm
    rwa [Function.update_of_ne hne]
  · intro m hm hblack
    have hne : m ≠ target := by
      rintro rfl
      rw [Function.update_self] at hblack
      cases hblack
    rw [Function.update_of_ne hne] at hblack
    exact h.black m hm hblack

omit [DecidableEq N] in
theorem Inv.skip (h : Inv targets nodes color ((n, edge) :: below) path)
    (hedge : (targets n)[edge]? = some target) (hblack : color target = .black) :
    Inv targets nodes color ((n, edge + 1) :: below) path :=
  { h with
    path_eq := h.path_eq
    settled := h.settled.next hedge (Or.inl hblack) }

theorem Inv.closes (h : Inv targets nodes color ((n, edge) :: below) path)
    (hedge : (targets n)[edge]? = some target) (hmem : target ∈ path) :
    (Witness.mk (path.drop (path.idxOf target)) n target).Closes targets := by
  have hlt := List.idxOf_lt_length_iff.mpr hmem
  refine ⟨h.nodup.sublist (List.drop_sublist _ _), h.chain.drop _, ?_, ?_,
    List.mem_of_getElem? hedge⟩
  · change (path.drop (path.idxOf target)).head? = some target
    rw [List.head?_drop, List.getElem?_eq_getElem hlt, List.getElem_idxOf hlt]
  · change (path.drop (path.idxOf target)).getLast? = some n
    rw [List.getLast?_drop, if_neg (Nat.not_le.mpr hlt)]
    exact h.getLast?

end

/-! ### Walks and searches -/

/-- With the fuel for it a walk ends: at a cycle, or with every node it met finished. -/
theorem Inv.walk (hclosed : ∀ n ∈ nodes, ∀ t ∈ targets n, t ∈ nodes) {fuel : ℕ}
    {color : N → Color} {stack : List (N × ℕ)} {path : List N}
    (h : Inv targets nodes color stack path) (hfuel : potential targets nodes color stack ≤ fuel) :
    (∃ color', walk targets fuel ⟨color, stack, path⟩ = some (.done color') ∧
        Inv targets nodes color' [] [] ∧ ∀ n, color' n = .white → color n = .white) ∨
      ∃ w, walk targets fuel ⟨color, stack, path⟩ = some (.found w) ∧ w.Closes targets := by
  induction fuel generalizing color stack path with
  | zero =>
    cases stack with
    | nil =>
      obtain rfl : path = [] := h.path_eq
      exact Or.inl ⟨color, by simp [CycleSearch.walk], h, fun n hn => hn⟩
    | cons frame below =>
      obtain ⟨hle, -, -⟩ := h.settled
      simp only [potential, List.map_cons, List.sum_cons] at hfuel
      omega
  | succ fuel ih =>
    cases stack with
    | nil =>
      obtain rfl : path = [] := h.path_eq
      exact Or.inl ⟨color, by simp [CycleSearch.walk], h, fun n hn => hn⟩
    | cons frame below =>
      obtain ⟨n, edge⟩ := frame
      rw [CycleSearch.walk]
      cases hedge : (targets n)[edge]? with
      | none =>
        have hgray : color n = .gray := (h.gray n).mpr (List.mem_of_getLast? h.getLast?)
        have hless : potential targets nodes (Function.update color n .black) below <
            potential targets nodes color ((n, edge) :: below) := potential_pop hgray h.settled.1
        rcases ih (h.pop hedge hclosed) (by omega) with ⟨color', hwalk, hinv, hwhite⟩ | hfound
        · refine Or.inl ⟨color', hwalk, hinv, fun m hm => ?_⟩
          have hbefore := hwhite m hm
          by_cases hmn : m = n
          · rw [hmn, Function.update_self] at hbefore
            cases hbefore
          · rwa [Function.update_of_ne hmn] at hbefore
        · exact Or.inr hfound
      | some target =>
        have hlt := (List.getElem?_eq_some_iff.mp hedge).1
        have hnode : target ∈ nodes :=
          hclosed n h.mem_nodes target (List.mem_of_getElem? hedge)
        dsimp only
        cases hcolor : color target with
        | white =>
          have hless : potential targets nodes (Function.update color target .gray)
              ((target, 0) :: (n, edge + 1) :: below) <
                potential targets nodes color ((n, edge) :: below) :=
            potential_visit hlt hnode hcolor
          rcases ih (h.visit hedge hcolor hclosed) (by omega) with
            ⟨color', hwalk, hinv, hwhite⟩ | hfound
          · refine Or.inl ⟨color', hwalk, hinv, fun m hm => ?_⟩
            have hbefore := hwhite m hm
            by_cases hmt : m = target
            · rw [hmt, hcolor]
            · rwa [Function.update_of_ne hmt] at hbefore
          · exact Or.inr hfound
        | gray =>
          have hmem : target ∈ path := (h.gray target).mp hcolor
          refine Or.inr ⟨_, ?_, h.closes hedge hmem⟩
          simp [hmem]
        | black =>
          have hless : potential targets nodes color ((n, edge + 1) :: below) <
              potential targets nodes color ((n, edge) :: below) := potential_next hlt
          exact ih (h.skip hedge hcolor) (by omega)

/-- What every walk of a search has the fuel for. -/
def enough (targets : N → List N) (nodes : Finset N) : ℕ :=
  ∑ n ∈ nodes, ((targets n).length + 1)

theorem potential_start {color : N → Color} {start : N} (hstart : start ∈ nodes)
    (hwhite : color start = .white) :
    potential targets nodes (Function.update color start .gray) [(start, 0)] ≤
      enough targets nodes := by
  have hsum := sum_white_visit targets hstart hwhite
  have hall : (∑ n ∈ nodes with color n = .white, ((targets n).length + 1)) ≤
      enough targets nodes :=
    Finset.sum_le_sum_of_subset (Finset.filter_subset _ _)
  simp only [potential, List.map_cons, List.map_nil, List.sum_cons, List.sum_nil]
  omega

/-- Between two walks nothing is being visited. -/
theorem Inv.start {color : N → Color} {start : N} (h : Inv targets nodes color [] [])
    (hstart : start ∈ nodes) (hwhite : color start = .white) :
    Inv targets nodes (Function.update color start .gray) [(start, 0)] [start] := by
  refine ⟨rfl, List.nodup_singleton start, ?_, ?_, List.isChain_singleton start,
    ⟨Nat.zero_le _, fun t ht => by simp at ht, trivial⟩, ?_⟩
  · intro m
    by_cases hm : m = start
    · subst hm
      simp
    · rw [Function.update_of_ne hm, h.gray m]
      simp [hm]
  · intro m hm
    rwa [List.mem_singleton.mp hm]
  · intro m hm hblack
    have hne : m ≠ start := by
      rintro rfl
      rw [Function.update_self] at hblack
      cases hblack
    rw [Function.update_of_ne hne] at hblack
    exact h.black m hm hblack

omit [DecidableEq N] in
theorem Inv.finishes {color : N → Color} (h : Inv targets nodes color [] []) {n : N}
    (hn : n ∈ nodes) (hmet : color n ≠ .white) : Finishes targets n := by
  cases hcolor : color n with
  | white => exact absurd hcolor hmet
  | gray => cases (h.gray n).mp hcolor
  | black => exact h.black n hn hcolor

theorem Inv.search (hclosed : ∀ n ∈ nodes, ∀ t ∈ targets n, t ∈ nodes) {starts : List N}
    (hstarts : ∀ n ∈ starts, n ∈ nodes) {color : N → Color} (h : Inv targets nodes color [] []) :
    (search targets (enough targets nodes) starts color = some none ∧
        ∀ n ∈ starts, Finishes targets n) ∨
      ∃ w, search targets (enough targets nodes) starts color = some (some w) ∧
        w.Closes targets := by
  induction starts generalizing color with
  | nil => exact Or.inl ⟨rfl, fun n hn => by cases hn⟩
  | cons start starts ih =>
    have hstart : start ∈ nodes := hstarts start List.mem_cons_self
    have hrest : ∀ n ∈ starts, n ∈ nodes := fun n hn => hstarts n (List.mem_cons_of_mem _ hn)
    by_cases hwhite : color start = .white
    · rw [CycleSearch.search, if_pos hwhite]
      rcases (h.start hstart hwhite).walk hclosed (potential_start hstart hwhite) with
        ⟨color', hwalk, hinv, hmono⟩ | ⟨w, hwalk, hw⟩
      · rw [hwalk]
        rcases ih hrest hinv with ⟨hnone, hfinishes⟩ | hfound
        · refine Or.inl ⟨hnone, fun n hn => ?_⟩
          rcases List.mem_cons.mp hn with rfl | hn
          · refine hinv.finishes hstart fun hwhite' => ?_
            have hgray := hmono n hwhite'
            rw [Function.update_self] at hgray
            cases hgray
          · exact hfinishes n hn
        · exact Or.inr hfound
      · rw [hwalk]
        exact Or.inr ⟨w, rfl, hw⟩
    · rw [CycleSearch.search, if_neg hwhite]
      rcases ih hrest h with ⟨hnone, hfinishes⟩ | hfound
      · refine Or.inl ⟨hnone, fun n hn => ?_⟩
        rcases List.mem_cons.mp hn with rfl | hn
        · exact h.finishes hstart hwhite
        · exact hfinishes n hn
      · exact Or.inr hfound

omit [DecidableEq N] in
theorem inv_unvisited {color : N → Color} (hwhite : ∀ n ∈ nodes, color n = .white)
    (hblack : ∀ n, n ∉ nodes → color n = .black) : Inv targets nodes color [] [] := by
  refine ⟨rfl, List.nodup_nil, fun n => ?_, (fun n hn => by cases hn), List.isChain_nil, trivial, ?_⟩
  · by_cases hn : n ∈ nodes
    · simp [hwhite n hn]
    · simp [hblack n hn]
  · intro n hn hblack'
    rw [hwhite n hn] at hblack'
    cases hblack'

omit [DecidableEq N] in
theorem Finishes.not_of_forall {P : N → Prop} {n : N} (h : Finishes targets n) (hn : P n)
    (hnext : ∀ n, P n → ∃ t ∈ targets n, P t) : False := by
  induction h with
  | intro n _ ih =>
    obtain ⟨t, ht, hP⟩ := hnext n hn
    exact ih t ht hP

/-! ### Renamed nodes -/

section
variable {M : Type} [DecidableEq M] {targets' : M → List M} {f : N → M}

def Witness.map (f : N → M) (w : Witness N) : Witness M := ⟨w.cycle.map f, f w.source, f w.target⟩

/-- The same edges under other names. -/
structure Renames (f : N → M) (nodes : Finset N) (targets : N → List N) (targets' : M → List M) :
    Prop where
  injOn : ∀ a ∈ nodes, ∀ b ∈ nodes, f a = f b → a = b
  map_targets : ∀ n ∈ nodes, targets' (f n) = (targets n).map f
  closed : ∀ n ∈ nodes, ∀ t ∈ targets n, t ∈ nodes

/-- Two outcomes that are one under other names. -/
inductive SameOutcome (f : N → M) (nodes : Finset N) : Option (Outcome N) → Option (Outcome M) → Prop
  | none : SameOutcome f nodes none none
  | done {color : N → Color} {color' : M → Color} (h : ∀ n ∈ nodes, color' (f n) = color n) :
    SameOutcome f nodes (some (.done color)) (some (.done color'))
  | found (w : Witness N) : SameOutcome f nodes (some (.found w)) (some (.found (w.map f)))

theorem Renames.update (h : Renames f nodes targets targets') {color : N → Color}
    {color' : M → Color} (hcolor : ∀ n ∈ nodes, color' (f n) = color n) {n : N} (hn : n ∈ nodes)
    (c : Color) :
    ∀ m ∈ nodes, Function.update color' (f n) c (f m) = Function.update color n c m := by
  intro m hm
  by_cases hmn : m = n
  · rw [hmn, Function.update_self, Function.update_self]
  · rw [Function.update_of_ne hmn, Function.update_of_ne, hcolor m hm]
    exact fun heq => hmn (h.injOn m hm n hn heq)

omit [DecidableEq N] [DecidableEq M] in
theorem Renames.mem_map_iff (h : Renames f nodes targets targets') {l : List N}
    (hl : ∀ n ∈ l, n ∈ nodes) {n : N} (hn : n ∈ nodes) : f n ∈ l.map f ↔ n ∈ l := by
  refine ⟨fun hmem => ?_, List.mem_map_of_mem⟩
  obtain ⟨m, hm, heq⟩ := List.mem_map.mp hmem
  rwa [← h.injOn m (hl m hm) n hn heq]

theorem Renames.idxOf_map (h : Renames f nodes targets targets') {l : List N}
    (hl : ∀ n ∈ l, n ∈ nodes) {n : N} (hn : n ∈ nodes) :
    (l.map f).idxOf (f n) = l.idxOf n := by
  induction l with
  | nil => rfl
  | cons m l ih =>
    have hm : m ∈ nodes := hl m List.mem_cons_self
    rw [List.map_cons]
    by_cases heq : m = n
    · rw [heq, List.idxOf_cons_self, List.idxOf_cons_self]
    · have hne : f m ≠ f n := fun hf => heq (h.injOn m hm n hn hf)
      rw [List.idxOf_cons_ne _ hne, List.idxOf_cons_ne _ heq,
        ih fun k hk => hl k (List.mem_cons_of_mem _ hk)]

omit [DecidableEq N] in
theorem Renames.enough_eq (h : Renames f nodes targets targets') {nodes' : Finset M}
    (hnodes' : ∀ m, m ∈ nodes' ↔ ∃ n ∈ nodes, f n = m) :
    enough targets' nodes' = enough targets nodes := by
  have himage : nodes' = nodes.image f := by
    ext m
    rw [hnodes', Finset.mem_image]
  rw [enough, himage, Finset.sum_image fun a ha b hb hab => h.injOn a ha b hb hab]
  refine Finset.sum_congr rfl fun n hn => ?_
  rw [h.map_targets n hn, List.length_map]

theorem Renames.walk (h : Renames f nodes targets targets') (fuel : ℕ) {color : N → Color}
    {color' : M → Color} {stack : List (N × ℕ)} {path : List N}
    (hcolor : ∀ n ∈ nodes, color' (f n) = color n) (hstack : ∀ frame ∈ stack, frame.1 ∈ nodes)
    (hpath : ∀ n ∈ path, n ∈ nodes) :
    SameOutcome f nodes (walk targets fuel ⟨color, stack, path⟩)
      (walk targets' fuel ⟨color', stack.map (Prod.map f id), path.map f⟩) := by
  induction fuel generalizing color color' stack path with
  | zero =>
    cases stack with
    | nil =>
      simp only [CycleSearch.walk, List.map_nil]
      exact .done hcolor
    | cons frame below =>
      simp only [CycleSearch.walk, List.map_cons]
      exact .none
  | succ fuel ih =>
    cases stack with
    | nil =>
      simp only [CycleSearch.walk, List.map_nil]
      exact .done hcolor
    | cons frame below =>
      obtain ⟨n, edge⟩ := frame
      have hn : n ∈ nodes := hstack (n, edge) List.mem_cons_self
      have hbelow : ∀ frame ∈ below, frame.1 ∈ nodes :=
        fun frame hframe => hstack frame (List.mem_cons_of_mem _ hframe)
      have hhere : ∀ frame ∈ (n, edge + 1) :: below, frame.1 ∈ nodes := by
        intro frame hframe
        rcases List.mem_cons.mp hframe with rfl | hframe
        · exact hn
        · exact hbelow frame hframe
      have hedges : (targets' (f n))[edge]? = ((targets n)[edge]?).map f := by
        rw [h.map_targets n hn, List.getElem?_map]
      rw [List.map_cons, Prod.map_apply, id_eq, CycleSearch.walk, CycleSearch.walk, hedges]
      cases hedge : (targets n)[edge]? with
      | none =>
        rw [Option.map_none, ← List.map_dropLast]
        exact ih (h.update hcolor hn .black) hbelow
          fun m hm => hpath m (List.dropLast_subset path hm)
      | some target =>
        have htarget : target ∈ nodes := h.closed n hn target (List.mem_of_getElem? hedge)
        rw [Option.map_some]
        dsimp only
        rw [hcolor target htarget]
        cases hvisit : color target with
        | white =>
          dsimp only
          have hpush : ∀ frame ∈ (target, 0) :: (n, edge + 1) :: below, frame.1 ∈ nodes := by
            intro frame hframe
            rcases List.mem_cons.mp hframe with rfl | hframe
            · exact htarget
            · exact hhere frame hframe
          have hlonger : ∀ m ∈ path ++ [target], m ∈ nodes := by
            intro m hm
            rcases List.mem_append.mp hm with hm | hm
            · exact hpath m hm
            · rwa [List.mem_singleton.mp hm]
          have hsame := ih (h.update hcolor htarget .gray) hpush hlonger
          rw [List.map_append] at hsame
          exact hsame
        | gray =>
          dsimp only
          rw [h.idxOf_map hpath htarget, ← List.map_drop]
          by_cases hmem : target ∈ path
          · rw [if_pos hmem, if_pos (List.mem_map_of_mem hmem)]
            exact .found ⟨path.drop (path.idxOf target), n, target⟩
          · rw [if_neg hmem, if_neg ((h.mem_map_iff hpath htarget).not.mpr hmem)]
            exact ih hcolor hhere hpath
        | black => exact ih hcolor hhere hpath

theorem Renames.search (h : Renames f nodes targets targets') (fuel : ℕ) {starts : List N}
    (hstarts : ∀ n ∈ starts, n ∈ nodes) {color : N → Color} {color' : M → Color}
    (hcolor : ∀ n ∈ nodes, color' (f n) = color n) :
    search targets' fuel (starts.map f) color' =
      (search targets fuel starts color).map fun w => w.map (Witness.map f) := by
  induction starts generalizing color color' with
  | nil => rfl
  | cons start starts ih =>
    have hstart : start ∈ nodes := hstarts start List.mem_cons_self
    have hrest : ∀ n ∈ starts, n ∈ nodes := fun n hn => hstarts n (List.mem_cons_of_mem _ hn)
    rw [List.map_cons, CycleSearch.search, CycleSearch.search, hcolor start hstart]
    by_cases hwhite : color start = .white
    · rw [if_pos hwhite, if_pos hwhite]
      have hstack : ∀ frame ∈ [(start, 0)], frame.1 ∈ nodes := by simpa using hstart
      have hpath : ∀ n ∈ [start], n ∈ nodes := by simpa using hstart
      have hsame := h.walk fuel (h.update hcolor hstart .gray) hstack hpath
      simp only [List.map_cons, List.map_nil, Prod.map_apply, id_eq] at hsame
      generalize CycleSearch.walk targets fuel ⟨_, [(start, 0)], [start]⟩ = outcome at hsame ⊢
      generalize CycleSearch.walk targets' fuel ⟨_, [(f start, 0)], [f start]⟩ = outcome' at hsame ⊢
      cases hsame with
      | none => rfl
      | done hcolor => exact ih hrest hcolor
      | found w => rfl
    · rw [if_neg hwhite, if_neg hwhite]
      exact ih hrest hcolor

end

end CycleSearch
