import Mathlib.Algebra.Order.BigOperators.Group.List
import Mathlib.Algebra.Ring.Nat
import Mathlib.Data.Nat.Cast.Basic
import Napitia.Lib.Dominance

/-!
# Facts established on every way to a node

A node establishes facts, and a fact once established stays so. What holds at a node is what
all its predecessors leave behind. Every set but that of the start begins with all facts and is
cut down, round after round, until a round changes nothing.
-/
namespace MustFacts
variable {N F : Type} [DecidableEq N] [DecidableEq F]

section
variable (start : N) (preds : N → List N) (gen : N → Finset F)

/-- What the predecessors of a node agree on, if there are any. -/
def incoming (state : N → Finset F) : List N → Option (Finset F)
  | [] => none
  | p :: rest => some (rest.foldl (fun acc q => acc ∩ (state q ∪ gen q)) (state p ∪ gen p))

/-- One round over the nodes, and whether it changed a set. -/
def sweep : List N → (N → Finset F) → (N → Finset F) × Bool
  | [], state => (state, false)
  | n :: rest, state =>
    if n = start then sweep rest state
    else
      match incoming gen state (preds n) with
      | none => sweep rest state
      | some new =>
        if state n = new then sweep rest state
        else ((sweep rest (Function.update state n new)).1, true)

/-- Rounds until one changes nothing, and `fuel` of them at most. -/
def sweeps (nodes : List N) : ℕ → (N → Finset F) → (N → Finset F)
  | 0, state => state
  | fuel + 1, state =>
    match sweep start preds gen nodes state with
    | (settled, false) => settled
    | (changed, true) => sweeps nodes fuel changed

/-- A round that changes a set takes a fact from it, so that these are enough of them. -/
def facts (nodes : List N) (all entry : Finset F) : N → Finset F :=
  sweeps start preds gen nodes (nodes.length * all.card + 1) fun n =>
    if n = start then entry else all

end

section
variable {start : N} {preds : N → List N} {gen : N → Finset F} {succ : N → List N}
  {nodes : List N} {all entry new : Finset F} {state : N → Finset F} {n p : N} {f : F}

omit [DecidableEq N] in
theorem mem_incoming {ps : List N} (h : incoming gen state ps = some new) :
    f ∈ new ↔ ∀ p ∈ ps, f ∈ state p ∪ gen p := by
  cases ps with
  | nil => cases h
  | cons p rest =>
    cases h
    have hfold : ∀ acc : Finset F,
        f ∈ rest.foldl (fun acc q => acc ∩ (state q ∪ gen q)) acc ↔
          f ∈ acc ∧ ∀ q ∈ rest, f ∈ state q ∪ gen q := by
      induction rest with
      | nil => simp
      | cons q rest ih =>
        intro acc
        rw [List.foldl_cons, ih, Finset.mem_inter, List.forall_mem_cons, and_assoc]
    rw [hfold, List.forall_mem_cons]

/-- A fact is established at a node when every walk there has it from the start or comes
through a node that establishes it. -/
def Established (succ : N → List N) (start : N) (gen : N → Finset F) (entry : Finset F) (n : N)
    (f : F) : Prop :=
  ∀ left, Dominance.Walk succ start (n :: left) → f ∈ entry ∨ ∃ p ∈ left, f ∈ gen p

omit [DecidableEq N] [DecidableEq F] in
theorem Established.pred (h : Established succ start gen entry n f) (hsucc : n ∈ succ p)
    (hnot : f ∉ gen p) : Established succ start gen entry p f := by
  intro left hwalk
  rcases h _ (.step hwalk hsucc) with hentry | ⟨q, hq, hgen⟩
  · exact .inl hentry
  · rcases List.mem_cons.mp hq with rfl | hq
    · exact absurd hgen hnot
    · exact .inr ⟨q, hq, hgen⟩

/-- What holds of the sets all along: they hold what is established, and recomputing one would
not add to it. -/
structure Descends (succ : N → List N) (start : N) (preds : N → List N) (gen : N → Finset F)
    (nodes : List N) (all entry : Finset F) (state : N → Finset F) : Prop where
  start_eq : state start = entry
  shrinks : ∀ n ∈ nodes, n ≠ start → ∀ new, incoming gen state (preds n) = some new →
    new ⊆ state n
  holds : ∀ n ∈ nodes, ∀ f ∈ all, Established succ start gen entry n f → f ∈ state n

omit [DecidableEq N] in
theorem incoming_subset {state' : N → Finset F} {new' : Finset F} {ps : List N}
    (h : incoming gen state ps = some new) (h' : incoming gen state' ps = some new')
    (hbelow : ∀ q, state' q ⊆ state q) : new' ⊆ new := by
  intro f hf
  rw [mem_incoming h]
  intro p hp
  exact Finset.union_subset_union_left (hbelow p) ((mem_incoming h').mp hf p hp)

section
variable (hpreds : ∀ n ∈ nodes, ∀ p ∈ preds n, p ∈ nodes ∧ n ∈ succ p)

theorem descends_initial (hgen : ∀ n ∈ nodes, gen n ⊆ all) (hentry : entry ⊆ all)
    (hpreds : ∀ n ∈ nodes, ∀ p ∈ preds n, p ∈ nodes ∧ n ∈ succ p) :
    Descends succ start preds gen nodes all entry
      fun n => if n = start then entry else all := by
  constructor
  · exact if_pos rfl
  · intro n hn hne new hnew f hf
    rw [if_neg hne]
    cases hps : preds n with
    | nil =>
      rw [hps] at hnew
      cases hnew
    | cons p rest =>
      have hp : p ∈ preds n := by simp [hps]
      have hfp := (mem_incoming hnew).mp hf p hp
      rcases Finset.mem_union.mp hfp with hold | hnewly
      · split at hold
        · exact hentry hold
        · exact hold
      · exact hgen p (hpreds n hn p hp).1 hnewly
  · intro n _ f hf hestablished
    split
    · rename_i heq
      subst heq
      rcases hestablished [] .start with hin | ⟨p, hp, -⟩
      · exact hin
      · cases hp
    · exact hf

include hpreds

/-- A recomputed set keeps all of this. -/
theorem Descends.update (h : Descends succ start preds gen nodes all entry state)
    (hn : n ∈ nodes) (hne : n ≠ start) (hnew : incoming gen state (preds n) = some new) :
    Descends succ start preds gen nodes all entry (Function.update state n new) := by
  have hsub : new ⊆ state n := h.shrinks n hn hne new hnew
  have hbelow : ∀ q, Function.update state n new q ⊆ state q := by
    intro q
    by_cases hq : q = n
    · subst hq
      rw [Function.update_self]
      exact hsub
    · rw [Function.update_of_ne hq]
  constructor
  · rw [Function.update_of_ne hne.symm]
    exact h.start_eq
  · intro k hk hkstart new' hnew'
    have hold : ∃ old, incoming gen state (preds k) = some old := by
      cases hps : preds k with
      | nil =>
        rw [hps] at hnew'
        cases hnew'
      | cons p rest => exact ⟨_, rfl⟩
    obtain ⟨old, hold⟩ := hold
    have hle := incoming_subset hold hnew' hbelow
    by_cases hkn : k = n
    · subst hkn
      rw [hold] at hnew
      cases hnew
      rw [Function.update_self]
      exact hle
    · rw [Function.update_of_ne hkn]
      exact hle.trans (h.shrinks k hk hkstart old hold)
  · intro k hk f hf hestablished
    by_cases hkn : k = n
    · subst hkn
      rw [Function.update_self, mem_incoming hnew]
      intro p hp
      obtain ⟨hpn, hsucc⟩ := hpreds k hk p hp
      by_cases hgen : f ∈ gen p
      · exact Finset.mem_union_right _ hgen
      · exact Finset.mem_union_left _ (h.holds p hpn f hf (hestablished.pred hsucc hgen))
    · rw [Function.update_of_ne hkn]
      exact h.holds k hk f hf hestablished

omit hpreds

/-- How much there is left to cut. -/
def weight (nodes : List N) (state : N → Finset F) : ℕ := (nodes.map fun n => (state n).card).sum

omit [DecidableEq F] in
theorem weight_update_lt (hn : n ∈ nodes) (hlt : new ⊂ state n) :
    weight nodes (Function.update state n new) < weight nodes state := by
  unfold weight
  apply List.sum_lt_sum
  · intro k _
    by_cases hk : k = n
    · subst hk
      rw [Function.update_self]
      exact Finset.card_le_card hlt.subset
    · rw [Function.update_of_ne hk]
  · refine ⟨n, hn, ?_⟩
    rw [Function.update_self]
    exact Finset.card_lt_card hlt

/-- Recomputing any of the nodes gives the set it has. -/
def Stable (start : N) (preds : N → List N) (gen : N → Finset F) (nodes : List N)
    (state : N → Finset F) : Prop :=
  ∀ n ∈ nodes, n ≠ start → ∀ new, incoming gen state (preds n) = some new → state n = new

/-- What a round comes to. One that changes nothing found the sets stable, and one that changes
something leaves less. -/
structure Swept (succ : N → List N) (start : N) (preds : N → List N) (gen : N → Finset F)
    (nodes : List N) (all entry : Finset F) (round : List N) (state : N → Finset F)
    (result : (N → Finset F) × Bool) : Prop where
  descends : Descends succ start preds gen nodes all entry result.1
  weight_le : weight nodes result.1 ≤ weight nodes state
  weight_lt : result.2 = true → weight nodes result.1 < weight nodes state
  kept : result.2 = false → result.1 = state ∧ Stable start preds gen round state

omit [DecidableEq N] in
/-- A node that is left as it is leaves the round to the nodes behind it. -/
theorem Swept.skip {round : List N} {result : (N → Finset F) × Bool}
    (h : Swept succ start preds gen nodes all entry round state result)
    (hstable : n ≠ start → ∀ new, incoming gen state (preds n) = some new → state n = new) :
    Swept succ start preds gen nodes all entry (n :: round) state result := by
  refine ⟨h.descends, h.weight_le, h.weight_lt, fun hfalse => ⟨(h.kept hfalse).1, ?_⟩⟩
  intro k hk
  rcases List.mem_cons.mp hk with rfl | hk
  · exact hstable
  · exact (h.kept hfalse).2 k hk

include hpreds

theorem sweep_spec {round : List N} (hround : ∀ n ∈ round, n ∈ nodes)
    (h : Descends succ start preds gen nodes all entry state) :
    Swept succ start preds gen nodes all entry round state
      (sweep start preds gen round state) := by
  induction round generalizing state with
  | nil => exact ⟨h, le_rfl, by simp [sweep], fun _ => ⟨rfl, by simp [Stable]⟩⟩
  | cons n rest ih =>
    have hrest : ∀ k ∈ rest, k ∈ nodes := fun k hk => hround k (List.mem_cons_of_mem _ hk)
    have hn : n ∈ nodes := hround n List.mem_cons_self
    rw [sweep]
    split
    · rename_i hstart
      exact (ih hrest h).skip (absurd hstart)
    · rename_i hstart
      split
      · rename_i hnone
        refine (ih hrest h).skip fun _ new hnew => ?_
        rw [hnone] at hnew
        cases hnew
      · rename_i new hnew
        split
        · rename_i hequal
          refine (ih hrest h).skip fun _ new' hnew' => ?_
          rw [hnew] at hnew'
          cases hnew'
          exact hequal
        · rename_i hdiffer
          have hsub := h.shrinks n hn hstart new hnew
          have hcut := weight_update_lt hn (hsub.ssubset_of_ne (Ne.symm hdiffer))
          have hswept := ih hrest (h.update hpreds hn hstart hnew)
          constructor
          · exact hswept.descends
          · exact hswept.weight_le.trans hcut.le
          · exact fun _ => hswept.weight_le.trans_lt hcut
          · intro hfalse
            cases hfalse

theorem sweeps_spec (fuel : ℕ) (h : Descends succ start preds gen nodes all entry state)
    (hfuel : weight nodes state < fuel) :
    Descends succ start preds gen nodes all entry (sweeps start preds gen nodes fuel state) ∧
      Stable start preds gen nodes (sweeps start preds gen nodes fuel state) := by
  induction fuel generalizing state with
  | zero => exact absurd hfuel (Nat.not_lt_zero _)
  | succ fuel ih =>
    obtain ⟨hdescends, -, hlt, hsame⟩ := sweep_spec hpreds (fun _ hn => hn) h
    rw [sweeps]
    cases hsweep : sweep start preds gen nodes state with
    | mk next changed =>
      rw [hsweep] at hdescends hlt hsame
      cases changed with
      | false =>
        obtain ⟨rfl, hstable⟩ := hsame rfl
        exact ⟨hdescends, hstable⟩
      | true => exact ih hdescends (Nat.lt_of_lt_of_le (hlt rfl) (Nat.lt_succ_iff.mp hfuel))

end

section
variable (hgen : ∀ n ∈ nodes, gen n ⊆ all) (hentry : entry ⊆ all)
  (hpreds : ∀ n ∈ nodes, ∀ p ∈ preds n, p ∈ nodes ∧ n ∈ succ p)
include hgen hentry hpreds

variable (start) in
theorem facts_settled :
    Descends succ start preds gen nodes all entry
        (facts start preds gen nodes all entry) ∧
      Stable start preds gen nodes (facts start preds gen nodes all entry) := by
  refine sweeps_spec hpreds _ (descends_initial hgen hentry hpreds) (Nat.lt_succ_of_le ?_)
  unfold weight
  have hsum := List.sum_le_card_nsmul
    (nodes.map fun n => (if n = start then entry else all).card) all.card
  rw [List.length_map, nsmul_eq_mul] at hsum
  refine hsum fun k hk => ?_
  obtain ⟨n, -, rfl⟩ := List.mem_map.mp hk
  split
  · exact Finset.card_le_card hentry
  · exact le_rfl

/-- What holds at a node other than the start holds behind each predecessor. -/
theorem facts_pred (hn : n ∈ nodes) (hne : n ≠ start) (hp : p ∈ preds n)
    (hf : f ∈ facts start preds gen nodes all entry n) :
    f ∈ facts start preds gen nodes all entry p ∨ f ∈ gen p := by
  obtain ⟨-, hstable⟩ := facts_settled start hgen hentry hpreds
  cases hps : preds n with
  | nil =>
    rw [hps] at hp
    cases hp
  | cons q rest =>
    have hnew : ∃ new, incoming gen (facts start preds gen nodes all entry) (preds n) =
        some new := ⟨_, by rw [hps]; rfl⟩
    obtain ⟨new, hnew⟩ := hnew
    rw [hstable n hn hne new hnew] at hf
    exact Finset.mem_union.mp ((mem_incoming hnew).mp hf p hp)

theorem facts_start : facts start preds gen nodes all entry start = entry :=
  (facts_settled _ hgen hentry hpreds).1.start_eq

/-- Exactly the facts established on every walk hold at a node. -/
theorem mem_facts_iff (hclosed : ∀ n ∈ nodes, ∀ m ∈ succ n, m ∈ nodes ∧ n ∈ preds m)
    (hstart : start ∈ nodes) (hn : n ∈ nodes) (hf : f ∈ all) :
    f ∈ facts start preds gen nodes all entry n ↔
      Established succ start gen entry n f := by
  constructor
  · intro hmem left hwalk
    induction left generalizing n with
    | nil =>
      rcases hwalk.head_cases with ⟨rfl, -⟩ | ⟨_, _, hnil, -⟩
      · rw [facts_start hgen hentry hpreds] at hmem
        exact .inl hmem
      · cases hnil
    | cons m left ih =>
      rcases hwalk.head_cases with ⟨-, hnil⟩ | ⟨_, _, heq, hearlier, hsucc⟩
      · cases hnil
      · cases heq
        by_cases hne : n = start
        · rw [hne, facts_start hgen hentry hpreds] at hmem
          exact .inl hmem
        · have hm : ∀ {k visited}, Dominance.Walk succ start (k :: visited) → k ∈ nodes := by
            intro k visited hk
            generalize hlist : k :: visited = list at hk
            induction hk generalizing k visited with
            | start =>
              cases hlist
              exact hstart
            | step _ hedge ih =>
              cases hlist
              exact (hclosed _ (ih rfl) _ hedge).1
          have hmn := hm hearlier
          rcases facts_pred hgen hentry hpreds hn hne (hclosed m hmn n hsucc).2 hmem with
            hbefore | hhere
          · rcases ih hmn hbefore hearlier with hin | ⟨p, hp, hgenp⟩
            · exact .inl hin
            · exact .inr ⟨p, List.mem_cons_of_mem _ hp, hgenp⟩
          · exact .inr ⟨m, List.mem_cons_self, hhere⟩
  · exact (facts_settled _ hgen hentry hpreds).1.holds n hn f hf

end
end
end MustFacts
