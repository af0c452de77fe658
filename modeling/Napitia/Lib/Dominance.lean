import Mathlib.Data.List.AList
import Mathlib.Data.Finset.Card
import Mathlib.Algebra.BigOperators.Group.List.Basic
import Mathlib.Algebra.Order.BigOperators.Group.List
import Mathlib.Algebra.Order.Group.Nat
import Mathlib.Algebra.GroupWithZero.Nat

/-!
# Dominators by iterated intersection

A node dominates another when every walk from the start to the other passes through it.
Every node's set starts with all nodes and is cut down to what the sets of its
predecessors have in common, round after round, until a round changes nothing.
-/
namespace Dominance
variable {N : Type}

/-- A walk from the start, its last node first. -/
inductive Walk (succ : N → List N) (start : N) : List N → Prop
  | start : Walk succ start [start]
  | step {n m : N} {visited : List N} :
      Walk succ start (n :: visited) → m ∈ succ n → Walk succ start (m :: n :: visited)

def Dominates (succ : N → List N) (start d n : N) : Prop :=
  ∀ visited, Walk succ start (n :: visited) → d ∈ n :: visited

section
variable {succ : N → List N} {start d n m : N} {visited : List N}

/-- A walk up to any node it comes through. -/
theorem Walk.suffix (h : Walk succ start visited) :
    ∀ {later}, n :: later <:+ visited → Walk succ start (n :: later) := by
  induction h with
  | start =>
    intro later hsuffix
    rcases List.suffix_cons_iff.mp hsuffix with heq | hnil
    · rw [heq]
      exact .start
    · exact absurd (List.suffix_nil.mp hnil) (List.cons_ne_nil _ _)
  | step hwalk hmem ih =>
    intro later hsuffix
    rcases List.suffix_cons_iff.mp hsuffix with heq | hearlier
    · rw [heq]
      exact .step hwalk hmem
    · exact ih hearlier

/-- What is come to at all is come to for a first time. -/
theorem Walk.first (h : Walk succ start (n :: visited)) :
    ∃ earlier, Walk succ start (n :: earlier) ∧ n ∉ earlier := by
  induction hlen : visited.length using Nat.strong_induction_on generalizing visited with
  | _ len ih =>
    by_cases hmem : n ∈ visited
    · obtain ⟨between, earlier, rfl⟩ := List.append_of_mem hmem
      have hshort : Walk succ start (n :: earlier) :=
        h.suffix ((List.suffix_append between _).trans (List.suffix_cons n _))
      refine ih earlier.length ?_ hshort rfl
      rw [← hlen, List.length_append, List.length_cons]
      omega
    · exact ⟨visited, h, hmem⟩

theorem Walk.head_cases (h : Walk succ start (n :: visited)) :
    (n = start ∧ visited = []) ∨
      ∃ m earlier, visited = m :: earlier ∧ Walk succ start (m :: earlier) ∧ n ∈ succ m := by
  cases h with
  | start => exact .inl ⟨rfl, rfl⟩
  | step hwalk hmem => exact .inr ⟨_, _, rfl, hwalk, hmem⟩

theorem dominates_start : Dominates succ start d start → d = start := by
  intro h
  simpa using h [] .start

/-- What dominates a node dominates everything it is entered from. -/
theorem Dominates.pred (h : Dominates succ start d n) (hne : d ≠ n) (hsucc : n ∈ succ m) :
    Dominates succ start d m := by
  intro visited hwalk
  exact (List.mem_cons.mp (h _ (.step hwalk hsucc))).resolve_left hne

end

/-! ### The iteration -/

variable [DecidableEq N]

/-- What the sets of the predecessors have in common, and the node itself. -/
def meet (dom : AList fun _ : N => Finset N) (n : N) : List N → Option (Finset N)
  | [] => some {n}
  | p :: rest => (dom.lookup p).map fun first =>
    insert n (rest.foldl
      (fun acc q => match dom.lookup q with
        | none => acc
        | some other => acc ∩ other) first)

/-- One round over the nodes, and whether it changed a set. -/
def sweep (start : N) (preds : N → List N) : List N → (AList fun _ : N => Finset N) →
    (AList fun _ : N => Finset N) × Bool
  | [], dom => (dom, false)
  | n :: rest, dom =>
    if n = start then sweep start preds rest dom
    else
      match meet dom n (preds n), dom.lookup n with
      | some new, some existing =>
        if new = existing then sweep start preds rest dom
        else ((sweep start preds rest (dom.insert n new)).1, true)
      | _, _ => sweep start preds rest dom

/-- Rounds until one changes nothing. -/
def sweeps (start : N) (preds : N → List N) (nodes : List N) :
    ℕ → (AList fun _ : N => Finset N) → Option (AList fun _ : N => Finset N)
  | 0, _ => none
  | fuel + 1, dom =>
    match sweep start preds nodes dom with
    | (settled, false) => some settled
    | (changed, true) => sweeps start preds nodes fuel changed

section
variable {dom : AList fun _ : N => Finset N} {start n d : N} {preds : N → List N}
  {nodes ps : List N} {new : Finset N}

theorem mem_foldl_inter {acc : Finset N} :
    d ∈ ps.foldl (fun acc q => match dom.lookup q with
        | none => acc
        | some other => acc ∩ other) acc ↔
      d ∈ acc ∧ ∀ q ∈ ps, ∀ s, dom.lookup q = some s → d ∈ s := by
  induction ps generalizing acc with
  | nil => simp
  | cons q ps ih =>
    rw [List.foldl_cons, ih]
    cases h : dom.lookup q with
    | none => simp [h]
    | some other => simp [h, and_assoc]

/-- A node is in a meet where it is in the set of every predecessor. -/
theorem mem_meet (h : meet dom n ps = some new) (hps : ps ≠ []) :
    d ∈ new ↔ d = n ∨ ∀ q ∈ ps, ∀ s, dom.lookup q = some s → d ∈ s := by
  cases ps with
  | nil => exact absurd rfl hps
  | cons p rest =>
    obtain ⟨first, hfirst, rfl⟩ := Option.map_eq_some_iff.mp h
    rw [Finset.mem_insert, mem_foldl_inter]
    simp [hfirst]

/-- Smaller sets at the predecessors meet in a smaller set. -/
theorem meet_subset {dom' : AList fun _ : N => Finset N} {new' : Finset N}
    (h : meet dom n ps = some new) (h' : meet dom' n ps = some new')
    (hbelow : ∀ q s, dom.lookup q = some s → ∃ s', dom'.lookup q = some s' ∧ s' ⊆ s) :
    new' ⊆ new := by
  by_cases hps : ps = []
  · subst hps
    cases h
    cases h'
    exact Finset.Subset.refl _
  · intro d hd
    rw [mem_meet h hps]
    refine ((mem_meet h' hps).mp hd).imp_right fun hall q hq s hs => ?_
    obtain ⟨s', hs', hsub⟩ := hbelow q s hs
    exact hsub (hall q hq s' hs')

/-- What holds of the sets all along: there is one for every node, which holds whatever
dominates the node, and recomputing it would not add to it. -/
structure Descends (succ : N → List N) (start : N) (preds : N → List N) (nodes : List N)
    (dom : AList fun _ : N => Finset N) : Prop where
  keyed : ∀ n ∈ nodes, (dom.lookup n).isSome
  shrinks : ∀ n ∈ nodes, n ≠ start → ∀ new existing, meet dom n (preds n) = some new →
    dom.lookup n = some existing → new ⊆ existing
  holds : ∀ n ∈ nodes, ∀ existing, dom.lookup n = some existing →
    ∀ d ∈ nodes, Dominates succ start d n → d ∈ existing
  start_eq : dom.lookup start = some {start}

/-- A recomputed set keeps all of this. -/
theorem Descends.insert {succ : N → List N} (h : Descends succ start preds nodes dom)
    (hpreds : ∀ n ∈ nodes, n ≠ start → preds n ≠ [] ∧ ∀ p ∈ preds n, p ∈ nodes ∧ n ∈ succ p)
    (hn : n ∈ nodes) (hne : n ≠ start) (hmeet : meet dom n (preds n) = some new) :
    Descends succ start preds nodes (dom.insert n new) := by
  obtain ⟨existing, hexisting⟩ := Option.isSome_iff_exists.mp (h.keyed n hn)
  have hnew : new ⊆ existing := h.shrinks n hn hne new existing hmeet hexisting
  have hbelow : ∀ q s, dom.lookup q = some s →
      ∃ s', (dom.insert n new).lookup q = some s' ∧ s' ⊆ s := by
    intro q s hs
    by_cases hq : q = n
    · subst hq
      rw [hexisting] at hs
      cases hs
      exact ⟨new, AList.lookup_insert dom, hnew⟩
    · exact ⟨s, (AList.lookup_insert_ne hq).trans hs, Finset.Subset.refl s⟩
  constructor
  · intro k hk
    obtain ⟨s, hs⟩ := Option.isSome_iff_exists.mp (h.keyed k hk)
    obtain ⟨s', hs', -⟩ := hbelow k s hs
    rw [hs']
    rfl
  · intro k hk hkstart new' existing' hmeet' hexisting'
    by_cases hkn : k = n
    · subst hkn
      rw [AList.lookup_insert] at hexisting'
      cases hexisting'
      exact meet_subset hmeet hmeet' hbelow
    · rw [AList.lookup_insert_ne hkn] at hexisting'
      have hold : ∃ old, meet dom k (preds k) = some old := by
        obtain ⟨hps, hmem⟩ := hpreds k hk hkstart
        cases hp : preds k with
        | nil => exact absurd hp hps
        | cons p rest =>
          obtain ⟨s, hs⟩ := Option.isSome_iff_exists.mp (h.keyed p (hmem p (by simp [hp])).1)
          exact ⟨_, by rw [meet, hs]; rfl⟩
      obtain ⟨old, hold⟩ := hold
      exact (meet_subset hold hmeet' hbelow).trans (h.shrinks k hk hkstart old _ hold hexisting')
  · intro k hk existing' hexisting' d hd hdom
    by_cases hkn : k = n
    · subst hkn
      rw [AList.lookup_insert] at hexisting'
      cases hexisting'
      obtain ⟨hps, hmem⟩ := hpreds k hk hne
      rw [mem_meet hmeet hps]
      by_cases hdk : d = k
      · exact .inl hdk
      · exact .inr fun q hq s hs =>
          h.holds q (hmem q hq).1 s hs d hd (hdom.pred hdk (hmem q hq).2)
    · rw [AList.lookup_insert_ne hkn] at hexisting'
      exact h.holds k hk existing' hexisting' d hd hdom
  · rw [AList.lookup_insert_ne hne.symm]
    exact h.start_eq

/-- How much there is left to cut. -/
def weight (nodes : List N) (dom : AList fun _ : N => Finset N) : ℕ :=
  (nodes.map fun n => ((dom.lookup n).getD ∅).card).sum

theorem weight_insert_lt {existing : Finset N} (hn : n ∈ nodes)
    (hexisting : dom.lookup n = some existing) (hlt : new ⊂ existing) :
    weight nodes (dom.insert n new) < weight nodes dom := by
  unfold weight
  apply List.sum_lt_sum
  · intro k _
    by_cases hk : k = n
    · subst hk
      rw [AList.lookup_insert, hexisting]
      exact Finset.card_le_card hlt.subset
    · rw [AList.lookup_insert_ne hk]
  · refine ⟨n, hn, ?_⟩
    rw [AList.lookup_insert, hexisting]
    exact Finset.card_lt_card hlt

/-- Recomputing any of the nodes gives the set it has. -/
def Stable (start : N) (preds : N → List N) (nodes : List N)
    (dom : AList fun _ : N => Finset N) : Prop :=
  ∀ n ∈ nodes, n ≠ start → ∀ new existing, meet dom n (preds n) = some new →
    dom.lookup n = some existing → new = existing

/-- A round keeps what holds of the sets. One that changes nothing found them stable, and
one that changes something leaves less. -/
theorem sweep_spec {succ : N → List N} {round : List N}
    (h : Descends succ start preds nodes dom) (hround : ∀ n ∈ round, n ∈ nodes)
    (hpreds : ∀ n ∈ nodes, n ≠ start → preds n ≠ [] ∧ ∀ p ∈ preds n, p ∈ nodes ∧ n ∈ succ p) :
    Descends succ start preds nodes (sweep start preds round dom).1 ∧
      weight nodes (sweep start preds round dom).1 ≤ weight nodes dom ∧
      ((sweep start preds round dom).2 = true →
        weight nodes (sweep start preds round dom).1 < weight nodes dom) ∧
      ((sweep start preds round dom).2 = false →
        (sweep start preds round dom).1 = dom ∧ Stable start preds round dom) := by
  induction round generalizing dom with
  | nil => exact ⟨h, le_rfl, by simp [sweep], fun _ => ⟨rfl, by simp [Stable]⟩⟩
  | cons n rest ih =>
    have hrest : ∀ k ∈ rest, k ∈ nodes := fun k hk => hround k (List.mem_cons_of_mem _ hk)
    have hn : n ∈ nodes := hround n List.mem_cons_self
    rw [sweep]
    split
    · rename_i hstart
      obtain ⟨hdescends, hle, hlt, hsame⟩ := ih h hrest
      refine ⟨hdescends, hle, hlt, fun hfalse => ⟨(hsame hfalse).1, ?_⟩⟩
      intro k hk hkstart
      rcases List.mem_cons.mp hk with rfl | hk
      · exact absurd hstart hkstart
      · exact (hsame hfalse).2 k hk hkstart
    · rename_i hstart
      split
      · rename_i new existing hmeet hexisting
        split
        · rename_i hequal
          obtain ⟨hdescends, hle, hlt, hsame⟩ := ih h hrest
          refine ⟨hdescends, hle, hlt, fun hfalse => ⟨(hsame hfalse).1, ?_⟩⟩
          intro k hk hkstart
          rcases List.mem_cons.mp hk with rfl | hk
          · intro new' existing' hmeet' hexisting'
            rw [hmeet] at hmeet'
            rw [hexisting] at hexisting'
            cases hmeet'
            cases hexisting'
            exact hequal
          · exact (hsame hfalse).2 k hk hkstart
        · rename_i hdiffer
          have hsub := h.shrinks n hn hstart new existing hmeet hexisting
          have hcut := weight_insert_lt hn hexisting (hsub.ssubset_of_ne hdiffer)
          obtain ⟨hdescends, hle, -, -⟩ := ih (h.insert hpreds hn hstart hmeet) hrest
          exact ⟨hdescends, hle.trans hcut.le, fun _ => hle.trans_lt hcut, by simp⟩
      · rename_i hnone
        obtain ⟨hdescends, hle, hlt, hsame⟩ := ih h hrest
        refine ⟨hdescends, hle, hlt, fun hfalse => ⟨(hsame hfalse).1, ?_⟩⟩
        intro k hk hkstart new' existing' hmeet' hexisting'
        rcases List.mem_cons.mp hk with rfl | hk
        · exact absurd hexisting' (hnone new' existing' hmeet')
        · exact (hsame hfalse).2 k hk hkstart new' existing' hmeet' hexisting'

/-- What the rounds end in is stable. -/
theorem sweeps_stable {succ : N → List N} {fuel : ℕ} {settled : AList fun _ : N => Finset N}
    (h : Descends succ start preds nodes dom)
    (hpreds : ∀ n ∈ nodes, n ≠ start → preds n ≠ [] ∧ ∀ p ∈ preds n, p ∈ nodes ∧ n ∈ succ p)
    (hsweeps : sweeps start preds nodes fuel dom = some settled) :
    Descends succ start preds nodes settled ∧ Stable start preds nodes settled := by
  induction fuel generalizing dom with
  | zero => cases hsweeps
  | succ fuel ih =>
    obtain ⟨hdescends, -, -, hsame⟩ := sweep_spec h (fun _ hn => hn) hpreds
    rw [sweeps] at hsweeps
    cases hsweep : sweep start preds nodes dom with
    | mk next changed =>
      rw [hsweep] at hdescends hsame hsweeps
      cases changed with
      | false =>
        cases hsweeps
        obtain ⟨rfl, hstable⟩ := hsame rfl
        exact ⟨hdescends, hstable⟩
      | true => exact ih hdescends hsweeps

/-- The rounds come to an end. -/
theorem sweeps_returns {succ : N → List N} {fuel : ℕ} (h : Descends succ start preds nodes dom)
    (hpreds : ∀ n ∈ nodes, n ≠ start → preds n ≠ [] ∧ ∀ p ∈ preds n, p ∈ nodes ∧ n ∈ succ p)
    (hfuel : weight nodes dom < fuel) : (sweeps start preds nodes fuel dom).isSome := by
  induction fuel generalizing dom with
  | zero => exact absurd hfuel (Nat.not_lt_zero _)
  | succ fuel ih =>
    obtain ⟨hdescends, -, hlt, -⟩ := sweep_spec h (fun _ hn => hn) hpreds
    rw [sweeps]
    cases hsweep : sweep start preds nodes dom with
    | mk next changed =>
      rw [hsweep] at hdescends hlt
      cases changed with
      | false => rfl
      | true => exact ih hdescends (Nat.lt_of_lt_of_le (hlt rfl) (Nat.lt_succ_iff.mp hfuel))

/-- Sets that are stable hold nothing but dominators. -/
theorem Stable.dominates {succ : N → List N} (hstable : Stable start preds nodes dom)
    (h : Descends succ start preds nodes dom)
    (hpreds : ∀ n ∈ nodes, n ≠ start → preds n ≠ [] ∧ ∀ p ∈ preds n, p ∈ nodes ∧ n ∈ succ p)
    (hclosed : ∀ n ∈ nodes, ∀ m ∈ succ n, m ∈ nodes ∧ n ∈ preds m) (hstart : start ∈ nodes)
    {visited : List N} (hwalk : Walk succ start (n :: visited)) :
    n ∈ nodes ∧ ∀ existing, dom.lookup n = some existing → d ∈ existing → d ∈ n :: visited := by
  induction visited generalizing n with
  | nil =>
    obtain ⟨rfl, -⟩ | ⟨_, _, hnil, -⟩ := hwalk.head_cases
    · refine ⟨hstart, fun existing hexisting hd => ?_⟩
      rw [h.start_eq] at hexisting
      cases hexisting
      simpa using hd
    · cases hnil
  | cons m visited ih =>
    obtain ⟨-, hnil⟩ | ⟨_, _, heq, hearlier, hsucc⟩ := hwalk.head_cases
    · cases hnil
    · cases heq
      obtain ⟨hm, hall⟩ := ih hearlier
      obtain ⟨hn, hpred⟩ := hclosed m hm n hsucc
      refine ⟨hn, fun existing hexisting hd => ?_⟩
      by_cases hne : n = start
      · rw [hne, h.start_eq] at hexisting
        cases hexisting
        rw [Finset.mem_singleton.mp hd, hne]
        exact List.mem_cons_self
      · obtain ⟨hps, hmem⟩ := hpreds n hn hne
        obtain ⟨new, hmeet⟩ : ∃ new, meet dom n (preds n) = some new := by
          cases hp : preds n with
          | nil => exact absurd hp hps
          | cons p rest =>
            obtain ⟨s, hs⟩ := Option.isSome_iff_exists.mp (h.keyed p (hmem p (by simp [hp])).1)
            exact ⟨_, by rw [meet, hs]; rfl⟩
        obtain rfl := hstable n hn hne new existing hmeet hexisting
        rcases (mem_meet hmeet hps).mp hd with rfl | hall'
        · exact List.mem_cons_self
        · obtain ⟨s, hs⟩ := Option.isSome_iff_exists.mp (h.keyed m hm)
          exact List.mem_cons_of_mem _ (hall s hs (hall' m hpred s hs))

end

end Dominance
