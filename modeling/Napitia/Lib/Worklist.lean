import Mathlib.Data.List.AList
import Mathlib.Data.Finset.Card
import Mathlib.Algebra.BigOperators.Group.List.Basic
import Mathlib.Algebra.Order.BigOperators.Group.List
import Mathlib.Algebra.Order.Group.Nat
import Mathlib.Algebra.GroupWithZero.Nat

/-!
# Worklists that settle

A worklist recomputes the value of one node at a time and, when it changed, puts the
node's successors back. Each recomputation reads the values of predecessors only, so
when the list runs empty every node's value is what recomputing it would give. Where
the values only move one way in an order of bounded height, it does run empty. The set
of nodes reached from a start is found the same way.
-/
namespace Worklist
variable {N S : Type} [DecidableEq N]

/-- The nodes put on the list: those kept and not already there. -/
def push (keep : N → Bool) (pending targets : List N) : List N :=
  targets.foldl (fun pending n => if keep n ∧ n ∉ pending then n :: pending else pending) pending

/-- Values recomputed until the list runs empty. -/
def settle [DecidableEq S] (keep : N → Bool) (succ : N → List N)
    (recompute : N → AList (fun _ : N => S) → Option S) :
    ℕ → AList (fun _ : N => S) → List N → Option (AList fun _ : N => S)
  | _, out, [] => some out
  | 0, _, _ :: _ => none
  | fuel + 1, out, n :: pending =>
    match recompute n out with
    | none => settle keep succ recompute fuel out pending
    | some s =>
      if out.lookup n = some s then settle keep succ recompute fuel out pending
      else settle keep succ recompute fuel (out.insert n s) (push keep pending (succ n))

/-- The nodes reached so far, grown along the frontier. -/
def reach (succ : N → List N) : ℕ → List N → List N → Option (List N)
  | _, reached, [] => some reached
  | 0, _, _ :: _ => none
  | fuel + 1, reached, n :: frontier =>
    let grown := (succ n).foldl
      (fun acc m => if m ∈ acc.1 then acc else (m :: acc.1, m :: acc.2)) (reached, frontier)
    reach succ fuel grown.1 grown.2

/-- The same at the other end of a queue, which remembers what it holds in a set. -/
def enqueue (keep : N → Bool) : List N → List N × Finset N → List N × Finset N
  | [], queue => queue
  | n :: targets, (pending, queued) =>
    if keep n ∧ n ∉ queued then enqueue keep targets (pending ++ [n], insert n queued)
    else enqueue keep targets (pending, queued)

/-- Values recomputed in the order of a queue until it runs empty. -/
def drain [DecidableEq S] (keep : N → Bool) (succ : N → List N)
    (recompute : N → AList (fun _ : N => S) → Option S) :
    ℕ → AList (fun _ : N => S) → List N → Finset N → Option (AList fun _ : N => S)
  | _, out, [], _ => some out
  | 0, _, _ :: _, _ => none
  | fuel + 1, out, n :: pending, queued =>
    match recompute n out with
    | none => drain keep succ recompute fuel out pending (queued.erase n)
    | some s =>
      if out.lookup n = some s then drain keep succ recompute fuel out pending (queued.erase n)
      else
        let queue := enqueue keep (succ n) (pending, queued.erase n)
        drain keep succ recompute fuel (out.insert n s) queue.1 queue.2

theorem mem_push {keep : N → Bool} {pending targets : List N} {n : N} :
    n ∈ pending ∨ (n ∈ targets ∧ keep n = true) → n ∈ push keep pending targets := by
  unfold push
  induction targets generalizing pending with
  | nil => simp
  | cons m targets ih =>
    intro h
    rw [List.foldl_cons]
    apply ih
    rcases h with hpending | ⟨hmem, hkeep⟩
    · left
      split
      · exact List.mem_cons_of_mem _ hpending
      · exact hpending
    · rcases List.mem_cons.mp hmem with heq | hmem
      · left
        subst heq
        by_cases hin : n ∈ pending
        · simp [hin]
        · simp [hin, hkeep]
      · exact .inr ⟨hmem, hkeep⟩

/-- A node's value is what recomputing it gives. -/
def Stable (recompute : N → AList (fun _ : N => S) → Option S) (out : AList fun _ : N => S)
    (n : N) : Prop :=
  ∀ s, recompute n out = some s → out.lookup n = some s

/-- A node that is found stable leaves the list. -/
theorem stable_or_pending {recompute : N → AList (fun _ : N => S) → Option S}
    {out : AList fun _ : N => S} {pending : List N} {n : N}
    (hrest : ∀ k, k ≠ n → k ∈ pending ∨ Stable recompute out k) (hn : Stable recompute out n) :
    ∀ k, k ∈ pending ∨ Stable recompute out k := by
  intro k
  by_cases hk : k = n
  · exact .inr (hk ▸ hn)
  · exact hrest k hk

/-- A value that changed leaves stable whatever is not put back on the list. -/
theorem stable_or_pending_insert {keep : N → Bool} {succ : N → List N}
    {recompute : N → AList (fun _ : N => S) → Option S}
    (hlocal : ∀ n out out', (∀ p, n ∈ succ p → AList.lookup p out = AList.lookup p out') →
      recompute n out = recompute n out')
    (hkeep : ∀ n out, keep n = false → recompute n out = none)
    {out : AList fun _ : N => S} {pending pending' : List N} {n : N} {s : S}
    (hs : recompute n out = some s) (hrest : ∀ k, k ≠ n → k ∈ pending ∨ Stable recompute out k)
    (hpending : ∀ k ∈ pending, k ∈ pending')
    (hadded : ∀ k ∈ succ n, keep k = true → k ∈ pending') :
    ∀ k, k ∈ pending' ∨ Stable recompute (out.insert n s) k := by
  intro k
  by_cases hsucc : k ∈ succ n
  · -- A successor is recomputed again, or nothing is recomputed for it.
    cases hkept : keep k with
    | true => exact .inl (hadded k hsucc hkept)
    | false => exact .inr fun s' hs' => absurd hs' (by simp [hkeep k _ hkept])
  · have hagree : ∀ p, k ∈ succ p →
        AList.lookup p (out.insert n s) = AList.lookup p out := by
      intro p hp
      have hne : p ≠ n := fun heq => hsucc (heq ▸ hp)
      exact AList.lookup_insert_ne hne
    by_cases hk : k = n
    · subst hk
      right
      intro s' hs'
      rw [hlocal _ _ _ hagree, hs] at hs'
      rw [AList.lookup_insert, hs']
    · rcases hrest k hk with hmem | hstable
      · exact .inl (hpending k hmem)
      · right
        intro s' hs'
        rw [hlocal _ _ _ hagree] at hs'
        rw [AList.lookup_insert_ne hk]
        exact hstable s' hs'

/-- When recomputing reads only predecessors, and nothing is recomputed for a node
not kept, every node a settled list leaves is stable. -/
theorem stable_of_settle [DecidableEq S] {keep : N → Bool} {succ : N → List N}
    {recompute : N → AList (fun _ : N => S) → Option S}
    (hlocal : ∀ n out out', (∀ p, n ∈ succ p → AList.lookup p out = AList.lookup p out') →
      recompute n out = recompute n out')
    (hkeep : ∀ n out, keep n = false → recompute n out = none)
    {fuel : ℕ} {out settled : AList fun _ : N => S} {pending : List N}
    (h : settle keep succ recompute fuel out pending = some settled)
    (hinv : ∀ n, n ∈ pending ∨ Stable recompute out n) : ∀ n, Stable recompute settled n := by
  induction fuel generalizing out pending with
  | zero =>
    cases pending with
    | nil =>
      cases h
      exact fun n => (hinv n).resolve_left List.not_mem_nil
    | cons n pending => exact absurd h (by simp [settle])
  | succ fuel ih =>
    cases pending with
    | nil =>
      cases h
      exact fun n => (hinv n).resolve_left List.not_mem_nil
    | cons n pending =>
      have hrest : ∀ k, k ≠ n → k ∈ pending ∨ Stable recompute out k := fun k hk =>
        (hinv k).imp_left fun hmem => (List.mem_cons.mp hmem).resolve_left hk
      rw [settle] at h
      split at h
      · rename_i hnone
        exact ih h (stable_or_pending hrest fun s hs => absurd hs (by simp [hnone]))
      · rename_i s hs
        split at h
        · rename_i hsame
          exact ih h (stable_or_pending hrest fun s' hs' =>
            Option.some.inj (hs.symm.trans hs') ▸ hsame)
        · exact ih h (stable_or_pending_insert hlocal hkeep hs hrest
            (fun k hk => mem_push (.inl hk)) fun k hk hkept => mem_push (.inr ⟨hk, hkept⟩))

/-- What was grown keeps what there was, holds every target, and puts on the
frontier whatever it added. -/
theorem grow_spec (targets reached frontier : List N) :
    let grown := targets.foldl
      (fun acc m => if m ∈ acc.1 then acc else (m :: acc.1, m :: acc.2)) (reached, frontier)
    (∀ n ∈ reached, n ∈ grown.1) ∧ (∀ n ∈ frontier, n ∈ grown.2) ∧ (∀ n ∈ targets, n ∈ grown.1) ∧
      ∀ n ∈ grown.1, n ∈ reached ∨ n ∈ grown.2 := by
  induction targets generalizing reached frontier with
  | nil => exact ⟨fun _ h => h, fun _ h => h, by simp, fun _ h => .inl h⟩
  | cons m targets ih =>
    rw [List.foldl_cons]
    split
    · rename_i hmem
      have ⟨hreached, hfrontier, htargets, hadded⟩ := ih reached frontier
      refine ⟨hreached, hfrontier, fun n hn => ?_, hadded⟩
      rcases List.mem_cons.mp hn with heq | hn
      · exact heq ▸ hreached m hmem
      · exact htargets n hn
    · have ⟨hreached, hfrontier, htargets, hadded⟩ := ih (m :: reached) (m :: frontier)
      refine ⟨fun n hn => hreached n (List.mem_cons_of_mem _ hn),
        fun n hn => hfrontier n (List.mem_cons_of_mem _ hn), fun n hn => ?_, fun n hn => ?_⟩
      · rcases List.mem_cons.mp hn with heq | hn
        · exact heq ▸ hreached m List.mem_cons_self
        · exact htargets n hn
      · rcases hadded n hn with hmem | hmem
        · rcases List.mem_cons.mp hmem with heq | hmem
          · exact .inr (heq ▸ hfrontier m List.mem_cons_self)
          · exact .inl hmem
        · exact .inr hmem

/-- What was grown comes from what there was and from the targets. -/
theorem grown_subset (targets reached frontier : List N) :
    let grown := targets.foldl
      (fun acc m => if m ∈ acc.1 then acc else (m :: acc.1, m :: acc.2)) (reached, frontier)
    (∀ n ∈ grown.1, n ∈ reached ∨ n ∈ targets) ∧ ∀ n ∈ grown.2, n ∈ frontier ∨ n ∈ targets := by
  induction targets generalizing reached frontier with
  | nil => exact ⟨fun _ h => .inl h, fun _ h => .inl h⟩
  | cons m targets ih =>
    rw [List.foldl_cons]
    split
    · obtain ⟨hreached, hfrontier⟩ := ih reached frontier
      exact ⟨fun n hn => (hreached n hn).imp_right (List.mem_cons_of_mem _),
        fun n hn => (hfrontier n hn).imp_right (List.mem_cons_of_mem _)⟩
    · obtain ⟨hreached, hfrontier⟩ := ih (m :: reached) (m :: frontier)
      refine ⟨fun n hn => ?_, fun n hn => ?_⟩
      · rcases hreached n hn with hn | hn
        · rcases List.mem_cons.mp hn with rfl | hn
          · exact .inr List.mem_cons_self
          · exact .inl hn
        · exact .inr (List.mem_cons_of_mem _ hn)
      · rcases hfrontier n hn with hn | hn
        · rcases List.mem_cons.mp hn with rfl | hn
          · exact .inr List.mem_cons_self
          · exact .inl hn
        · exact .inr (List.mem_cons_of_mem _ hn)

/-- The nodes reached hold where they started and are closed under successors. -/
theorem reach_closed {succ : N → List N} {fuel : ℕ} {reached frontier found : List N}
    (h : reach succ fuel reached frontier = some found)
    (hinv : ∀ n ∈ reached, n ∈ frontier ∨ ∀ m ∈ succ n, m ∈ reached) :
    (∀ n ∈ reached, n ∈ found) ∧ ∀ n ∈ found, ∀ m ∈ succ n, m ∈ found := by
  induction fuel generalizing reached frontier with
  | zero =>
    cases frontier with
    | nil =>
      cases h
      exact ⟨fun _ hn => hn, fun n hn => (hinv n hn).resolve_left List.not_mem_nil⟩
    | cons n frontier => exact absurd h (by simp [reach])
  | succ fuel ih =>
    cases frontier with
    | nil =>
      cases h
      exact ⟨fun _ hn => hn, fun n hn => (hinv n hn).resolve_left List.not_mem_nil⟩
    | cons n frontier =>
      rw [reach] at h
      have hgrow := grow_spec (succ n) reached frontier
      generalize (succ n).foldl
        (fun acc m => if m ∈ acc.1 then acc else (m :: acc.1, m :: acc.2)) (reached, frontier) =
          grown at h hgrow
      have ⟨hreached, hfrontier, htargets, hadded⟩ := hgrow
      have hgrown := ih h ?_
      · exact ⟨fun k hk => hgrown.1 k (hreached k hk), hgrown.2⟩
      · intro k hk
        rcases hadded k hk with hmem | hmem
        · rcases hinv k hmem with hfront | hclosed
          · rcases List.mem_cons.mp hfront with heq | hfront
            · exact .inr (heq ▸ htargets)
            · exact .inl (hfrontier k hfront)
          · exact .inr fun m hm => hreached m (hclosed m hm)
        · exact .inl hmem

/-- What holds of the starts and goes over to successors holds of every node reached. -/
theorem reach_induction {P : N → Prop} {succ : N → List N} {fuel : ℕ}
    {reached frontier found : List N} (h : reach succ fuel reached frontier = some found)
    (hstep : ∀ n, P n → ∀ m ∈ succ n, P m) (hreached : ∀ n ∈ reached, P n)
    (hfrontier : ∀ n ∈ frontier, n ∈ reached) : ∀ n ∈ found, P n := by
  induction fuel generalizing reached frontier with
  | zero =>
    cases frontier with
    | nil =>
      cases h
      exact hreached
    | cons n frontier => exact absurd h (by simp [reach])
  | succ fuel ih =>
    cases frontier with
    | nil =>
      cases h
      exact hreached
    | cons n frontier =>
      have hn : P n := hreached n (hfrontier n List.mem_cons_self)
      have hgrow := grow_spec (succ n) reached frontier
      have hsub := grown_subset (succ n) reached frontier
      rw [reach] at h
      refine ih h (fun k hk => ?_) fun k hk => ?_
      · exact (hsub.1 k hk).elim (hreached k) (hstep n hn k)
      · exact (hsub.2 k hk).elim
          (fun hk => hgrow.1 k (hfrontier k (List.mem_cons_of_mem _ hk))) (hgrow.2.2.1 k)

/-! ### Reaching comes to an end -/

/-- What was grown is what there was, or holds a target that was new. -/
theorem grow_eq_or (targets reached frontier : List N) :
    let grown := targets.foldl
      (fun acc m => if m ∈ acc.1 then acc else (m :: acc.1, m :: acc.2)) (reached, frontier)
    grown = (reached, frontier) ∨ ∃ m ∈ targets, m ∉ reached := by
  by_cases hall : ∀ m ∈ targets, m ∈ reached
  · left
    induction targets with
    | nil => rfl
    | cons m targets ih =>
      rw [List.foldl_cons, if_pos (hall m List.mem_cons_self)]
      exact ih fun k hk => hall k (List.mem_cons_of_mem _ hk)
  · right
    push Not at hall
    exact hall

/-- More fuel finds the same. -/
theorem reach_mono {succ : N → List N} {fuel fuel' : ℕ} {reached frontier found : List N}
    (h : reach succ fuel reached frontier = some found) (hle : fuel ≤ fuel') :
    reach succ fuel' reached frontier = some found := by
  induction fuel generalizing fuel' reached frontier with
  | zero =>
    cases frontier with
    | nil =>
      cases h
      cases fuel' <;> rfl
    | cons n frontier => exact absurd h (by simp [reach])
  | succ fuel ih =>
    obtain ⟨fuel', rfl⟩ : ∃ k, fuel' = k + 1 := Nat.exists_eq_succ_of_ne_zero (by omega)
    cases frontier with
    | nil => exact h
    | cons n frontier =>
      rw [reach] at h ⊢
      exact ih h (Nat.le_of_succ_le_succ hle)

/-- In a finite set of nodes that holds every successor, the search ends. -/
theorem reach_returns {succ : N → List N} {nodes : Finset N}
    (hnodes : ∀ n ∈ nodes, ∀ m ∈ succ n, m ∈ nodes) {reached frontier : List N}
    (hreached : ∀ n ∈ reached, n ∈ nodes) (hfrontier : ∀ n ∈ frontier, n ∈ reached) :
    ∃ fuel, (reach succ fuel reached frontier).isSome := by
  induction hcard : (nodes \ reached.toFinset).card using Nat.strong_induction_on
    generalizing reached frontier with
  | _ card ih =>
    induction frontier with
    | nil => exact ⟨0, rfl⟩
    | cons n frontier ihf =>
      have hgrow := grow_spec (succ n) reached frontier
      have hor := grow_eq_or (succ n) reached frontier
      have hsub := grown_subset (succ n) reached frontier
      cases hgrown : (succ n).foldl
          (fun acc m => if m ∈ acc.1 then acc else (m :: acc.1, m :: acc.2)) (reached, frontier) with
      | mk reached' frontier' =>
        rw [hgrown] at hgrow hor hsub
        have hstep : ∀ fuel, reach succ (fuel + 1) reached (n :: frontier) =
            reach succ fuel reached' frontier' := by
          intro fuel
          rw [reach, hgrown]
        rcases hor with heq | ⟨m, hm, hnew⟩
        · cases heq
          obtain ⟨fuel, hfuel⟩ := ihf fun k hk => hfrontier k (List.mem_cons_of_mem _ hk)
          exact ⟨fuel + 1, by rwa [hstep]⟩
        · have hnode : n ∈ nodes := hreached n (hfrontier n List.mem_cons_self)
          have hin : ∀ k ∈ reached', k ∈ nodes := by
            intro k hk
            rcases hsub.1 k hk with hk | hk
            · exact hreached k hk
            · exact hnodes n hnode k hk
          have hfront : ∀ k ∈ frontier', k ∈ reached' := by
            intro k hk
            rcases hsub.2 k hk with hk | hk
            · exact hgrow.1 k (hfrontier k (List.mem_cons_of_mem _ hk))
            · exact hgrow.2.2.1 k hk
          have hless : (nodes \ reached'.toFinset).card < card := by
            rw [← hcard]
            apply Finset.card_lt_card
            refine (Finset.sdiff_subset_sdiff (Finset.Subset.refl _) ?_).ssubset_of_ne ?_
            · intro k hk
              exact List.mem_toFinset.mpr (hgrow.1 k (List.mem_toFinset.mp hk))
            · intro heq
              have hmem : m ∈ nodes \ reached.toFinset :=
                Finset.mem_sdiff.mpr ⟨hnodes n hnode m hm, by simpa using hnew⟩
              rw [← heq, Finset.mem_sdiff, List.mem_toFinset] at hmem
              exact hmem.2 (hgrow.2.2.1 m hm)
          obtain ⟨fuel, hfuel⟩ := ih _ hless hin hfront rfl
          exact ⟨fuel + 1, by rwa [hstep]⟩

/-! ### The queue -/

theorem mem_enqueue_pending {keep : N → Bool} {targets : List N} {queue : List N × Finset N}
    {n : N} (h : n ∈ queue.1) : n ∈ (enqueue keep targets queue).1 := by
  induction targets generalizing queue with
  | nil => exact h
  | cons m targets ih =>
    obtain ⟨pending, queued⟩ := queue
    rw [enqueue]
    split
    · exact ih (List.mem_append_left _ h)
    · exact ih h

/-- What the queue remembers, it holds. -/
theorem enqueue_queued {keep : N → Bool} {targets : List N} {queue : List N × Finset N}
    (h : ∀ n ∈ queue.2, n ∈ queue.1) :
    ∀ n ∈ (enqueue keep targets queue).2, n ∈ (enqueue keep targets queue).1 := by
  induction targets generalizing queue with
  | nil => exact h
  | cons m targets ih =>
    obtain ⟨pending, queued⟩ := queue
    rw [enqueue]
    split
    · apply ih
      intro n hn
      rcases Finset.mem_insert.mp hn with rfl | hn
      · exact List.mem_append_right _ (List.mem_singleton_self n)
      · exact List.mem_append_left _ (h n hn)
    · exact ih h

theorem mem_enqueue_target {keep : N → Bool} {targets : List N} {queue : List N × Finset N}
    (h : ∀ n ∈ queue.2, n ∈ queue.1) {n : N} (hn : n ∈ targets) (hkeep : keep n = true) :
    n ∈ (enqueue keep targets queue).1 := by
  induction targets generalizing queue with
  | nil => cases hn
  | cons m targets ih =>
    obtain ⟨pending, queued⟩ := queue
    rw [enqueue]
    rcases List.mem_cons.mp hn with rfl | hn
    · by_cases hqueued : n ∈ queued
      · rw [if_neg fun hboth => hboth.2 hqueued]
        exact mem_enqueue_pending (h n hqueued)
      · rw [if_pos ⟨hkeep, hqueued⟩]
        exact mem_enqueue_pending (List.mem_append_right _ (List.mem_singleton_self n))
    · split
      · refine ih ?_ hn
        intro k hk
        rcases Finset.mem_insert.mp hk with rfl | hk
        · exact List.mem_append_right _ (List.mem_singleton_self k)
        · exact List.mem_append_left _ (h k hk)
      · exact ih h hn

section
variable [DecidableEq S] {keep : N → Bool} {succ : N → List N}
  {recompute : N → AList (fun _ : N => S) → Option S}

theorem queued_erase {pending : List N} {queued : Finset N} {n : N}
    (h : ∀ k ∈ queued, k ∈ n :: pending) : ∀ k ∈ queued.erase n, k ∈ pending := by
  intro k hk
  obtain ⟨hne, hk⟩ := Finset.mem_erase.mp hk
  exact (List.mem_cons.mp (h k hk)).resolve_left hne

/-- A drained queue leaves every node stable, as a settled list does. -/
theorem stable_of_drain
    (hlocal : ∀ n out out', (∀ p, n ∈ succ p → AList.lookup p out = AList.lookup p out') →
      recompute n out = recompute n out')
    (hkeep : ∀ n out, keep n = false → recompute n out = none)
    {fuel : ℕ} {out settled : AList fun _ : N => S} {pending : List N} {queued : Finset N}
    (h : drain keep succ recompute fuel out pending queued = some settled)
    (hqueued : ∀ n ∈ queued, n ∈ pending)
    (hinv : ∀ n, n ∈ pending ∨ Stable recompute out n) : ∀ n, Stable recompute settled n := by
  induction fuel generalizing out pending queued with
  | zero =>
    cases pending with
    | nil =>
      cases h
      exact fun n => (hinv n).resolve_left List.not_mem_nil
    | cons n pending => exact absurd h (by simp [drain])
  | succ fuel ih =>
    cases pending with
    | nil =>
      cases h
      exact fun n => (hinv n).resolve_left List.not_mem_nil
    | cons n pending =>
      have hrest : ∀ k, k ≠ n → k ∈ pending ∨ Stable recompute out k := fun k hk =>
        (hinv k).imp_left fun hmem => (List.mem_cons.mp hmem).resolve_left hk
      have herased := queued_erase hqueued
      rw [drain] at h
      split at h
      · rename_i hnone
        exact ih h herased (stable_or_pending hrest fun s hs => absurd hs (by simp [hnone]))
      · rename_i s hs
        split at h
        · rename_i hsame
          exact ih h herased (stable_or_pending hrest fun s' hs' =>
            Option.some.inj (hs.symm.trans hs') ▸ hsame)
        · have hqueue : ∀ k ∈ (pending, queued.erase n).2, k ∈ (pending, queued.erase n).1 := herased
          exact ih h (enqueue_queued hqueue) (stable_or_pending_insert hlocal hkeep hs hrest
            (fun k hk => mem_enqueue_pending hk) fun k hk hkept => mem_enqueue_target hqueue hk hkept)

/-- More fuel drains it to the same values. -/
theorem drain_mono {fuel fuel' : ℕ} {out settled : AList fun _ : N => S} {pending : List N}
    {queued : Finset N} (h : drain keep succ recompute fuel out pending queued = some settled)
    (hle : fuel ≤ fuel') : drain keep succ recompute fuel' out pending queued = some settled := by
  induction fuel generalizing fuel' out pending queued with
  | zero =>
    cases pending with
    | nil =>
      cases h
      cases fuel' <;> rfl
    | cons n pending => exact absurd h (by simp [drain])
  | succ fuel ih =>
    obtain ⟨fuel', rfl⟩ : ∃ k, fuel' = k + 1 := Nat.exists_eq_succ_of_ne_zero (by omega)
    cases pending with
    | nil => exact h
    | cons n pending =>
      have hrest := Nat.le_of_succ_le_succ hle
      rw [drain] at h ⊢
      cases hs : recompute n out with
      | none =>
        rw [hs] at h
        exact ih h hrest
      | some s =>
        rw [hs] at h
        by_cases hsame : out.lookup n = some s
        · simp only [if_pos hsame] at h ⊢
          exact ih h hrest
        · simp only [if_neg hsame] at h ⊢
          exact ih h hrest

/-- What every recomputation keeps, a drained queue keeps. -/
theorem drain_induction {P : (AList fun _ : N => S) → Prop}
    (hstep : ∀ n out s, P out → recompute n out = some s → P (out.insert n s))
    {fuel : ℕ} {out settled : AList fun _ : N => S} {pending : List N} {queued : Finset N}
    (h : drain keep succ recompute fuel out pending queued = some settled) (hP : P out) :
    P settled := by
  induction fuel generalizing out pending queued with
  | zero =>
    cases pending with
    | nil =>
      cases h
      exact hP
    | cons n pending => exact absurd h (by simp [drain])
  | succ fuel ih =>
    cases pending with
    | nil =>
      cases h
      exact hP
    | cons n pending =>
      rw [drain] at h
      split at h
      · exact ih h hP
      · rename_i s hs
        split at h
        · exact ih h hP
        · exact ih h (hstep n out s hP hs)

/-- A queue is drained if every change raises a rank that is bounded. -/
theorem drain_returns {P : (AList fun _ : N => S) → Prop} {rank : (AList fun _ : N => S) → ℕ}
    {bound : ℕ} (hstep : ∀ n out s, P out → recompute n out = some s → P (out.insert n s))
    (hrank : ∀ n out s, P out → recompute n out = some s → out.lookup n ≠ some s →
      rank out < rank (out.insert n s))
    (hbound : ∀ out, P out → rank out ≤ bound) {out : AList fun _ : N => S} (hP : P out)
    (pending : List N) (queued : Finset N) :
    ∃ fuel, (drain keep succ recompute fuel out pending queued).isSome := by
  induction hleft : bound - rank out using Nat.strong_induction_on
    generalizing out pending queued with
  | _ left ih =>
    induction pending generalizing queued with
    | nil => exact ⟨0, rfl⟩
    | cons n pending ihp =>
      cases hs : recompute n out with
      | none =>
        obtain ⟨fuel, hfuel⟩ := ihp (queued.erase n)
        exact ⟨fuel + 1, by rwa [drain, hs]⟩
      | some s =>
        by_cases hsame : out.lookup n = some s
        · obtain ⟨fuel, hfuel⟩ := ihp (queued.erase n)
          refine ⟨fuel + 1, ?_⟩
          rw [drain, hs]
          simpa only [if_pos hsame] using hfuel
        · have hP' := hstep n out s hP hs
          have hless : bound - rank (out.insert n s) < left := by
            have hmore := hrank n out s hP hs hsame
            have hmost := hbound _ hP'
            omega
          obtain ⟨fuel, hfuel⟩ := ih _ hless hP' (enqueue keep (succ n) (pending, queued.erase n)).1
            (enqueue keep (succ n) (pending, queued.erase n)).2 rfl
          refine ⟨fuel + 1, ?_⟩
          rw [drain, hs]
          simpa only [if_neg hsame] using hfuel

end

/-! ### Values that move one way -/

section
variable {keep : N → Bool} {succ : N → List N} {recompute : N → AList (fun _ : N => S) → Option S}
  {r : S → S → Prop} {D : S → Prop} {height : S → ℕ} {bound : ℕ} {nodes : List N}
  {out : AList fun _ : N => S} {n : N} {s : S}

/-- Every value of the one has its like in the other, further on. -/
def Onward (r : S → S → Prop) (out out' : AList fun _ : N => S) : Prop :=
  ∀ n s, out.lookup n = some s → ∃ s', out'.lookup n = some s' ∧ r s s'

/-- Recomputing a value would only move it on, unless nothing ever recomputes it. -/
def Advances (r : S → S → Prop) (recompute : N → AList (fun _ : N => S) → Option S)
    (out : AList fun _ : N => S) : Prop :=
  ∀ n s, out.lookup n = some s →
    (∀ other, recompute n other = none) ∨ ∃ s', recompute n out = some s' ∧ r s s'

theorem Advances.onward (h : Advances r recompute out) (hrefl : ∀ s, r s s) {n : N} {s : S}
    (hs : recompute n out = some s) : Onward r out (out.insert n s) := by
  intro k t ht
  by_cases hk : k = n
  · subst hk
    refine ⟨s, AList.lookup_insert out, ?_⟩
    rcases h k t ht with hnone | ⟨s', hs', hr⟩
    · exact absurd hs (by simp [hnone])
    · rw [hs] at hs'
      cases hs'
      exact hr
  · exact ⟨t, (AList.lookup_insert_ne hk).trans ht, hrefl t⟩

theorem Advances.insert (h : Advances r recompute out) (hrefl : ∀ s, r s s)
    (htrans : ∀ {a b c}, r a b → r b c → r a c)
    (hmono : ∀ n out' s, Onward r out out' → recompute n out = some s →
      ∃ s', recompute n out' = some s' ∧ r s s')
    {n : N} {s : S} (hs : recompute n out = some s) : Advances r recompute (out.insert n s) := by
  have honward := h.onward hrefl hs
  intro k t ht
  by_cases hk : k = n
  · subst hk
    rw [AList.lookup_insert] at ht
    cases ht
    exact .inr (hmono k _ s honward hs)
  · rw [AList.lookup_insert_ne hk] at ht
    refine (h k t ht).imp_right ?_
    rintro ⟨s', hs', hr⟩
    obtain ⟨s'', hs'', hr'⟩ := hmono k _ s' honward hs'
    exact ⟨s'', hs'', htrans hr hr'⟩

/-- How far the values of the nodes have come. -/
def progress (height : S → ℕ) (nodes : List N) (out : AList fun _ : N => S) : ℕ :=
  (nodes.map fun n => (out.lookup n).elim 0 fun s => height s + 1).sum

theorem progress_insert_lt (honward : Onward r out (out.insert n s)) (hn : n ∈ nodes)
    (hmoves : ∀ t, out.lookup n = some t → height t < height s) :
    progress height nodes out < progress height nodes (out.insert n s) := by
  unfold progress
  apply List.sum_lt_sum
  · intro k _
    by_cases hk : k = n
    · subst hk
      rw [AList.lookup_insert]
      cases ht : out.lookup k with
      | none => exact Nat.zero_le _
      | some t => exact Nat.succ_le_succ (hmoves t ht).le
    · rw [AList.lookup_insert_ne hk]
  · refine ⟨n, hn, ?_⟩
    rw [AList.lookup_insert]
    cases ht : out.lookup n with
    | none => exact Nat.succ_pos _
    | some t => exact Nat.succ_lt_succ (hmoves t ht)

theorem progress_le (hbound : ∀ n s, out.lookup n = some s → height s ≤ bound) :
    progress height nodes out ≤ nodes.length * (bound + 1) := by
  unfold progress
  have hall : ∀ k ∈ nodes.map fun n => (out.lookup n).elim 0 fun s => height s + 1, k ≤ bound + 1 := by
    intro k hk
    obtain ⟨n, -, rfl⟩ := List.mem_map.mp hk
    cases hs : out.lookup n with
    | none => exact Nat.zero_le _
    | some s => exact Nat.succ_le_succ (hbound n s hs)
  simpa using List.sum_le_card_nsmul _ _ hall

/-- A recomputation that is monotone on all that it comes to drains the queue, where the
values it gives lie in an order of bounded height. -/
theorem drain_returns_of_monotone [DecidableEq S] {P : (AList fun _ : N => S) → Prop}
    (hrefl : ∀ s, r s s) (htrans : ∀ {a b c}, r a b → r b c → r a c)
    (hstep : ∀ n out s, P out → recompute n out = some s → P (out.insert n s))
    (hdomain : ∀ out, P out → ∀ n s, out.lookup n = some s → D s)
    (hmono : ∀ n out out' s, P out → Onward r out out' → recompute n out = some s →
      ∃ s', recompute n out' = some s' ∧ r s s')
    (hheight : ∀ s s', D s → D s' → r s s' → s ≠ s' → height s < height s')
    (hbound : ∀ s, D s → height s ≤ bound)
    (hnodes : ∀ n out s, recompute n out = some s → n ∈ nodes)
    (hP : P out) (hadvances : Advances r recompute out) (pending : List N) (queued : Finset N) :
    ∃ fuel, (drain keep succ recompute fuel out pending queued).isSome := by
  have hboth : ∀ n out s, (Advances r recompute out ∧ P out) → recompute n out = some s →
      Advances r recompute (out.insert n s) ∧ P (out.insert n s) := fun n out s h hs =>
    ⟨h.1.insert hrefl htrans (fun k out' s' honward hs' => hmono k out out' s' h.2 honward hs') hs,
      hstep n out s h.2 hs⟩
  have hrank : ∀ n out s, (Advances r recompute out ∧ P out) → recompute n out = some s →
      out.lookup n ≠ some s →
      progress height nodes out < progress height nodes (out.insert n s) := by
    rintro n out s ⟨hadvances, hP⟩ hs hchanged
    apply progress_insert_lt (hadvances.onward hrefl hs) (hnodes n out s hs)
    intro t ht
    have hne : t ≠ s := fun heq => hchanged (heq ▸ ht)
    obtain ⟨s', hs', hr⟩ := (hadvances.onward hrefl hs) n t ht
    rw [AList.lookup_insert] at hs'
    cases hs'
    exact hheight t _ (hdomain out hP n t ht)
      (hdomain _ (hstep n out _ hP hs) n _ (AList.lookup_insert out)) hr hne
  exact drain_returns hboth hrank
    (fun out h => progress_le fun n s hs => hbound s (hdomain out h.2 n s hs)) ⟨hadvances, hP⟩
    pending queued

end

/-! ### Values with what they were recomputed from -/

section
variable {R : Type} [DecidableEq S]

/-- As a queue is drained, and what each node was recomputed from is kept as well, whether
or not its value changed. -/
def drainReading (keep : N → Bool) (succ : N → List N)
    (recompute : N → AList (fun _ : N => S) → Option (R × S)) :
    ℕ → AList (fun _ : N => R) → AList (fun _ : N => S) → List N → Finset N →
      Option (AList (fun _ : N => R) × AList (fun _ : N => S))
  | _, read, out, [], _ => some (read, out)
  | 0, _, _, _ :: _, _ => none
  | fuel + 1, read, out, n :: pending, queued =>
    match recompute n out with
    | none => drainReading keep succ recompute fuel read out pending (queued.erase n)
    | some (r, s) =>
      if out.lookup n = some s then
        drainReading keep succ recompute fuel (read.insert n r) out pending (queued.erase n)
      else
        let queue := enqueue keep (succ n) (pending, queued.erase n)
        drainReading keep succ recompute fuel (read.insert n r) (out.insert n s) queue.1 queue.2

variable {keep : N → Bool} {succ : N → List N}
  {recompute : N → AList (fun _ : N => S) → Option (R × S)}

/-- The last recomputation of a node is the one that is kept. -/
def Recorded (recompute : N → AList (fun _ : N => S) → Option (R × S))
    (read : AList fun _ : N => R) (out : AList fun _ : N => S) (n : N) : Prop :=
  ∀ r s, recompute n out = some (r, s) → read.lookup n = some r ∧ out.lookup n = some s

omit [DecidableEq S] in
theorem recorded_of_insert {read : AList fun _ : N => R} {out : AList fun _ : N => S}
    {n k : N} {r : R} (hk : k ≠ n) (h : Recorded recompute read out k) :
    Recorded recompute (read.insert n r) out k := by
  intro r' s' hs'
  rw [AList.lookup_insert_ne hk]
  exact h r' s' hs'

/-- Once the queue has run empty, every node that is kept is as it was last recomputed. -/
theorem recorded_of_drainReading
    (hlocal : ∀ n out out', (∀ p, n ∈ succ p → AList.lookup p out = AList.lookup p out') →
      recompute n out = recompute n out')
    {fuel : ℕ} {read read' : AList fun _ : N => R} {out out' : AList fun _ : N => S}
    {pending : List N} {queued : Finset N}
    (h : drainReading keep succ recompute fuel read out pending queued = some (read', out'))
    (hqueued : ∀ n ∈ queued, n ∈ pending)
    (hinv : ∀ n, keep n = true → n ∈ pending ∨ Recorded recompute read out n) :
    ∀ n, keep n = true → Recorded recompute read' out' n := by
  induction fuel generalizing read out pending queued with
  | zero =>
    cases pending with
    | nil =>
      cases h
      exact fun n hn => (hinv n hn).resolve_left List.not_mem_nil
    | cons n pending => exact absurd h (by simp [drainReading])
  | succ fuel ih =>
    cases pending with
    | nil =>
      cases h
      exact fun n hn => (hinv n hn).resolve_left List.not_mem_nil
    | cons n pending =>
      have hrest : ∀ k, keep k = true → k ≠ n → k ∈ pending ∨ Recorded recompute read out k :=
        fun k hkept hk => (hinv k hkept).imp_left fun hmem => (List.mem_cons.mp hmem).resolve_left hk
      have herased := queued_erase hqueued
      rw [drainReading] at h
      split at h
      · rename_i hnone
        refine ih h herased fun k hkept => ?_
        by_cases hk : k = n
        · subst hk
          exact .inr fun r s hs => absurd hs (by simp [hnone])
        · exact hrest k hkept hk
      · rename_i r s hs
        split at h
        · rename_i hsame
          refine ih h herased fun k hkept => ?_
          by_cases hk : k = n
          · subst hk
            right
            intro r' s' hs'
            rw [hs] at hs'
            cases hs'
            exact ⟨AList.lookup_insert read, hsame⟩
          · exact (hrest k hkept hk).imp_right (recorded_of_insert hk)
        · have hqueue : ∀ k ∈ (pending, queued.erase n).2, k ∈ (pending, queued.erase n).1 := herased
          refine ih h (enqueue_queued hqueue) fun k hkept => ?_
          by_cases hsucc : k ∈ succ n
          · exact .inl (mem_enqueue_target hqueue hsucc hkept)
          -- Nothing that the node reads has changed.
          · have hagree : ∀ p, k ∈ succ p →
                AList.lookup p (out.insert n s) = AList.lookup p out := by
              intro p hp
              exact AList.lookup_insert_ne fun heq : p = n => hsucc (heq ▸ hp)
            have hsame := hlocal k _ _ hagree
            by_cases hk : k = n
            · subst hk
              right
              intro r' s' hs'
              rw [hsame, hs] at hs'
              cases hs'
              exact ⟨AList.lookup_insert read, AList.lookup_insert out⟩
            · refine (hrest k hkept hk).imp mem_enqueue_pending fun hrecorded => ?_
              intro r' s' hs'
              rw [hsame] at hs'
              rw [AList.lookup_insert_ne hk, AList.lookup_insert_ne hk]
              exact hrecorded r' s' hs'

theorem enqueue_kept {targets : List N} {queue : List N × Finset N}
    (h : ∀ n ∈ queue.1, keep n = true) : ∀ n ∈ (enqueue keep targets queue).1, keep n = true := by
  induction targets generalizing queue with
  | nil => exact h
  | cons m targets ih =>
    obtain ⟨pending, queued⟩ := queue
    rw [enqueue]
    split
    · rename_i hboth
      apply ih
      intro n hn
      rcases List.mem_append.mp hn with hn | hn
      · exact h n hn
      · rw [List.mem_singleton.mp hn]
        exact hboth.1
    · exact ih h

/-- What is not kept stays as it was. -/
theorem drainReading_lookup {fuel : ℕ} {read read' : AList fun _ : N => R}
    {out out' : AList fun _ : N => S} {pending : List N} {queued : Finset N} {k : N}
    (h : drainReading keep succ recompute fuel read out pending queued = some (read', out'))
    (hpending : ∀ n ∈ pending, keep n = true) (hk : keep k = false) :
    read'.lookup k = read.lookup k ∧ out'.lookup k = out.lookup k := by
  induction fuel generalizing read out pending queued with
  | zero =>
    cases pending with
    | nil =>
      cases h
      exact ⟨rfl, rfl⟩
    | cons n pending => exact absurd h (by simp [drainReading])
  | succ fuel ih =>
    cases pending with
    | nil =>
      cases h
      exact ⟨rfl, rfl⟩
    | cons n pending =>
      obtain ⟨hn, hrest⟩ := List.forall_mem_cons.mp hpending
      have hne : k ≠ n := by
        rintro rfl
        rw [hk] at hn
        cases hn
      rw [drainReading] at h
      split at h
      · exact ih h hrest
      · split at h
        · obtain ⟨hread, hout⟩ := ih h hrest
          exact ⟨by rw [hread, AList.lookup_insert_ne hne], hout⟩
        · obtain ⟨hread, hout⟩ := ih h (enqueue_kept hrest)
          exact ⟨by rw [hread, AList.lookup_insert_ne hne],
            by rw [hout, AList.lookup_insert_ne hne]⟩

end

end Worklist
