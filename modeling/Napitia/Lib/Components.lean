import Mathlib.Data.List.Basic
import Mathlib.Logic.Function.Basic
import Mathlib.Logic.Relation
import Mathlib.Order.Basic
import Mathlib.Order.Defs.LinearOrder
import Mathlib.Order.Lattice

/-!
# Strongly connected components by one depth first search

Tarjan's search with its own stack. An entry of the work list is a node and how many of its
edges are behind it, so that a node is resumed where it was left. A node is numbered when it
is first looked into; its link is the least number of a node on the stack it is known to
reach. A node whose link is its own number when its edges are all behind it is the root of a
component: the stack down to it.

A component is closed when its edges lead into it or into components closed before it. So
nodes that reach each other are in one component.
-/
namespace Components
variable {N : Type} [DecidableEq N]

/-- What a search has found out. The stack holds the nodes that are in no component yet, the
last numbered first. -/
structure Core (N : Type) where
  index : N → Option ℕ
  link : N → ℕ
  counter : ℕ
  stack : List N
  components : List (List N)

structure Search (N : Type) where
  core : Core N
  work : List (N × ℕ)

def Core.initial : Core N := ⟨fun _ => none, fun _ => 0, 0, [], []⟩

/-- A node looked into for the first time. -/
def Core.number (s : Core N) (node : N) : Core N where
  index := Function.update s.index node (some s.counter)
  link := Function.update s.link node s.counter
  counter := s.counter + 1
  stack := node :: s.stack
  components := s.components

/-- The link of a node, lowered to what another node is known to reach. -/
def Core.lower (s : Core N) (node : N) (reached : ℕ) : Core N :=
  { s with link := Function.update s.link node (min (s.link node) reached) }

/-- The edges of a node one after the other, up to the first that leads to a node without a
number: that node, and how many edges are behind it then. -/
def scan (node : N) : List N → ℕ → Core N → Option (N × ℕ) × Core N
  | [], _, s => (none, s)
  | child :: rest, position, s =>
    match s.index child with
    | none => (some (child, position + 1), s)
    | some number =>
      if child ∈ s.stack then scan node rest (position + 1) (s.lower node number)
      else scan node rest (position + 1) s

/-- The stack down to a node, and what is left of it. -/
def popTo (node : N) : List N → List N × List N
  | [] => ([], [])
  | member :: rest =>
    if member = node then ([member], rest)
    else (member :: (popTo node rest).1, (popTo node rest).2)

/-- A node that is a root takes its component off the stack. -/
def Core.close (s : Core N) (node : N) : Core N :=
  if s.index node = some (s.link node) then
    { s with stack := (popTo node s.stack).2,
             components := s.components ++ [(popTo node s.stack).1] }
  else s

/-- A node with its edges behind it hands its link on to the node it was entered from. -/
def finish (s : Core N) (node : N) (work : List (N × ℕ)) : Search N :=
  match work with
  | [] => ⟨s.close node, []⟩
  | (parent, position) :: work =>
    ⟨(s.close node).lower parent ((s.close node).link node), (parent, position) :: work⟩

def step (adj : N → List N) (s : Search N) : Search N :=
  match s.work with
  | [] => s
  | (node, next) :: work =>
    let core := if next = 0 then s.core.number node else s.core
    match scan node ((adj node).drop next) next core with
    | (some (child, position), core) => ⟨core, (child, 0) :: (node, position) :: work⟩
    | (none, core) => finish core node work

/-- Rounds until there is nothing left to do, and `fuel` of them at most. -/
def walk (adj : N → List N) : ℕ → Search N → Search N
  | 0, s => s
  | fuel + 1, s => if s.work = [] then s else walk adj fuel (step adj s)

/-- A walk from a node that has no number yet. -/
def visit (adj : N → List N) (fuel : ℕ) (s : Core N) (root : N) : Core N :=
  if (s.index root).isSome then s else (walk adj fuel ⟨s, [(root, 0)]⟩).core

/-- The components of all nodes, in the order they were closed in. Two rounds for each node
are enough: one that ends in it, and one that goes on below it. -/
def components (adj : N → List N) (nodes : List N) : List (List N) :=
  (nodes.foldl (visit adj (2 * nodes.length)) Core.initial).components

/-! ### What the search keeps -/

section
variable {adj : N → List N} {nodes earlier : List N} {base : ℕ} {s : Core N}
  {node child target : N} {position : ℕ} {work : List (N × ℕ)} {stack : List N}

def Core.num (s : Core N) (node : N) : ℕ := (s.index node).getD 0

/-- The edges of a component lead into it or into one before it. -/
inductive Closed (adj : N → List N) : List (List N) → Prop
  | nil : Closed adj []
  | snoc {before : List (List N)} {component : List N} : Closed adj before →
      (∀ node ∈ component, ∀ target ∈ adj node, target ∈ before.flatten ∨ target ∈ component) →
      Closed adj (before ++ [component])

/-- An edge to `target` that the link of `node` tells of. -/
def Core.Behind (s : Core N) (node target : N) : Prop :=
  target ∈ s.components.flatten ∨ target ∈ s.stack ∧ s.link node ≤ s.num target

/-- Each node of the work list stands on the stack below the finished nodes that were
entered from it. Its link tells of their edges and of those of its own behind it. -/
inductive Laid (adj : N → List N) (s : Core N) : List (N × ℕ) → List N → Prop
  | nil : Laid adj s [] []
  | cons {node : N} {position : ℕ} {work : List (N × ℕ)} {stack : List N} (finished : List N) :
      Laid adj s work stack →
      (∀ u ∈ finished, ∀ target ∈ adj u, s.Behind node target) →
      (∀ target ∈ (adj node).take position, s.Behind node target) →
      Laid adj s ((node, position) :: work) (finished ++ node :: stack)

/-- What holds between two rounds. No link is below the number of the node at the bottom of
the stack, which is `base`. -/
structure Kept (adj : N → List N) (nodes earlier : List N) (base : ℕ) (s : Core N)
    (work : List (N × ℕ)) : Prop where
  laid : Laid adj s work s.stack
  closed : Closed adj s.components
  numbered : ∀ x, (s.index x).isSome ↔ x ∈ s.stack ∨ x ∈ s.components.flatten
  descending : s.stack.Pairwise fun a b => s.num b < s.num a
  each : ∀ x ∈ s.stack,
    x ∈ nodes ∧ base ≤ s.link x ∧ s.link x ≤ s.num x ∧ s.num x < s.counter
  bottom : ∀ x, s.stack.getLast? = some x → s.num x ≤ base
  since : ∀ x ∈ earlier, (s.index x).isSome

omit [DecidableEq N] in
theorem Laid.mem_stack (h : Laid adj s work stack) (hf : (node, position) ∈ work) :
    node ∈ stack := by
  induction h with
  | nil => cases hf
  | cons finished _ _ _ ih =>
    rcases List.mem_cons.mp hf with heq | hf
    · cases heq
      simp
    · simp [ih hf]

omit [DecidableEq N] in
theorem Laid.mono {s' : Core N} (h : Laid adj s work stack)
    (hbehind : ∀ node ∈ stack, ∀ target, s.Behind node target → s'.Behind node target) :
    Laid adj s' work stack := by
  induction h with
  | nil => exact .nil
  | cons finished _ hfinished hbefore ih =>
    refine .cons finished (ih fun n hn => hbehind n (by simp [hn])) ?_ ?_
    · intro u hu target htarget
      exact hbehind _ (by simp) target (hfinished u hu target htarget)
    · intro target htarget
      exact hbehind _ (by simp) target (hbefore target htarget)

omit [DecidableEq N] in
/-- One more edge is behind the node on top. -/
theorem Laid.advance (h : Laid adj s ((node, position) :: work) stack)
    (hchild : (adj node)[position]? = some child) (hbehind : s.Behind node child) :
    Laid adj s ((node, position + 1) :: work) stack := by
  cases h with
  | cons finished hbelow hfinished hbefore =>
    refine .cons finished hbelow hfinished fun target htarget => ?_
    rw [List.take_add_one, hchild] at htarget
    rcases List.mem_append.mp htarget with htarget | htarget
    · exact hbefore target htarget
    · cases List.mem_singleton.mp htarget
      exact hbehind

omit [DecidableEq N] in
/-- No edge is left in front of the node on top. -/
theorem Laid.full (h : Laid adj s ((node, position) :: work) stack)
    (hend : (adj node).length ≤ position) :
    Laid adj s ((node, (adj node).length) :: work) stack := by
  cases h with
  | cons finished hbelow hfinished hbefore =>
    refine .cons finished hbelow hfinished ?_
    rwa [List.take_length, ← List.take_of_length_le hend]

theorem link_lower {reached : ℕ} (x : N) : (s.lower node reached).link x ≤ s.link x := by
  simp only [Core.lower, Function.update_apply]
  split
  · next h => exact h ▸ min_le_left _ _
  · exact le_rfl

/-- A lowered link still tells of what it told of. -/
theorem Kept.lower {reached : ℕ} (h : Kept adj nodes earlier base s work) (hbase : base ≤ reached) :
    Kept adj nodes earlier base (s.lower node reached) work where
  laid := h.laid.mono fun n _ target hbehind => hbehind.imp_right fun hin =>
    ⟨hin.1, (link_lower n).trans hin.2⟩
  closed := h.closed
  numbered := h.numbered
  descending := h.descending
  each x hx := by
    obtain ⟨hnode, hle, hlink, hcount⟩ := h.each x hx
    refine ⟨hnode, ?_, (link_lower x).trans hlink, hcount⟩
    simp only [Core.lower, Function.update_apply]
    split
    · next heq => exact le_min (heq ▸ hle) hbase
    · exact hle
  bottom := h.bottom
  since := h.since

omit [DecidableEq N] in
theorem num_eq {i : ℕ} (h : s.index node = some i) : s.num node = i := by simp [Core.num, h]

/-- An edge to a node with a number is taken into account by the link. -/
theorem Kept.follow {number : ℕ} (h : Kept adj nodes earlier base s ((node, position) :: work))
    (hchild : (adj node)[position]? = some child) (hindex : s.index child = some number) :
    Kept adj nodes earlier base (if child ∈ s.stack then s.lower node number else s)
      ((node, position + 1) :: work) := by
  split
  · next hmem =>
    have hnum := num_eq hindex
    obtain ⟨-, hle, hlink, -⟩ := h.each child hmem
    have hlow : base ≤ number := hnum ▸ hle.trans hlink
    have hkept : Kept adj nodes earlier base (s.lower node number) _ := h.lower hlow
    refine { hkept with laid := hkept.laid.advance hchild (.inr ⟨hmem, ?_⟩) }
    simp only [Core.lower, Function.update_self]
    exact (min_le_right _ _).trans hnum.ge
  · next hmem =>
    refine { h with laid := h.laid.advance hchild (.inl ?_) }
    exact ((h.numbered child).mp (by simp [hindex])).resolve_left hmem

/-- A scan takes the edges it goes over into account, up to one to a node without a number. -/
theorem scan_kept (targets : List N) :
    ∀ (position : ℕ) (s : Core N), Kept adj nodes earlier base s ((node, position) :: work) →
      (adj node).drop position = targets →
      (scan node targets position s).2.index = s.index ∧
      match scan node targets position s with
      | (none, s') => Kept adj nodes earlier base s' ((node, (adj node).length) :: work)
      | (some (child, next), s') => ∃ q, next = q + 1 ∧ (adj node)[q]? = some child ∧
          s'.index child = none ∧ Kept adj nodes earlier base s' ((node, q) :: work) := by
  induction targets with
  | nil =>
    intro position s h hdrop
    exact ⟨rfl, { h with laid := h.laid.full (List.drop_eq_nil_iff.mp hdrop) }⟩
  | cons child rest ih =>
    intro position s h hdrop
    have hchild : (adj node)[position]? = some child := by
      rw [← List.head?_drop, hdrop, List.head?_cons]
    have hrest : (adj node).drop (position + 1) = rest := by
      rw [← List.tail_drop, hdrop, List.tail_cons]
    cases hindex : s.index child with
    | none =>
      simp only [scan, hindex]
      exact ⟨trivial, position, rfl, hchild, trivial, h⟩
    | some number =>
      have hkept := h.follow hchild hindex
      simp only [scan, hindex]
      split at hkept
      · next hmem =>
        rw [if_pos hmem]
        exact ih (position + 1) _ hkept hrest
      · next hmem =>
        rw [if_neg hmem]
        exact ih (position + 1) _ hkept hrest

theorem Kept.of_number (h : Kept adj nodes earlier base s work) (hnew : s.index child = none) :
    child ∉ s.stack ∧ (∀ x ∈ s.stack, (s.number child).num x = s.num x) ∧
      ∀ x ∈ s.stack, (s.number child).link x = s.link x := by
  have hfresh : child ∉ s.stack := fun hmem => by
    simpa [hnew] using (h.numbered child).mpr (.inl hmem)
  have hne : ∀ x ∈ s.stack, x ≠ child := fun x hx heq => hfresh (heq ▸ hx)
  refine ⟨hfresh, fun x hx => ?_, fun x hx => ?_⟩
  · simp [Core.num, Core.number, Function.update_of_ne (hne x hx)]
  · simp [Core.number, Function.update_of_ne (hne x hx)]

theorem Kept.laid_number (h : Kept adj nodes earlier base s work) (hnew : s.index child = none) :
    Laid adj (s.number child) work s.stack := by
  obtain ⟨-, hnum, hlink⟩ := h.of_number hnew
  refine h.laid.mono fun n hn target hbehind => ?_
  refine hbehind.imp_right fun hin => ⟨List.mem_cons_of_mem _ hin.1, ?_⟩
  rw [hlink n hn, hnum target hin.1]
  exact hin.2

/-- A node is numbered: it stands on top, with no edge behind it. -/
theorem Kept.number (h : Kept adj nodes earlier base s work) (hnew : s.index child = none)
    (hchild : child ∈ nodes) (hbase : work = [] → base = s.counter) :
    Kept adj nodes (child :: earlier) base (s.number child) ((child, 0) :: work) := by
  obtain ⟨hfresh, hnum, hlink⟩ := h.of_number hnew
  have hself : (s.number child).num child = s.counter := by simp [Core.num, Core.number]
  have hlinkself : (s.number child).link child = s.counter := by simp [Core.number]
  have hle : base ≤ s.counter := by
    cases hw : work with
    | nil => exact (hbase hw).le
    | cons frame work' =>
      have hmem : frame.1 ∈ s.stack := h.laid.mem_stack (hw ▸ List.mem_cons_self)
      obtain ⟨-, hle, hlink, hcount⟩ := h.each _ hmem
      omega
  constructor
  · exact .cons [] (h.laid_number hnew) (by simp) (by simp)
  · exact h.closed
  · intro x
    by_cases hx : x = child
    · subst hx
      simp [Core.number]
    · simp [Core.number, hx, h.numbered x]
  · refine List.pairwise_cons.mpr ⟨fun x hx => ?_, h.descending.imp_of_mem fun hx hy hlt => ?_⟩
    · rw [hnum x hx, hself]
      exact (h.each x hx).2.2.2
    · rwa [hnum _ hx, hnum _ hy]
  · intro x hx
    rcases List.mem_cons.mp hx with rfl | hx
    · rw [hself, hlinkself]
      exact ⟨hchild, hle, le_rfl, Nat.lt_succ_self _⟩
    · rw [hnum x hx, hlink x hx]
      obtain ⟨hnode, hlow, hhigh, hcount⟩ := h.each x hx
      exact ⟨hnode, hlow, hhigh, hcount.trans (Nat.lt_succ_self _)⟩
  · intro x hx
    cases hw : work with
    | nil =>
      have hempty : s.stack = [] := by
        have hlaid := h.laid
        rw [hw] at hlaid
        generalize s.stack = stack at hlaid
        cases hlaid
        rfl
      simp only [Core.number, hempty, List.getLast?_singleton, Option.some.injEq] at hx
      rw [← hx, hself, hbase hw]
    | cons frame work' =>
      have hmem : frame.1 ∈ s.stack := h.laid.mem_stack (hw ▸ List.mem_cons_self)
      have hlast : s.stack.getLast? = some x := by
        cases hs : s.stack with
        | nil => simp [hs] at hmem
        | cons top below => simpa [Core.number, hs, List.getLast?_cons_cons] using hx
      rw [hnum x (List.mem_of_getLast? hlast)]
      exact h.bottom x hlast
  · intro x hx
    by_cases heq : x = child
    · subst heq
      simp [Core.number]
    · simpa [Core.number, Function.update_of_ne heq] using
        h.since x ((List.mem_cons.mp hx).resolve_left heq)

/-- The edge to the node entered next is behind the one it is entered from. -/
theorem Kept.enter (h : Kept adj nodes earlier base s ((node, position) :: work))
    (hget : (adj node)[position]? = some child) (hnew : s.index child = none)
    (hchild : child ∈ nodes) :
    Kept adj nodes earlier base (s.number child) ((child, 0) :: (node, position + 1) :: work) := by
  have hnumber := h.number hnew hchild fun hnil => by cases hnil
  have hmem : node ∈ s.stack := h.laid.mem_stack List.mem_cons_self
  refine { hnumber with
    laid := .cons [] ((h.laid_number hnew).advance hget (.inr ⟨List.mem_cons_self, ?_⟩))
      (by simp) (by simp)
    since := fun x hx => hnumber.since x (List.mem_cons_of_mem _ hx) }
  rw [(h.of_number hnew).2.2 node hmem]
  have hself : (s.number child).num child = s.counter := by simp [Core.num, Core.number]
  rw [hself]
  exact (h.each node hmem).2.2.1.trans (h.each node hmem).2.2.2.le

omit [DecidableEq N] in
theorem Laid.top (h : Laid adj s ((node, position) :: work) stack) :
    ∃ finished below, stack = finished ++ node :: below ∧ Laid adj s work below ∧
      (∀ u ∈ finished, ∀ target ∈ adj u, s.Behind node target) ∧
      ∀ target ∈ (adj node).take position, s.Behind node target := by
  cases h with
  | cons finished hbelow hfinished hbefore => exact ⟨finished, _, rfl, hbelow, hfinished, hbefore⟩

theorem popTo_append {finished below : List N} (h : node ∉ finished) :
    popTo node (finished ++ node :: below) = (finished ++ [node], below) := by
  induction finished with
  | nil => simp [popTo]
  | cons member rest ih =>
    have hne : member ≠ node := fun heq => h (by simp [heq])
    simp [popTo, hne, ih fun hmem => h (List.mem_cons_of_mem _ hmem)]

/-- The component of a root leaves the stack: what the edges from it lead to and is still on
the stack has no number below that of the root. -/
theorem Kept.close_root
    (h : Kept adj nodes earlier base s ((node, (adj node).length) :: work))
    (hroot : s.index node = some (s.link node)) :
    Kept adj nodes earlier base (s.close node) work ∧ (s.close node).link = s.link := by
  obtain ⟨finished, below, hstack, hlaid, hfinished, hbefore⟩ := h.laid.top
  have hdesc := h.descending
  rw [hstack, List.pairwise_append, List.pairwise_cons] at hdesc
  obtain ⟨hdesc, ⟨hbelow, hsorted⟩, habove⟩ := hdesc
  have hnot : node ∉ finished := fun hmem =>
    absurd (habove node hmem node List.mem_cons_self) (lt_irrefl _)
  have hclose : s.close node = { s with
      stack := below, components := s.components ++ [finished ++ [node]] } := by
    rw [Core.close, if_pos hroot, hstack, popTo_append hnot]
  have hedges : ∀ target, s.Behind node target →
      target ∈ s.components.flatten ∨ target ∈ finished ++ [node] := by
    intro target hbehind
    refine hbehind.imp_right fun hin => ?_
    have hle : s.num node ≤ s.num target := (num_eq hroot).le.trans hin.2
    rw [hstack] at hin
    rcases List.mem_append.mp hin.1 with hmem | hmem
    · simp [hmem]
    · rcases List.mem_cons.mp hmem with rfl | hmem
      · simp
      · exact absurd (hbelow target hmem) (by omega)
  have hsub : ∀ x ∈ below, x ∈ s.stack := fun x hx => by simp [hstack, hx]
  rw [hclose]
  refine ⟨⟨?_, ?_, ?_, hsorted, fun x hx => h.each x (hsub x hx), ?_, h.since⟩, rfl⟩
  · refine hlaid.mono fun n _ target hbehind => ?_
    rcases hbehind with hmem | ⟨hmem, hle⟩
    · exact .inl (by simp [List.mem_flatten.mp hmem])
    · rw [hstack] at hmem
      rcases List.mem_append.mp hmem with hmem | hmem
      · exact .inl (by simp [hmem])
      · rcases List.mem_cons.mp hmem with rfl | hmem
        · exact .inl (by simp)
        · exact .inr ⟨hmem, hle⟩
  · refine .snoc h.closed fun u hu target htarget => hedges target ?_
    rcases List.mem_append.mp hu with hu | hu
    · exact hfinished u hu target htarget
    · cases List.mem_singleton.mp hu
      exact hbefore target (by rwa [List.take_length])
  · intro x
    rw [h.numbered x, hstack]
    simp only [List.mem_append, List.mem_cons, List.flatten_append, List.flatten_cons,
      List.flatten_nil, List.append_nil, List.not_mem_nil, or_false]
    tauto
  · intro x hx
    refine h.bottom x ?_
    rw [hstack, List.getLast?_append, List.getLast?_cons, hx]
    rfl

/-- A node with all its edges behind it leaves the work list. -/
theorem Kept.finish (h : Kept adj nodes earlier base s ((node, (adj node).length) :: work)) :
    (finish s node work).work = work ∧ (finish s node work).core.index = s.index ∧
      Kept adj nodes earlier base (finish s node work).core work := by
  have hmem : node ∈ s.stack := h.laid.mem_stack List.mem_cons_self
  have hindex : (s.close node).index = s.index := by
    unfold Core.close
    split <;> rfl
  by_cases hroot : s.index node = some (s.link node)
  · obtain ⟨hkept, hlink⟩ := h.close_root hroot
    cases work with
    | nil => exact ⟨rfl, hindex, hkept⟩
    | cons frame work =>
      refine ⟨rfl, hindex, hkept.lower ?_⟩
      rw [hlink]
      exact (h.each node hmem).2.1
  · have hclose : s.close node = s := by rw [Core.close, if_neg hroot]
    obtain ⟨finished, below, hstack, hlaid, hfinished, hbefore⟩ := h.laid.top
    cases work with
    | nil =>
      -- the node at the bottom is a root, as no link is below its number
      cases hlaid
      have hbottom := h.bottom node (by simp [hstack])
      obtain ⟨i, hi⟩ := Option.isSome_iff_exists.mp ((h.numbered node).mpr (.inl hmem))
      have hnum := num_eq hi
      obtain ⟨-, hbase, hle, -⟩ := h.each node hmem
      exact absurd (hi.trans (congrArg some (by omega))) hroot
    | cons frame work =>
      obtain ⟨parent, position⟩ := frame
      have hkept : Kept adj nodes earlier base (s.lower parent (s.link node)) _ :=
        h.lower (h.each node hmem).2.1
      obtain ⟨rest, below', hbelow, hlaid', hrest, hparent⟩ := hlaid.top
      have hlower : ∀ target, s.Behind node target →
          (s.lower parent (s.link node)).Behind parent target := by
        intro target hbehind
        refine hbehind.imp_right fun hin => ⟨hin.1, ?_⟩
        simp only [Core.lower, Function.update_self]
        exact (min_le_right _ _).trans hin.2
      have hlower' : ∀ n target, s.Behind n target →
          (s.lower parent (s.link node)).Behind n target := by
        intro n target hbehind
        exact hbehind.imp_right fun hin => ⟨hin.1, (link_lower n).trans hin.2⟩
      rw [Components.finish, hclose]
      refine ⟨rfl, rfl, { hkept with laid := ?_ }⟩
      have hlaid'' : Laid adj (s.lower parent (s.link node)) ((parent, position) :: work)
          ((finished ++ node :: rest) ++ parent :: below') := by
        refine .cons _ (hlaid'.mono fun n _ => hlower' n) ?_
          fun target htarget => hlower' _ _ (hparent target htarget)
        intro u hu target htarget
        rcases List.mem_append.mp hu with hu | hu
        · exact hlower _ (hfinished u hu target htarget)
        · rcases List.mem_cons.mp hu with rfl | hu
          · exact hlower _ (hbefore target (by rwa [List.take_length]))
          · exact hlower' _ _ (hrest u hu target htarget)
      change Laid adj _ _ s.stack
      simpa [hstack, hbelow] using hlaid''

/-- The state a round works on: a node met for the first time is numbered first. -/
def Search.entered (s : Search N) : Core N :=
  match s.work with
  | (node, 0) :: _ => s.core.number node
  | _ => s.core

/-- What holds of a walk: a node in the work list with no edge behind it stands on top and
has no number yet. -/
structure Walks (adj : N → List N) (nodes earlier : List N) (base : ℕ) (s : Search N) :
    Prop where
  kept : Kept adj nodes earlier base s.entered s.work
  resumed : ∀ frame ∈ s.work.tail, frame.2 ≠ 0

/-- The nodes without a number. -/
def Core.unseen (s : Core N) (nodes : List N) : ℕ := nodes.countP fun x => (s.index x).isNone

theorem unseen_number (hnew : s.index child = none) (hchild : child ∈ nodes) :
    (s.number child).unseen nodes < s.unseen nodes := by
  unfold Core.unseen
  induction nodes with
  | nil => cases hchild
  | cons x rest ih =>
    have hmono : rest.countP (fun x => ((s.number child).index x).isNone) ≤
        rest.countP (fun x => (s.index x).isNone) := by
      refine List.countP_mono_left fun y _ hy => ?_
      by_cases heq : y = child
      · simp [heq, hnew]
      · simpa [Core.number, Function.update_of_ne heq] using hy
    rw [List.countP_cons, List.countP_cons]
    by_cases hx : x = child
    · subst hx
      simp [Core.number, hnew] at hmono ⊢
      omega
    · have hlt := ih ((List.mem_cons.mp hchild).resolve_left (Ne.symm hx))
      simp only [Core.number, Function.update_of_ne hx] at hlt ⊢
      omega

/-- Rounds still to come: two for each node without a number, one for each in the work. -/
def Search.remaining (s : Search N) (nodes : List N) : ℕ :=
  2 * s.entered.unseen nodes + s.work.length

/-- One round keeps what holds of the walk, and is one of finitely many. -/
theorem Walks.step {s : Search N} (hclosed : ∀ n ∈ nodes, ∀ m ∈ adj n, m ∈ nodes)
    (h : Walks adj nodes earlier base s) (hwork : s.work ≠ []) :
    Walks adj nodes earlier base (step adj s) ∧
      (step adj s).remaining nodes < s.remaining nodes := by
  obtain ⟨core, work⟩ := s
  cases work with
  | nil => exact absurd rfl hwork
  | cons frame work =>
    obtain ⟨node, next⟩ := frame
    have hentered : (if next = 0 then core.number node else core) =
        Search.entered ⟨core, (node, next) :: work⟩ := by
      cases next <;> rfl
    have hkept := h.kept
    have hresumed := h.resumed
    simp only [Components.step, hentered]
    simp only [Search.remaining, List.tail_cons] at hresumed ⊢
    generalize Search.entered ⟨core, (node, next) :: work⟩ = entered at hkept
    obtain ⟨hindex, hscan⟩ := scan_kept _ next entered hkept rfl
    split
    · next child position core' hres =>
      rw [hres] at hscan hindex
      obtain ⟨q, rfl, hget, hnew, hkept'⟩ := hscan
      have hnode : node ∈ nodes := (hkept'.each node (hkept'.laid.mem_stack List.mem_cons_self)).1
      have hchild : child ∈ nodes := hclosed node hnode child (List.mem_of_getElem? hget)
      have hlt := unseen_number hnew hchild
      rw [Core.unseen, Core.unseen, hindex] at hlt
      refine ⟨⟨hkept'.enter hget hnew hchild, ?_⟩, ?_⟩
      · intro frame hframe
        rcases List.mem_cons.mp hframe with rfl | hframe
        · exact Nat.succ_ne_zero q
        · exact hresumed frame hframe
      · simp only [Search.entered, Core.unseen, List.length_cons]
        omega
    · next core' hres =>
      rw [hres] at hscan hindex
      obtain ⟨hwork', hindex', hkept'⟩ := hscan.finish
      have hleft : (finish core' node work).entered = (finish core' node work).core := by
        rw [Search.entered, hwork']
        cases work with
        | nil => rfl
        | cons frame rest =>
          obtain ⟨parent, position⟩ := frame
          cases position with
          | zero => exact absurd rfl (hresumed _ List.mem_cons_self)
          | succ => rfl
      refine ⟨⟨?_, ?_⟩, ?_⟩
      · rw [hleft, hwork']
        exact hkept'
      · rw [hwork']
        exact fun frame hframe => hresumed frame (List.mem_of_mem_tail hframe)
      · rw [hleft, hwork', Core.unseen, Core.unseen, hindex', hindex, List.length_cons]
        omega

/-- A walk with rounds enough comes to its end. -/
theorem Walks.walk (hclosed : ∀ n ∈ nodes, ∀ m ∈ adj n, m ∈ nodes) (fuel : ℕ) :
    ∀ s : Search N, Walks adj nodes earlier base s → s.remaining nodes ≤ fuel →
      Kept adj nodes earlier base (walk adj fuel s).core [] := by
  induction fuel with
  | zero =>
    intro s h hfuel
    have hwork : s.work = [] := List.length_eq_zero_iff.mp (by
      simp only [Search.remaining] at hfuel
      omega)
    have hkept := h.kept
    simpa [Components.walk, Search.entered, hwork] using hkept
  | succ fuel ih =>
    intro s h hfuel
    rw [Components.walk]
    split
    · next hwork =>
      have hkept := h.kept
      simpa [Search.entered, hwork] using hkept
    · next hwork =>
      obtain ⟨hstep, hlt⟩ := h.step hclosed hwork
      exact ih _ hstep (by omega)

omit [DecidableEq N] in
theorem Kept.stack_eq_nil (h : Kept adj nodes earlier base s []) : s.stack = [] := by
  have hlaid := h.laid
  generalize s.stack = stack at hlaid
  cases hlaid
  rfl

/-- With nothing on the stack, the walk from a root numbers it and leaves nothing there. -/
theorem Kept.visit (hclosed : ∀ n ∈ nodes, ∀ m ∈ adj n, m ∈ nodes)
    (h : Kept adj nodes earlier base s []) (hroot : node ∈ nodes) :
    ∃ base', Kept adj nodes (node :: earlier) base' (visit adj (2 * nodes.length) s node) [] := by
  unfold Components.visit
  split
  · next hseen =>
    exact ⟨base, { h with since := List.forall_mem_cons.mpr ⟨hseen, h.since⟩ }⟩
  · next hseen =>
    have hnew : s.index node = none := by simpa using hseen
    have hempty := h.stack_eq_nil
    have hkept : Kept adj nodes earlier s.counter s [] :=
      { h with each := by simp [hempty], bottom := by simp [hempty] }
    have hlt := unseen_number hnew hroot
    have hall : s.unseen nodes ≤ nodes.length := List.countP_le_length
    refine ⟨s.counter, Walks.walk hclosed _ _ ⟨hkept.number hnew hroot fun _ => rfl, by simp⟩ ?_⟩
    simp only [Search.remaining, Search.entered, List.length_singleton]
    omega

/-- Every node is in a component, and the edges of a component lead into it or into one
closed before it. -/
theorem components_spec (hclosed : ∀ n ∈ nodes, ∀ m ∈ adj n, m ∈ nodes) :
    Closed adj (components adj nodes) ∧ ∀ n ∈ nodes, n ∈ (components adj nodes).flatten := by
  have hrun : ∀ roots : List N, (∀ n ∈ roots, n ∈ nodes) → ∀ s earlier base,
      Kept adj nodes earlier base s [] → ∃ base', Kept adj nodes (roots.reverse ++ earlier) base'
        (roots.foldl (visit adj (2 * nodes.length)) s) [] := by
    intro roots
    induction roots with
    | nil => exact fun _ s earlier base h => ⟨base, h⟩
    | cons root rest ih =>
      intro hroots s earlier base h
      obtain ⟨base', hvisit⟩ := h.visit hclosed (hroots root List.mem_cons_self)
      obtain ⟨base'', hrest⟩ := ih (fun n hn => hroots n (List.mem_cons_of_mem _ hn)) _ _ _ hvisit
      exact ⟨base'', by simpa using hrest⟩
  have hinitial : Kept adj nodes [] 0 (Core.initial : Core N) [] := by
    constructor <;> simp [Core.initial]
    · exact .nil
    · exact .nil
  obtain ⟨base, hkept⟩ := hrun nodes (fun _ hn => hn) _ _ _ hinitial
  refine ⟨hkept.closed, fun n hn => ?_⟩
  have hseen := hkept.since n (by simp [hn])
  have hmem := (hkept.numbered n).mp hseen
  rw [hkept.stack_eq_nil] at hmem
  exact hmem.resolve_left List.not_mem_nil

omit [DecidableEq N] in
theorem Closed.edge {comps : List (List N)} (h : Closed adj comps) (hnode : node ∈ comps.flatten)
    (htarget : target ∈ adj node) : target ∈ comps.flatten := by
  induction h with
  | nil => cases hnode
  | snoc _ hedges ih =>
    rw [List.flatten_append, List.mem_append] at hnode ⊢
    simp only [List.flatten_cons, List.flatten_nil, List.append_nil] at hnode ⊢
    rcases hnode with hnode | hnode
    · exact .inl (ih hnode)
    · exact hedges node hnode target htarget

omit [DecidableEq N] in
theorem Closed.reaches {comps : List (List N)} (h : Closed adj comps) {a b : N}
    (hreach : Relation.ReflTransGen (fun x y => y ∈ adj x) a b) (ha : a ∈ comps.flatten) :
    b ∈ comps.flatten := by
  induction hreach with
  | refl => exact ha
  | tail _ hedge ih => exact h.edge ih hedge

omit [DecidableEq N] in
/-- Nodes that reach each other are in one component. -/
theorem Closed.together {comps : List (List N)} (h : Closed adj comps) {a b : N}
    (hab : Relation.ReflTransGen (fun x y => y ∈ adj x) a b)
    (hba : Relation.ReflTransGen (fun x y => y ∈ adj x) b a) (ha : a ∈ comps.flatten) :
    ∃ component ∈ comps, a ∈ component ∧ b ∈ component := by
  have hb := h.reaches hab ha
  induction h with
  | nil => cases ha
  | @snoc before component hbefore _ ih =>
    by_cases hin : a ∈ before.flatten
    · obtain ⟨c, hc, hboth⟩ := ih hin (hbefore.reaches hab hin)
      exact ⟨c, by simp [hc], hboth⟩
    · have hout : b ∉ before.flatten := fun hmem => hin (hbefore.reaches hba hmem)
      rw [List.flatten_append, List.mem_append] at ha hb
      simp only [List.flatten_cons, List.flatten_nil, List.append_nil] at ha hb
      exact ⟨component, by simp, ha.resolve_left hin, hb.resolve_left hout⟩

end

end Components
