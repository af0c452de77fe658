import Mathlib.Data.Finset.Card
import Mathlib.Logic.Function.Basic
import Mathlib.Logic.Relation

/-!
# Depth-first walks cut off by a label

A walk keeps an explicit stack, colours its nodes, and gives up an edge as soon as
the label of its target is already that of a node on the stack. The edges given up
are recorded. When the nodes with outgoing edges carry finitely many labels the walk
ends, however many nodes there are. A walk that gave no edge up leaves no infinite
chain from any of its starts, and an edge given up closes a chain from a start that
meets one label twice.
-/
namespace DepthFirst
variable {Node Edge Label : Type}

/-- What is walked: the edges leaving a node, in order, where each leads, and what
a node is known by. -/
structure Graph (Node Edge Label : Type) where
  edges : Node → List Edge
  target : Edge → Node
  label : Node → Label

inductive Color where
  | white
  | gray
  | black
  deriving DecidableEq

/-- A node being explored: the edge that led to it and its edges not yet followed. -/
structure Frame (Node Edge : Type) where
  node : Node
  incoming : Option Edge
  rest : List Edge

/-- An edge given up, under the stack it was found on. -/
structure Closing (Node Edge : Type) where
  stack : List (Frame Node Edge)
  edge : Edge

structure Search (Node Edge : Type) where
  color : Node → Color
  /-- The frames of the active path, the innermost first. -/
  stack : List (Frame Node Edge)
  closings : List (Closing Node Edge)

def Search.initial : Search Node Edge := ⟨fun _ => .white, [], []⟩

namespace Graph
variable (g : Graph Node Edge Label)

/-- `m` is led to by an edge leaving `n`. -/
def Leads (n m : Node) : Prop := ∃ e ∈ g.edges n, g.target e = m

/-- No infinite chain of edges begins at `n`. -/
def Finishes (n : Node) : Prop := Acc (fun m n => g.Leads n m) n

/-- A chain of edges from `n` meets a label twice. -/
def Revisits (n : Node) : Prop :=
  ∃ a b, Relation.ReflTransGen g.Leads n a ∧ Relation.TransGen g.Leads a b ∧ g.label a = g.label b

def frame (n : Node) (incoming : Option Edge) : Frame Node Edge := ⟨n, incoming, g.edges n⟩

variable [DecidableEq Node] [DecidableEq Label]

def onPath (n : Node) (stack : List (Frame Node Edge)) : Bool :=
  stack.any fun f => g.label f.node = g.label n

/-- One step: the innermost frame is done, gives an edge up, is left for a node not
seen before, or skips a node already finished. -/
def step (s : Search Node Edge) : Search Node Edge :=
  match s.stack with
  | [] => s
  | f :: below =>
    match f.rest with
    | [] => { s with color := Function.update s.color f.node .black, stack := below }
    | e :: rest =>
      let here := { f with rest } :: below
      if g.onPath (g.target e) here then
        { s with stack := here, closings := s.closings ++ [⟨here, e⟩] }
      else match s.color (g.target e) with
        | .white =>
          { s with
            color := Function.update s.color (g.target e) .gray,
            stack := g.frame (g.target e) (some e) :: here }
        | _ => { s with stack := here }

/-- Steps until the stack is empty. -/
def walk : ℕ → Search Node Edge → Option (Search Node Edge)
  | n, s =>
    if s.stack.isEmpty then some s
    else match n with
      | 0 => none
      | n + 1 => walk n (g.step s)

/-- The walk from one start, unless it was met before. -/
def visit (fuel : ℕ) (s : Search Node Edge) (start : Node) : Option (Search Node Edge) :=
  if s.color start = .white then
    g.walk fuel
      { s with color := Function.update s.color start .gray, stack := [g.frame start none] }
  else some s

def search (fuel : ℕ) (starts : List Node) : Option (Search Node Edge) :=
  starts.foldlM (g.visit fuel) .initial

/-- What one step may do to the innermost frame `f` of a stack over `below`. -/
inductive Moves (s : Search Node Edge) (f : Frame Node Edge) (below : List (Frame Node Edge)) :
    Search Node Edge → Prop
  | pop : f.rest = [] →
      Moves s f below ⟨Function.update s.color f.node .black, below, s.closings⟩
  | close (e : Edge) (rest : List Edge) : f.rest = e :: rest →
      g.onPath (g.target e) ({ f with rest } :: below) = true →
      Moves s f below
        ⟨s.color, { f with rest } :: below, s.closings ++ [⟨{ f with rest } :: below, e⟩]⟩
  | push (e : Edge) (rest : List Edge) : f.rest = e :: rest →
      g.onPath (g.target e) ({ f with rest } :: below) = false → s.color (g.target e) = .white →
      Moves s f below ⟨Function.update s.color (g.target e) .gray,
        g.frame (g.target e) (some e) :: { f with rest } :: below, s.closings⟩
  | skip (e : Edge) (rest : List Edge) : f.rest = e :: rest →
      g.onPath (g.target e) ({ f with rest } :: below) = false → s.color (g.target e) ≠ .white →
      Moves s f below ⟨s.color, { f with rest } :: below, s.closings⟩

theorem moves_step {s : Search Node Edge} {f : Frame Node Edge} {below : List (Frame Node Edge)}
    (hs : s.stack = f :: below) : g.Moves s f below (g.step s) := by
  cases hrest : f.rest with
  | nil =>
    have hstep : g.step s = ⟨Function.update s.color f.node .black, below, s.closings⟩ := by
      simp only [step, hs, hrest]
    exact hstep ▸ .pop hrest
  | cons e rest =>
    cases hpath : g.onPath (g.target e) ({ f with rest } :: below) with
    | true =>
      have hstep : g.step s =
          ⟨s.color, { f with rest } :: below, s.closings ++ [⟨{ f with rest } :: below, e⟩]⟩ := by
        simp only [step, hs, hrest, hpath, if_true]
      exact hstep ▸ .close e rest hrest hpath
    | false =>
      by_cases hcolor : s.color (g.target e) = .white
      · have hstep : g.step s = ⟨Function.update s.color (g.target e) .gray,
            g.frame (g.target e) (some e) :: { f with rest } :: below, s.closings⟩ := by
          simp only [step, hs, hrest, hpath, hcolor, Bool.false_eq_true, if_false]
        exact hstep ▸ .push e rest hrest hpath hcolor
      · have hstep : g.step s = ⟨s.color, { f with rest } :: below, s.closings⟩ := by
          simp only [step, hs, hrest, hpath, Bool.false_eq_true, if_false]
        exact hstep ▸ .skip e rest hrest hpath hcolor

/-! ### Walks end -/

omit [DecidableEq Node] in
private theorem missing_lt {labels : Finset Label} {n : Node}
    {stack : List (Frame Node Edge)} (hmem : g.label n ∈ labels)
    (hpath : g.onPath n stack = false) {f : Frame Node Edge} (hf : f.node = n) :
    (labels.filter fun l => ∀ k ∈ f :: stack, g.label k.node ≠ l).card <
      (labels.filter fun l => ∀ k ∈ stack, g.label k.node ≠ l).card := by
  have hfresh : ∀ k ∈ stack, g.label k.node ≠ g.label n := by simpa [onPath] using hpath
  apply Finset.card_lt_card
  constructor
  · intro l hl
    have h := Finset.mem_filter.mp hl
    exact Finset.mem_filter.mpr ⟨h.1, fun k hk => h.2 k (List.mem_cons_of_mem _ hk)⟩
  · intro hsub
    have h := hsub (Finset.mem_filter.mpr ⟨hmem, hfresh⟩)
    have hne := (Finset.mem_filter.mp h).2 f List.mem_cons_self
    exact hne (by rw [hf])

variable {g}

theorem step_stack_of_rest_nil {s : Search Node Edge} {f : Frame Node Edge}
    {below : List (Frame Node Edge)} (hs : s.stack = f :: below) (hrest : f.rest = []) :
    (g.step s).stack = below := by
  simp only [step, hs, hrest]

/-- Every frame is popped in the end, by induction on the labels not on the stack
and within it on the edges the frame has left. -/
theorem exists_popped {labels : Finset Label}
    (hlabels : ∀ n, g.edges n ≠ [] → g.label n ∈ labels) (s : Search Node Edge)
    (f : Frame Node Edge) (below : List (Frame Node Edge)) (hs : s.stack = f :: below) :
    ∃ n, (g.step^[n] s).stack = below := by
  generalize hd : (labels.filter fun l => ∀ k ∈ f :: below, g.label k.node ≠ l).card = d
  induction d using Nat.strong_induction_on generalizing s f below with
  | _ d outer =>
    generalize hedges : f.rest = edges
    induction edges generalizing s f with
    | nil =>
      exact ⟨1, step_stack_of_rest_nil hs hedges⟩
    | cons e rest inner =>
      have again : ∀ t : Search Node Edge, t.stack = { f with rest } :: below →
          ∃ n, (g.step^[n] t).stack = below := fun t ht =>
        inner t { f with rest } ht (by simpa using hd) rfl
      suffices hpopped : ∃ n, (g.step^[n] (g.step s)).stack = { f with rest } :: below by
        have ⟨n, hn⟩ := hpopped
        have ⟨m, hm⟩ := again _ hn
        refine ⟨m + n + 1, ?_⟩
        rw [Function.iterate_succ_apply, Function.iterate_add_apply]
        exact hm
      have hmoves := g.moves_step hs
      generalize g.step s = t at hmoves
      cases hmoves with
      | pop h => simp [hedges] at h
      | close e' rest' h | skip e' rest' h =>
        have heq : e = e' ∧ rest = rest' := by simpa [hedges] using h
        exact ⟨0, by rw [heq.2]; rfl⟩
      | push e' rest' h hpath =>
        have heq : e = e' ∧ rest = rest' := by simpa [hedges] using h
        rw [heq.2]
        -- The pushed frame is popped at once, or its label is one fewer to meet.
        by_cases hnone : g.edges (g.target e') = []
        · have hrest : (g.frame (g.target e') (some e')).rest = [] := hnone
          refine ⟨1, ?_⟩
          rw [Function.iterate_one]
          exact step_stack_of_rest_nil rfl hrest
        · apply outer _ _ _ _ _ rfl rfl
          have hlt := missing_lt g (hlabels _ hnone) hpath
            (f := g.frame (g.target e') (some e')) rfl
          have hsame : (labels.filter fun l =>
              ∀ k ∈ { f with rest := rest' } :: below, g.label k.node ≠ l).card = d := by
            simpa using hd
          omega

theorem walk_of_stack {s : Search Node Edge} {n : ℕ} (h : (g.step^[n] s).stack = []) :
    ∃ t, g.walk n s = some t := by
  induction n generalizing s with
  | zero =>
    have hs : s.stack = [] := h
    exact ⟨s, by simp [walk, hs]⟩
  | succ n ih =>
    unfold walk
    split
    · exact ⟨s, rfl⟩
    · exact ih (by simpa using h)

theorem walk_mono {s t : Search Node Edge} {n m : ℕ} (hle : n ≤ m) (h : g.walk n s = some t) :
    g.walk m s = some t := by
  induction n generalizing s m with
  | zero =>
    unfold walk at h ⊢
    split at h
    · rename_i hs
      simpa [hs] using h
    · exact absurd h (by simp)
  | succ n ih =>
    obtain ⟨m, rfl⟩ : ∃ k, m = k + 1 := ⟨m - 1, by omega⟩
    unfold walk at h ⊢
    split at h
    · rename_i hs
      simpa [hs] using h
    · rename_i hs
      simp only [hs, Bool.false_eq_true, if_false]
      exact ih (by omega) h

theorem exists_walk {labels : Finset Label}
    (hlabels : ∀ n, g.edges n ≠ [] → g.label n ∈ labels) (s : Search Node Edge) :
    ∃ n t, g.walk n s = some t := by
  generalize hstack : s.stack = stack
  have hempty : ∃ n, (g.step^[n] s).stack = [] := by
    induction stack generalizing s with
    | nil => exact ⟨0, hstack⟩
    | cons f below ih =>
      have ⟨n, hn⟩ := exists_popped hlabels s f below hstack
      have ⟨m, hm⟩ := ih _ hn
      refine ⟨m + n, ?_⟩
      rw [Function.iterate_add_apply]
      exact hm
  have ⟨n, hn⟩ := hempty
  exact ⟨n, walk_of_stack hn⟩

theorem visit_mono {s t : Search Node Edge} {start : Node} {n m : ℕ} (hle : n ≤ m)
    (h : g.visit n s start = some t) : g.visit m s start = some t := by
  unfold visit at h ⊢
  split at h
  · rename_i hwhite
    rw [if_pos hwhite]
    exact walk_mono hle h
  · rename_i hwhite
    rwa [if_neg hwhite]

theorem foldlM_visit_mono {starts : List Node} {s t : Search Node Edge} {n m : ℕ} (hle : n ≤ m)
    (h : starts.foldlM (g.visit n) s = some t) : starts.foldlM (g.visit m) s = some t := by
  induction starts generalizing s with
  | nil => exact h
  | cons start starts ih =>
    rw [List.foldlM_cons] at h ⊢
    have ⟨u, hu, ht⟩ := Option.bind_eq_some_iff.mp h
    exact Option.bind_eq_some_iff.mpr ⟨u, visit_mono hle hu, ih ht⟩

theorem search_mono {starts : List Node} {t : Search Node Edge} {n m : ℕ} (hle : n ≤ m)
    (h : g.search n starts = some t) : g.search m starts = some t :=
  foldlM_visit_mono hle h

theorem exists_search {labels : Finset Label}
    (hlabels : ∀ n, g.edges n ≠ [] → g.label n ∈ labels) (starts : List Node) :
    ∃ n t, g.search n starts = some t := by
  have hfold : ∀ s, ∃ n t, starts.foldlM (g.visit n) s = some t := by
    induction starts with
    | nil => exact fun s => ⟨0, s, rfl⟩
    | cons start starts ih =>
      intro s
      have hvisit : ∃ n u, g.visit n s start = some u := by
        unfold visit
        split
        · exact exists_walk hlabels _
        · exact ⟨0, s, rfl⟩
      have ⟨n, u, hu⟩ := hvisit
      have ⟨m, t, ht⟩ := ih u
      refine ⟨max n m, t, ?_⟩
      rw [List.foldlM_cons]
      exact Option.bind_eq_some_iff.mpr
        ⟨u, visit_mono (Nat.le_max_left n m) hu, foldlM_visit_mono (Nat.le_max_right n m) ht⟩
  exact hfold _

/-! ### What is kept by a search -/

theorem walk_induction {P : Search Node Edge → Prop}
    (hstep : ∀ s t f below, s.stack = f :: below → g.Moves s f below t → P s → P t)
    {s t : Search Node Edge} {n : ℕ} (h : g.walk n s = some t) (hs : P s) :
    P t ∧ t.stack = [] := by
  induction n generalizing s with
  | zero =>
    unfold walk at h
    split at h
    · rename_i hempty
      cases h
      exact ⟨hs, by simpa using hempty⟩
    · exact absurd h (by simp)
  | succ n ih =>
    unfold walk at h
    split at h
    · rename_i hempty
      cases h
      exact ⟨hs, by simpa using hempty⟩
    · apply ih h
      cases hstack : s.stack with
      | nil => rwa [step, hstack]
      | cons f below => exact hstep s _ f below hstack (g.moves_step hstack) hs

/-- A property kept by every move and by every fresh start holds when the search
ends, and no start is left white. -/
theorem search_induction {P : Search Node Edge → Prop} {starts : List Node}
    (hinit : P .initial)
    (hstart : ∀ s, ∀ start ∈ starts, s.stack = [] → P s → s.color start = .white →
      P ⟨Function.update s.color start .gray, [g.frame start none], s.closings⟩)
    (hstep : ∀ s t f below, s.stack = f :: below → g.Moves s f below t → P s → P t)
    {t : Search Node Edge} {n : ℕ} (h : g.search n starts = some t) :
    P t ∧ t.stack = [] ∧ ∀ start ∈ starts, t.color start ≠ .white := by
  have hcolor : ∀ m s t f below, s.stack = f :: below → g.Moves s f below t →
      s.color m ≠ .white → t.color m ≠ .white := by
    intro m s t f below _ hmoves hm
    cases hmoves with
    | pop | push =>
      simp only [Function.update_apply]
      split <;> simp [hm]
    | close | skip => exact hm
  have hfold : ∀ (met rest : List Node) (s : Search Node Edge), met ++ rest = starts →
      P s ∧ s.stack = [] ∧ (∀ start ∈ met, s.color start ≠ .white) →
      rest.foldlM (g.visit n) s = some t →
      P t ∧ t.stack = [] ∧ ∀ start ∈ starts, t.color start ≠ .white := by
    intro met rest
    induction rest generalizing met with
    | nil =>
      intro s hmet hs hfold
      rw [List.append_nil] at hmet
      cases hfold
      exact hmet ▸ hs
    | cons start rest ih =>
      intro s hmet hs hfold
      have ⟨hP, hempty, hseen⟩ := hs
      rw [List.foldlM_cons] at hfold
      have ⟨u, hu, ht⟩ := Option.bind_eq_some_iff.mp hfold
      apply ih (met ++ [start]) u (by simpa using hmet) _ ht
      unfold visit at hu
      split at hu
      · rename_i hwhite
        have hmem : start ∈ starts := by simp [← hmet]
        have hu' := walk_induction hstep hu (hstart s start hmem hempty hP hwhite)
        refine ⟨hu'.1, hu'.2, fun m hm => ?_⟩
        apply (walk_induction (hcolor m) hu _).1
        rcases List.mem_append.mp hm with hm | hm
        · simp only [Function.update_apply]
          split <;> simp [hseen m hm]
        · simp [List.mem_singleton.mp hm]
      · rename_i hwhite
        cases hu
        refine ⟨hP, hempty, fun m hm => ?_⟩
        rcases List.mem_append.mp hm with hm | hm
        · exact hseen m hm
        · rwa [List.mem_singleton.mp hm]
  exact hfold [] starts .initial rfl ⟨hinit, rfl, by simp⟩ h

/-! ### A walk that gave no edge up -/

/-- Every edge of every frame is still to be followed, or led to a finished node,
or led to the frame above. -/
def Settled (g : Graph Node Edge Label) (color : Node → Color) :
    Option Node → List (Frame Node Edge) → Prop
  | _, [] => True
  | above, f :: below =>
    (∀ e ∈ g.edges f.node,
      e ∈ f.rest ∨ color (g.target e) = .black ∨ some (g.target e) = above) ∧
      Settled g color (some f.node) below

omit [DecidableEq Node] [DecidableEq Label] in
theorem Settled.mono {color color' : Node → Color} {above above' : Option Node}
    {stack : List (Frame Node Edge)} (h : g.Settled color above stack)
    (hblack : ∀ n, color n = .black → color' n = .black)
    (habove : ∀ n, above = some n → above' = some n ∨ color' n = .black) :
    g.Settled color' above' stack := by
  induction stack generalizing above above' with
  | nil => trivial
  | cons f below ih =>
    refine ⟨fun e he => ?_, ih h.2 (fun n hn => .inl hn)⟩
    rcases h.1 e he with hrest | hdone | hup
    · exact .inl hrest
    · exact .inr (.inl (hblack _ hdone))
    · rcases habove _ hup.symm with hup | hdone
      · exact .inr (.inr hup.symm)
      · exact .inr (.inl hdone)

/-- A finished node finishes, and a node being explored is on the stack. -/
structure Sound (g : Graph Node Edge Label) (s : Search Node Edge) : Prop where
  black : ∀ n, s.color n = .black → g.Finishes n
  gray : ∀ n, s.color n = .gray → ∃ f ∈ s.stack, f.node = n
  settled : g.Settled s.color none s.stack

theorem Sound.moves {s t : Search Node Edge} {f : Frame Node Edge}
    {below : List (Frame Node Edge)} (h : g.Sound s) (hs : s.stack = f :: below)
    (hmoves : g.Moves s f below t) (hopen : t.closings = []) : g.Sound t := by
  have hsettled := h.settled
  rw [hs] at hsettled
  cases hmoves with
  | pop hrest =>
    have hfinishes : g.Finishes f.node := by
      refine Acc.intro _ fun m hm => ?_
      have ⟨e, he, htarget⟩ := hm
      rcases hsettled.1 e he with hin | hdone | hup
      · exact absurd hin (by simp [hrest])
      · exact htarget ▸ h.black _ hdone
      · exact absurd hup (by simp)
    have hblack : ∀ n, s.color n = .black →
        Function.update s.color f.node .black n = .black := by
      intro n hn
      simp only [Function.update_apply]
      split <;> simp [hn]
    refine ⟨fun n hn => ?_, fun n hn => ?_, hsettled.2.mono hblack fun n hn => .inr ?_⟩
    · by_cases heq : n = f.node
      · exact heq ▸ hfinishes
      · exact h.black n (by simpa [heq] using hn)
    · have hne : n ≠ f.node := fun heq => by simp [heq] at hn
      have ⟨k, hk, hnode⟩ := h.gray n (by simpa [hne] using hn)
      rw [hs] at hk
      rcases List.mem_cons.mp hk with heq | hk
      · exact absurd (hnode ▸ heq ▸ rfl) hne
      · exact ⟨k, hk, hnode⟩
    · simp [Option.some.inj hn]
  | close => exact absurd hopen (by simp)
  | push e rest hrest hpath hwhite =>
    have hblack : ∀ n, s.color n = .black →
        Function.update s.color (g.target e) .gray n = .black := by
      intro n hn
      have hne : n ≠ g.target e := fun heq => by simp [heq, hwhite] at hn
      simp [hne, hn]
    refine ⟨fun n hn => ?_, fun n hn => ?_, fun e' he' => .inl he', fun e' he' => ?_,
      hsettled.2.mono hblack fun n hn => .inl hn⟩
    · have hne : n ≠ g.target e := fun heq => by simp [heq] at hn
      exact h.black n (by simpa [hne] using hn)
    · by_cases heq : n = g.target e
      · exact ⟨_, List.mem_cons_self, heq.symm⟩
      · have ⟨k, hk, hnode⟩ := h.gray n (by simpa [heq] using hn)
        rw [hs] at hk
        rcases List.mem_cons.mp hk with hf | hk
        · exact ⟨{ f with rest }, by simp, hf ▸ hnode⟩
        · exact ⟨k, by simp [hk], hnode⟩
    · rcases hsettled.1 e' he' with hin | hdone | hup
      · rcases List.mem_cons.mp (hrest ▸ hin) with heq | hin
        · exact .inr (.inr (by rw [heq]; rfl))
        · exact .inl hin
      · exact .inr (.inl (hblack _ hdone))
      · exact absurd hup (by simp)
  | skip e rest hrest hpath hseen =>
    have hdone : s.color (g.target e) = .black := by
      cases hcolor : s.color (g.target e) with
      | white => exact absurd hcolor hseen
      | black => rfl
      | gray =>
        have ⟨k, hk, hnode⟩ := h.gray _ hcolor
        have hoff : ∀ k ∈ s.stack, g.label k.node ≠ g.label (g.target e) := by
          simpa [onPath, hs] using hpath
        exact absurd (by rw [hnode]) (hoff k hk)
    refine ⟨h.black, fun n hn => ?_, fun e' he' => ?_, hsettled.2⟩
    · have ⟨k, hk, hnode⟩ := h.gray n hn
      rw [hs] at hk
      rcases List.mem_cons.mp hk with hf | hk
      · exact ⟨{ f with rest }, by simp, hf ▸ hnode⟩
      · exact ⟨k, by simp [hk], hnode⟩
    · rcases hsettled.1 e' he' with hin | hblack | hup
      · rcases List.mem_cons.mp (hrest ▸ hin) with heq | hin
        · exact .inr (.inl (heq ▸ hdone))
        · exact .inl hin
      · exact .inr (.inl hblack)
      · exact .inr (.inr hup)

theorem search_finishes {starts : List Node} {t : Search Node Edge} {n : ℕ}
    (h : g.search n starts = some t) (hopen : t.closings = []) :
    ∀ start ∈ starts, g.Finishes start := by
  have hP := search_induction (P := fun s => s.closings = [] → g.Sound s)
    (fun _ => ⟨by simp [Search.initial], by simp [Search.initial], trivial⟩) ?_ ?_ h
  · have ⟨hsound, hempty, hmet⟩ := hP
    intro start hstart
    cases hcolor : t.color start with
    | white => exact absurd hcolor (hmet start hstart)
    | black => exact (hsound hopen).black start hcolor
    | gray =>
      have ⟨f, hf, _⟩ := (hsound hopen).gray start hcolor
      exact absurd hf (by simp [hempty])
  · intro s start _ hempty hs hwhite hopen
    have hsound := hs hopen
    refine ⟨fun n hn => ?_, fun n hn => ?_, fun e he => .inl he, trivial⟩
    · have hne : n ≠ start := fun heq => by simp [heq] at hn
      exact hsound.black n (by simpa [hne] using hn)
    · by_cases heq : n = start
      · exact ⟨_, List.mem_cons_self, heq.symm⟩
      · have ⟨f, hf, _⟩ := hsound.gray n (by simpa [heq] using hn)
        exact absurd hf (by simp [hempty])
  · intro s t f below hstack hmoves hs hopen
    apply Sound.moves (hs _) hstack hmoves hopen
    cases hmoves with
    | pop | push | skip => exact hopen
    | close => exact absurd hopen (by simp)

/-! ### An edge given up -/

/-- A stack whose frames lead from `start` each to the one above it. -/
inductive Linked (g : Graph Node Edge Label) (start : Node) : List (Frame Node Edge) → Prop
  | bottom (f : Frame Node Edge) : f.node = start → f.rest ⊆ g.edges f.node → Linked g start [f]
  | above (f k : Frame Node Edge) (below : List (Frame Node Edge)) :
      g.Leads k.node f.node → f.rest ⊆ g.edges f.node → Linked g start (k :: below) →
      Linked g start (f :: k :: below)

omit [DecidableEq Node] [DecidableEq Label] in
theorem Linked.rest_subset {start : Node} {f : Frame Node Edge} {below : List (Frame Node Edge)}
    (h : g.Linked start (f :: below)) : f.rest ⊆ g.edges f.node := by
  cases h with
  | bottom _ _ hrest => exact hrest
  | above _ _ _ _ hrest => exact hrest

omit [DecidableEq Node] [DecidableEq Label] in
theorem Linked.follow {start : Node} {f : Frame Node Edge} {below : List (Frame Node Edge)}
    {e : Edge} {rest : List Edge} (h : g.Linked start (f :: below)) (hrest : f.rest = e :: rest) :
    g.Linked start ({ f with rest } :: below) := by
  have hsub : rest ⊆ g.edges f.node := fun x hx =>
    h.rest_subset (by rw [hrest]; exact List.mem_cons_of_mem e hx)
  cases h with
  | bottom _ hnode _ => exact .bottom _ hnode hsub
  | above _ k below hleads _ hbelow => exact .above _ k below hleads hsub hbelow

omit [DecidableEq Node] [DecidableEq Label] in
theorem Linked.reaches {start : Node} {f : Frame Node Edge} {below : List (Frame Node Edge)}
    (h : g.Linked start (f :: below)) :
    ∀ k ∈ f :: below, Relation.ReflTransGen g.Leads start k.node ∧
      Relation.ReflTransGen g.Leads k.node f.node := by
  generalize hstack : f :: below = stack at h
  induction h generalizing f below with
  | bottom f' hnode _ =>
    cases hstack
    intro k hk
    rw [List.mem_singleton.mp hk, hnode]
    exact ⟨.refl, .refl⟩
  | above f' k' below' hleads _ _ ih =>
    cases hstack
    have hbelow := ih rfl
    intro k hk
    rcases List.mem_cons.mp hk with heq | hk
    · rw [heq]
      exact ⟨(hbelow k' List.mem_cons_self).1.tail hleads, .refl⟩
    · exact ⟨(hbelow k hk).1, (hbelow k hk).2.tail hleads⟩

omit [DecidableEq Node] [DecidableEq Label] in
theorem Linked.reaches_above {start : Node} {f : Frame Node Edge}
    {above below : List (Frame Node Edge)} (h : g.Linked start (above ++ f :: below)) :
    ∀ k ∈ above, Relation.ReflTransGen g.Leads f.node k.node := by
  induction above with
  | nil => simp
  | cons top above ih =>
    intro k hk
    cases above with
    | nil =>
      cases h with
      | above _ _ _ hleads => exact List.mem_singleton.mp hk ▸ .single hleads
    | cons next above =>
      cases h with
      | above _ _ _ hleads _ hlinked =>
        rcases List.mem_cons.mp hk with heq | hk
        · exact heq ▸ (ih hlinked next List.mem_cons_self).tail hleads
        · exact ih hlinked k hk

omit [DecidableEq Node] [DecidableEq Label] in
theorem Linked.of_append {start : Node} {f : Frame Node Edge} {above below : List (Frame Node Edge)}
    (h : g.Linked start (above ++ f :: below)) : g.Linked start (f :: below) := by
  induction above with
  | nil => exact h
  | cons top above ih =>
    apply ih
    cases above <;> cases h <;> assumption

/-- An edge given up leaves the top of a stack linked to a start, for a label on
that stack. -/
structure Closes (g : Graph Node Edge Label) (start : Node) (c : Closing Node Edge) : Prop where
  linked : g.Linked start c.stack
  leads : ∀ f ∈ c.stack, Relation.TransGen g.Leads f.node (g.target c.edge)
  onPath : ∃ f ∈ c.stack, g.label f.node = g.label (g.target c.edge)

omit [DecidableEq Node] [DecidableEq Label] in
theorem Closes.revisits {start : Node} {c : Closing Node Edge} (h : g.Closes start c) :
    g.Revisits start := by
  have ⟨f, hf, hlabel⟩ := h.onPath
  have hlinked := h.linked
  have hleads := h.leads f hf
  cases hstack : c.stack with
  | nil => exact absurd hf (by simp [hstack])
  | cons top below =>
    rw [hstack] at hf hlinked
    exact ⟨f.node, g.target c.edge, (hlinked.reaches f hf).1, hleads, hlabel⟩

theorem search_closes {starts : List Node} {t : Search Node Edge} {n : ℕ}
    (h : g.search n starts = some t) : ∀ c ∈ t.closings, ∃ start ∈ starts, g.Closes start c := by
  have hP := search_induction
    (P := fun s => (∀ f below, s.stack = f :: below → ∃ start ∈ starts, g.Linked start s.stack) ∧
      ∀ c ∈ s.closings, ∃ start ∈ starts, g.Closes start c)
    ⟨by simp [Search.initial], by simp [Search.initial]⟩ ?_ ?_ h
  · exact hP.1.2
  · intro s start hstart _ hs _
    exact ⟨fun _ _ _ => ⟨start, hstart, .bottom _ rfl fun _ he => he⟩, hs.2⟩
  · intro s t f below hstack hmoves hs
    have ⟨start, hstart, hlinked⟩ := hs.1 f below hstack
    rw [hstack] at hlinked
    have hedge : ∀ {e rest}, f.rest = e :: rest → g.Leads f.node (g.target e) := fun hrest =>
      ⟨_, hlinked.rest_subset (hrest ▸ List.mem_cons_self), rfl⟩
    cases hmoves with
    | pop =>
      refine ⟨fun f' below' hbelow => ⟨start, hstart, ?_⟩, hs.2⟩
      cases hlinked with
      | bottom => exact absurd hbelow (by simp)
      | above _ _ _ _ _ hlinked => exact hlinked
    | close e rest hrest hpath =>
      have hlinked' := hlinked.follow hrest
      refine ⟨fun _ _ _ => ⟨start, hstart, hlinked'⟩, fun c hc => ?_⟩
      rcases List.mem_append.mp hc with hc | hc
      · exact hs.2 c hc
      · rw [List.mem_singleton.mp hc]
        exact ⟨start, hstart, hlinked', fun k hk => .tail' (hlinked'.reaches k hk).2 (hedge hrest),
          by simpa [onPath] using hpath⟩
    | push e rest hrest =>
      exact ⟨fun _ _ _ => ⟨start, hstart,
        .above _ _ _ (hedge hrest) (fun _ he => he) (hlinked.follow hrest)⟩, hs.2⟩
    | skip e rest hrest => exact ⟨fun _ _ _ => ⟨start, hstart, hlinked.follow hrest⟩, hs.2⟩

end Graph
end DepthFirst
