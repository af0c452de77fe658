import Mathlib.Data.List.Nodup
import Mathlib.Data.Set.Basic
import Napitia.Lib.DepthFirst

/-!
# The loops a depth-first walk finds

A chain of edges along which no label comes twice closes a loop by an edge back to one of its
labels; the loop consists of the labels from that one on. A walk finds the loops of the chains it
follows, and leaves out those behind a node that is finished. Where it leaves out nothing but
what was seen before, it has seen at its end every loop that a chain from one of its starts
closes: so what is seen does not depend on the order of the starts.
-/
namespace DepthFirst.Graph
open Relation
variable {Node Edge Label : Type} (g : Graph Node Edge Label)

/-- One more node on a chain, of a label that is new to it. The latest node comes first. -/
inductive Extends : List Node → List Node → Prop
  | along (n m : Node) (below : List Node) : g.Leads n m → g.label m ∉ (n :: below).map g.label →
      Extends (n :: below) (m :: n :: below)

variable [DecidableEq Label]

/-- The labels of a chain from the one that is met again on. -/
def loop (chain : List Node) (met : Label) : List Label :=
  (chain.map g.label).reverse.dropWhile (· ≠ met)

/-- The labels of the loops that are closed by going on from a chain. -/
def Loops (chain : List Node) : Set Label :=
  {l | ∃ n m below, ReflTransGen g.Extends chain (n :: below) ∧ g.Leads n m ∧
    g.label m ∈ (n :: below).map g.label ∧ l ∈ g.loop (n :: below) (g.label m)}

/-- The loop an edge that was given up closes. -/
def closingLoop (c : Closing Node Edge) : List Label :=
  g.loop (c.stack.map (·.node)) (g.label (g.target c.edge))

/-- The loops that are closed by an edge to a node, or by going on from there. -/
def Followed (seen : Set Label) (chain : List Node) (m : Node) : Prop :=
  (g.label m ∈ chain.map g.label → ∀ l ∈ g.loop chain (g.label m), l ∈ seen) ∧
    (g.label m ∉ chain.map g.label → g.Loops (m :: chain) ⊆ seen)

section
variable {g} {seen seen' : Set Label} {n : Node} {below : List Node}

/-- The loops of a chain are those along the edges of its latest node. -/
theorem loops_subset (h : ∀ m, g.Leads n m → g.Followed seen (n :: below) m) :
    g.Loops (n :: below) ⊆ seen := by
  rintro l ⟨k, m, rest, hchain, hleads, hmet, hl⟩
  rcases ReflTransGen.cases_head hchain with heq | ⟨next, hext, hrest⟩
  · cases heq
    exact (h m hleads).1 hmet l hl
  · cases hext with
    | along _ m' _ hleads' hnew =>
      exact (h m' hleads').2 hnew ⟨k, m, rest, hrest, hleads, hmet, hl⟩

theorem mem_loop {chain : List Node} {l : Label} (h : l ∈ chain.map g.label) : l ∈ g.loop chain l := by
  unfold loop
  have hmem := List.mem_reverse.mpr h
  generalize (chain.map g.label).reverse = labels at hmem
  induction labels with
  | nil => cases hmem
  | cons l' labels ih =>
    by_cases heq : l' = l
    · simp [heq]
    · rw [List.dropWhile_cons_of_pos (by simpa using heq)]
      exact ih ((List.mem_cons.mp hmem).resolve_left fun h => heq h.symm)

omit [DecidableEq Label] in
theorem extends_labels {labels : Set Label} (hleads : ∀ n m, g.Leads n m → g.label m ∈ labels)
    {chain chain' : List Node} (h : ReflTransGen g.Extends chain chain')
    (hchain : ∀ l ∈ chain.map g.label, l ∈ labels) : ∀ l ∈ chain'.map g.label, l ∈ labels := by
  induction h with
  | refl => exact hchain
  | tail _ hext ih =>
    cases hext with
    | along n m below hnm _ =>
      intro l hl
      rcases List.mem_cons.mp hl with rfl | hl
      · exact hleads n m hnm
      · exact ih l hl

/-- Loops have no labels but those of the chain and of what edges lead to. -/
theorem loops_subset_labels {labels : Set Label} (hleads : ∀ n m, g.Leads n m → g.label m ∈ labels)
    {chain : List Node} (hchain : ∀ l ∈ chain.map g.label, l ∈ labels) :
    g.Loops chain ⊆ labels := by
  rintro l ⟨n, m, below, hext, -, -, hl⟩
  have hmem := List.mem_reverse.mp (List.dropWhile_subset _ hl)
  exact extends_labels hleads hext hchain l hmem

theorem Followed.mono {chain : List Node} {m : Node} (h : g.Followed seen chain m)
    (hsub : seen ⊆ seen') : g.Followed seen' chain m :=
  ⟨fun hmet l hl => hsub (h.1 hmet l hl), fun hnew => (h.2 hnew).trans hsub⟩

end

/-! ### The states of a search -/

variable [DecidableEq Node]

/-- The states a search comes to, with the starts that are left to it. -/
inductive Comes (starts : List Node) : List Node → Search Node Edge → Prop
  | initial : Comes starts starts .initial
  | step {rest : List Node} {s : Search Node Edge} :
      Comes starts rest s → s.stack ≠ [] → Comes starts rest (g.step s)
  | enter {start : Node} {rest : List Node} {s : Search Node Edge} :
      Comes starts (start :: rest) s → s.stack = [] → s.color start = .white →
      Comes starts rest ⟨Function.update s.color start .gray, [g.frame start none], s.closings⟩
  | pass {start : Node} {rest : List Node} {s : Search Node Edge} :
      Comes starts (start :: rest) s → s.stack = [] → s.color start ≠ .white →
      Comes starts rest s

section
variable {g} {starts rest : List Node} {s t : Search Node Edge} {n : ℕ}

theorem Comes.walk (hs : g.Comes starts rest s) (h : g.walk n s = some t) :
    g.Comes starts rest t ∧ t.stack = [] := by
  induction n generalizing s with
  | zero =>
    unfold Graph.walk at h
    split at h
    · rename_i hempty
      cases h
      exact ⟨hs, by simpa using hempty⟩
    · cases h
  | succ n ih =>
    unfold Graph.walk at h
    split at h
    · rename_i hempty
      cases h
      exact ⟨hs, by simpa using hempty⟩
    · rename_i hopen
      exact ih (hs.step fun hnil => hopen (by rw [hnil]; rfl)) h

theorem Comes.visits (hs : g.Comes starts rest s) (hempty : s.stack = [])
    (h : rest.foldlM (g.visit n) s = some t) : g.Comes starts [] t ∧ t.stack = [] := by
  induction rest generalizing s with
  | nil =>
    cases h
    exact ⟨hs, hempty⟩
  | cons start rest ih =>
    rw [List.foldlM_cons] at h
    obtain ⟨u, hu, ht⟩ := Option.bind_eq_some_iff.mp h
    unfold visit at hu
    split at hu
    · rename_i hwhite
      obtain ⟨hcomes, hdone⟩ := (hs.enter hempty hwhite).walk hu
      exact ih hcomes hdone ht
    · rename_i hmet
      cases hu
      exact ih (hs.pass hempty hmet) hempty ht

theorem comes_search (h : g.search n starts = some t) : g.Comes starts [] t ∧ t.stack = [] :=
  Comes.initial.visits rfl h

end

/-- The search leaves out nothing but what it has seen: not at a start it has met, not at a node
that is finished, and not where it closes a loop. `seen` is what the edges given up so far have
shown of their loops. -/
structure Thorough (starts : List Node) (seen : List (Closing Node Edge) → Set Label) : Prop where
  met : ∀ {start rest s}, g.Comes starts (start :: rest) s → s.stack = [] →
    s.color start ≠ .white → g.Loops [start] ⊆ seen s.closings
  skipped : ∀ {rest s f below e edges}, g.Comes starts rest s → s.stack = f :: below →
    f.rest = e :: edges → g.onPath (g.target e) s.stack = false → s.color (g.target e) ≠ .white →
    g.Loops (g.target e :: s.stack.map (·.node)) ⊆ seen s.closings
  closed : ∀ {rest s f below e edges}, g.Comes starts rest s → s.stack = f :: below →
    f.rest = e :: edges → g.onPath (g.target e) s.stack = true →
    ∀ l ∈ g.loop (s.stack.map (·.node)) (g.label (g.target e)),
      l ∈ seen (s.closings ++ [⟨{ f with rest := edges } :: below, e⟩])

/-- Every edge of every frame is still to be followed, or led to the frame above, or showed its
loops. -/
def Accounted (seen : Set Label) : Option Node → List (Frame Node Edge) → Prop
  | _, [] => True
  | above, f :: below =>
    (∀ e ∈ g.edges f.node, e ∈ f.rest ∨ some (g.target e) = above ∨
      g.Followed seen ((f :: below).map (·.node)) (g.target e)) ∧
      Accounted seen (some f.node) below

section
variable {g} {seen seen' : Set Label} {above : Option Node} {stack below : List (Frame Node Edge)}
  {f : Frame Node Edge} {e : Edge} {edges : List Edge}

omit [DecidableEq Node] in
theorem Accounted.mono (h : g.Accounted seen above stack) (hsub : seen ⊆ seen') :
    g.Accounted seen' above stack := by
  induction stack generalizing above with
  | nil => trivial
  | cons f below ih =>
    refine ⟨fun e he => ?_, ih h.2⟩
    rcases h.1 e he with hrest | hup | hfollowed
    · exact .inl hrest
    · exact .inr (.inl hup)
    · exact .inr (.inr (hfollowed.mono hsub))

omit [DecidableEq Node] in
/-- The first edge left to the top frame has shown its loops. -/
theorem Accounted.follow (h : g.Accounted seen none (f :: below)) (hrest : f.rest = e :: edges)
    (hfollowed : g.Followed seen ((f :: below).map (·.node)) (g.target e)) :
    g.Accounted seen none ({ f with rest := edges } :: below) := by
  refine ⟨fun e' he' => ?_, h.2⟩
  rcases h.1 e' he' with hin | hup | hdone
  · rcases List.mem_cons.mp (hrest ▸ hin) with heq | hin
    · exact .inr (.inr (heq ▸ hfollowed))
    · exact .inl hin
  · exact .inr (.inl hup)
  · exact .inr (.inr hdone)

omit [DecidableEq Node] in
theorem Accounted.loops (h : g.Accounted seen none (f :: below)) (hrest : f.rest = []) :
    g.Loops ((f :: below).map (·.node)) ⊆ seen := by
  refine loops_subset fun m hleads => ?_
  obtain ⟨e, he, rfl⟩ := hleads
  rcases h.1 e he with hin | hup | hfollowed
  · rw [hrest] at hin
    cases hin
  · cases hup
  · exact hfollowed

end

/-- What holds at every state of a search that leaves out nothing but what it has seen. -/
structure Kept (starts : List Node) (seen : List (Closing Node Edge) → Set Label)
    (rest : List Node) (s : Search Node Edge) : Prop where
  accounted : g.Accounted (seen s.closings) none s.stack
  nodup : ((s.stack.map (·.node)).map g.label).Nodup
  covered : ∀ start ∈ starts, start ∈ rest ∨ (s.stack.map (·.node)).getLast? = some start ∨
    g.Loops [start] ⊆ seen s.closings

section
variable {g} {starts rest : List Node} {seen : List (Closing Node Edge) → Set Label}
  {s t : Search Node Edge} {f : Frame Node Edge} {below : List (Frame Node Edge)}

omit [DecidableEq Node] in
theorem onPath_iff {m : Node} {stack : List (Frame Node Edge)} :
    g.onPath m stack = true ↔ g.label m ∈ (stack.map (·.node)).map g.label := by
  simp only [onPath, List.any_eq_true, decide_eq_true_eq, List.map_map, List.mem_map,
    Function.comp_apply]

theorem Kept.moves (hthorough : g.Thorough starts seen)
    (hmono : ∀ cs c, seen cs ⊆ seen (cs ++ [c])) (hcomes : g.Comes starts rest s)
    (h : g.Kept starts seen rest s) (hs : s.stack = f :: below) (hmoves : g.Moves s f below t) :
    g.Kept starts seen rest t := by
  obtain ⟨haccounted, hnodup, hcovered⟩ := h
  rw [hs] at haccounted hnodup hcovered
  cases hmoves with
  | pop hrest =>
    have hloops := haccounted.loops hrest
    have hnew : g.label f.node ∉ (below.map (·.node)).map g.label := (List.nodup_cons.mp hnodup).1
    refine ⟨?_, (List.nodup_cons.mp hnodup).2, fun start hstart => ?_⟩
    · -- The edge that led to the finished frame has shown its loops.
      cases below with
      | nil => trivial
      | cons k below =>
        refine ⟨fun e he => ?_, haccounted.2.2⟩
        rcases haccounted.2.1 e he with hin | hup | hfollowed
        · exact .inl hin
        · have htarget : g.target e = f.node := Option.some.inj hup
          exact .inr (.inr ⟨fun hmet => absurd (htarget ▸ hmet) hnew, fun _ => by
            rw [htarget]
            exact hloops⟩)
        · exact .inr (.inr hfollowed)
    · rcases hcovered start hstart with hin | hlast | hdone
      · exact .inl hin
      · cases below with
        | nil =>
          obtain rfl : f.node = start := Option.some.inj hlast
          exact .inr (.inr hloops)
        | cons k below => exact .inr (.inl (by simpa using hlast))
      · exact .inr (.inr hdone)
  | close e edges hrest hpath =>
    have hseen := hthorough.closed hcomes hs hrest (hs ▸ hpath)
    rw [hs] at hseen
    have hmet := onPath_iff.mp hpath
    refine ⟨?_, hnodup, fun start hstart => ?_⟩
    · exact (haccounted.mono (hmono _ _)).follow hrest ⟨fun _ => hseen, fun hnew => absurd hmet hnew⟩
    · exact (hcovered start hstart).imp_right (Or.imp_right fun hdone => hdone.trans (hmono _ _))
  | push e edges hrest hpath hwhite =>
    have hnew : g.label (g.target e) ∉ ((f :: below).map (·.node)).map g.label := fun hmem =>
      Bool.false_ne_true (hpath.symm.trans (onPath_iff.mpr hmem))
    refine ⟨⟨fun e' he' => .inl he', fun e' he' => ?_, haccounted.2⟩,
      List.nodup_cons.mpr ⟨hnew, hnodup⟩, fun start hstart => ?_⟩
    · rcases haccounted.1 e' he' with hin | hup | hfollowed
      · rcases List.mem_cons.mp (hrest ▸ hin) with heq | hin
        · exact .inr (.inl (by rw [heq]; rfl))
        · exact .inl hin
      · cases hup
      · exact .inr (.inr hfollowed)
    · rcases hcovered start hstart with hin | hlast | hdone
      · exact .inl hin
      · exact .inr (.inl (by simpa using hlast))
      · exact .inr (.inr hdone)
  | skip e edges hrest hpath hmet =>
    have hseen := hthorough.skipped hcomes hs hrest (hs ▸ hpath) hmet
    rw [hs] at hseen
    have hnew : g.label (g.target e) ∉ ((f :: below).map (·.node)).map g.label := fun hmem =>
      Bool.false_ne_true (hpath.symm.trans (onPath_iff.mpr hmem))
    exact ⟨haccounted.follow hrest ⟨fun hmem => absurd hmem hnew, fun _ => hseen⟩, hnodup, hcovered⟩

theorem Comes.kept (hthorough : g.Thorough starts seen)
    (hmono : ∀ cs c, seen cs ⊆ seen (cs ++ [c])) (hcomes : g.Comes starts rest s) :
    g.Kept starts seen rest s := by
  induction hcomes with
  | initial => exact ⟨trivial, List.nodup_nil, fun start hstart => .inl hstart⟩
  | @step rest s hcomes hopen ih =>
    obtain ⟨f, below, hs⟩ := List.exists_cons_of_ne_nil hopen
    exact ih.moves hthorough hmono hcomes hs (g.moves_step hs)
  | @enter start rest s hcomes hempty hwhite ih =>
    refine ⟨⟨fun e he => .inl he, trivial⟩, List.nodup_singleton _, fun start' hstart' => ?_⟩
    rcases ih.covered start' hstart' with hin | hlast | hdone
    · rcases List.mem_cons.mp hin with heq | hin
      · exact .inr (.inl (by rw [heq]; rfl))
      · exact .inl hin
    · rw [hempty] at hlast
      cases hlast
    · exact .inr (.inr hdone)
  | @pass start rest s hcomes hempty hmet ih =>
    refine ⟨ih.accounted, ih.nodup, fun start' hstart' => ?_⟩
    rcases ih.covered start' hstart' with hin | hlast | hdone
    · rcases List.mem_cons.mp hin with heq | hin
      · exact .inr (.inr (heq ▸ hthorough.met hcomes hempty hmet))
      · exact .inl hin
    · exact .inr (.inl hlast)
    · exact .inr (.inr hdone)

/-- A search that leaves out nothing but what it has seen has seen, at its end, the loops of
every chain from one of its starts. -/
theorem loops_seen (hthorough : g.Thorough starts seen)
    (hmono : ∀ cs c, seen cs ⊆ seen (cs ++ [c])) {n : ℕ} (h : g.search n starts = some t) :
    ∀ start ∈ starts, g.Loops [start] ⊆ seen t.closings := by
  obtain ⟨hcomes, hempty⟩ := comes_search h
  intro start hstart
  rcases (hcomes.kept hthorough hmono).covered start hstart with hin | hlast | hdone
  · cases hin
  · rw [hempty] at hlast
    cases hlast
  · exact hdone

end

/-! ### What is seen is a loop -/

section
variable {g} {starts : List Node} {t : Search Node Edge} {n : ℕ}

/-- The stack of a search is a chain from a start, and every edge given up closes a loop of one. -/
structure Traced (g : Graph Node Edge Label) (starts : List Node) (s : Search Node Edge) :
    Prop where
  rest_subset : ∀ f ∈ s.stack, f.rest ⊆ g.edges f.node
  chain : s.stack ≠ [] → ∃ start ∈ starts, ReflTransGen g.Extends [start] (s.stack.map (·.node))
  closings : ∀ c ∈ s.closings, ∃ start ∈ starts, ∀ l ∈ g.closingLoop c, l ∈ g.Loops [start]

omit [DecidableEq Label] [DecidableEq Node] in
/-- A chain from a start is one without its latest node. -/
theorem chain_below {start m k : Node} {below : List Node}
    (h : ReflTransGen g.Extends [start] (m :: k :: below)) :
    ReflTransGen g.Extends [start] (k :: below) := by
  rcases ReflTransGen.cases_tail h with heq | ⟨chain, hchain, hext⟩
  · cases heq
  · cases hext with
    | along => exact hchain

theorem Traced.moves {s t : Search Node Edge} {f : Frame Node Edge}
    {below : List (Frame Node Edge)} (h : g.Traced starts s) (hs : s.stack = f :: below)
    (hmoves : g.Moves s f below t) : g.Traced starts t := by
  obtain ⟨hsub, hchain, hclosings⟩ := h
  rw [hs] at hsub hchain
  obtain ⟨start, hstart, hchain⟩ := hchain (List.cons_ne_nil _ _)
  have hrests : ∀ edges, edges ⊆ f.rest → ∀ k ∈ { f with rest := edges } :: below,
      k.rest ⊆ g.edges k.node := by
    intro edges hedges k hk
    rcases List.mem_cons.mp hk with rfl | hk
    · exact fun e he => hsub f List.mem_cons_self (hedges he)
    · exact hsub k (List.mem_cons_of_mem _ hk)
  have hleads : ∀ {e edges}, f.rest = e :: edges → g.Leads f.node (g.target e) := fun hrest =>
    ⟨_, hsub f List.mem_cons_self (hrest ▸ List.mem_cons_self), rfl⟩
  cases hmoves with
  | pop =>
    refine ⟨fun k hk => hsub k (List.mem_cons_of_mem _ hk), fun hne => ?_, hclosings⟩
    obtain ⟨k, below, rfl⟩ := List.exists_cons_of_ne_nil hne
    exact ⟨start, hstart, chain_below hchain⟩
  | close e edges hrest hpath =>
    refine ⟨hrests edges (by rw [hrest]; exact List.subset_cons_self _ _),
      fun _ => ⟨start, hstart, hchain⟩, fun c hc => ?_⟩
    rcases List.mem_append.mp hc with hc | hc
    · exact hclosings c hc
    · rw [List.mem_singleton.mp hc]
      exact ⟨start, hstart, fun l hl =>
        ⟨_, _, _, hchain, hleads hrest, onPath_iff.mp hpath, hl⟩⟩
  | push e edges hrest hpath =>
    have hnew : g.label (g.target e) ∉ ((f :: below).map (·.node)).map g.label := fun hmem =>
      Bool.false_ne_true (hpath.symm.trans (onPath_iff.mpr hmem))
    refine ⟨fun k hk => ?_, fun _ => ⟨start, hstart, hchain.tail (.along _ _ _ (hleads hrest) hnew)⟩,
      hclosings⟩
    rcases List.mem_cons.mp hk with rfl | hk
    · exact fun _ he => he
    · exact hrests edges (by rw [hrest]; exact List.subset_cons_self _ _) k hk
  | skip e edges hrest =>
    exact ⟨hrests edges (by rw [hrest]; exact List.subset_cons_self _ _),
      fun _ => ⟨start, hstart, hchain⟩, hclosings⟩

theorem Comes.traced {rest : List Node} {s : Search Node Edge} (hcomes : g.Comes starts rest s) :
    rest ⊆ starts ∧ g.Traced starts s := by
  induction hcomes with
  | initial =>
    exact ⟨fun _ h => h, by simp [Search.initial], fun hne => absurd rfl hne, by simp [Search.initial]⟩
  | @step rest s hcomes hopen ih =>
    obtain ⟨f, below, hs⟩ := List.exists_cons_of_ne_nil hopen
    exact ⟨ih.1, ih.2.moves hs (g.moves_step hs)⟩
  | @enter start rest s hcomes hempty hwhite ih =>
    have hstart : start ∈ starts := ih.1 List.mem_cons_self
    refine ⟨fun m hm => ih.1 (List.mem_cons_of_mem _ hm), fun f hf => ?_,
      fun _ => ⟨start, hstart, .refl⟩, ih.2.closings⟩
    rw [List.mem_singleton.mp hf]
    exact fun _ he => he
  | pass hcomes hempty hmet ih => exact ⟨fun m hm => ih.1 (List.mem_cons_of_mem _ hm), ih.2⟩

omit [DecidableEq Node] in
/-- Going on from a node that is finished goes on a chain from a start. -/
theorem Traced.loops {s : Search Node Edge} {f : Frame Node Edge} {below : List (Frame Node Edge)}
    {e : Edge} {edges : List Edge} (h : g.Traced starts s) (hs : s.stack = f :: below)
    (hrest : f.rest = e :: edges) (hpath : g.onPath (g.target e) s.stack = false) :
    ∃ start ∈ starts, g.Loops (g.target e :: s.stack.map (·.node)) ⊆ g.Loops [start] := by
  obtain ⟨start, hstart, hchain⟩ := h.chain (by rw [hs]; exact List.cons_ne_nil _ _)
  have hleads : g.Leads f.node (g.target e) :=
    ⟨e, h.rest_subset f (hs ▸ List.mem_cons_self) (hrest ▸ List.mem_cons_self), rfl⟩
  have hnew : g.label (g.target e) ∉ (s.stack.map (·.node)).map g.label := fun hmem =>
    Bool.false_ne_true (hpath.symm.trans (onPath_iff.mpr hmem))
  rw [hs] at hchain hnew ⊢
  have hext := hchain.tail (Extends.along f.node (g.target e) _ hleads hnew)
  refine ⟨start, hstart, ?_⟩
  rintro l ⟨n, m, rest, hon, hl⟩
  exact ⟨n, m, rest, hext.trans hon, hl⟩

omit [DecidableEq Node] in
theorem Traced.loop {s : Search Node Edge} {f : Frame Node Edge} {below : List (Frame Node Edge)}
    {e : Edge} {edges : List Edge} (h : g.Traced starts s) (hs : s.stack = f :: below)
    (hrest : f.rest = e :: edges) (hpath : g.onPath (g.target e) s.stack = true) :
    ∃ start ∈ starts, ∀ l ∈ g.loop (s.stack.map (·.node)) (g.label (g.target e)),
      l ∈ g.Loops [start] := by
  obtain ⟨start, hstart, hchain⟩ := h.chain (by rw [hs]; exact List.cons_ne_nil _ _)
  have hleads : g.Leads f.node (g.target e) :=
    ⟨e, h.rest_subset f (hs ▸ List.mem_cons_self) (hrest ▸ List.mem_cons_self), rfl⟩
  have hmet := onPath_iff.mp hpath
  rw [hs] at hchain hmet ⊢
  exact ⟨start, hstart, fun l hl => ⟨_, _, _, hchain, hleads, hmet, hl⟩⟩

/-- The loop of every edge a search gives up is one of a chain from a start. -/
theorem closings_loops (h : g.search n starts = some t) :
    ∀ c ∈ t.closings, ∃ start ∈ starts, ∀ l ∈ g.closingLoop c, l ∈ g.Loops [start] :=
  (comes_search h).1.traced.2.closings

end

end DepthFirst.Graph
