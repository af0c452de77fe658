import Napitia.Lib.Loops
import Napitia.Typeck.Layout

/-!
# Cycles in any order of the declarations

What the check reports depends on the order the declarations are walked in, for it leaves out
three things: an instance that is finished, when it is met again; a declaration's own self, when
an earlier walk came to it; and a cycle closed at a declaration that closed one before. Where
none of these hides a declaration from the report, the report names the declarations on all
loops of containment chains, which is the same in every order.
-/
namespace Napitia.Typeck
open DepthFirst

/-- The declarations on the cycles reported of the edges given up so far. -/
def named (closings : List (Closing GenericInstanceKey LayoutEdge)) : Set ItemId :=
  {item | ∃ d ∈ (closings.foldl reportCycle ([], [])).2, ∃ k ∈ d.cycle, k.declaration = item}

/-- The declarations a reported cycle was closed at. -/
def closedAt (closings : List (Closing GenericInstanceKey LayoutEdge)) : List ItemId :=
  (closings.foldl reportCycle ([], [])).1

/-- What a walk leaves out, in any state it comes to, would name no declaration that is not named
yet: not the loops from a declaration's self that an earlier walk came to, not those that go on,
along the active path, from an instance that is finished, and not a loop closed at a declaration
that closed one before. -/
structure NothingHidden (records : List HirRecord) (variants : List HirVariant) : Prop where
  met : ∀ {start rest s},
    (layoutGraph (declared records variants)).Comes (walkStarts records variants) (start :: rest) s →
    s.stack = [] → s.color start ≠ .white →
    (layoutGraph (declared records variants)).Loops [start] ⊆ named s.closings
  finished : ∀ {rest s f below e edges},
    (layoutGraph (declared records variants)).Comes (walkStarts records variants) rest s →
    s.stack = f :: below → f.rest = e :: edges →
    (layoutGraph (declared records variants)).onPath e.target s.stack = false →
    s.color e.target ≠ .white →
    (layoutGraph (declared records variants)).Loops (e.target :: s.stack.map (·.node)) ⊆
      named s.closings
  closed : ∀ {rest s f below e edges},
    (layoutGraph (declared records variants)).Comes (walkStarts records variants) rest s →
    s.stack = f :: below → f.rest = e :: edges →
    (layoutGraph (declared records variants)).onPath e.target s.stack = true →
    e.target.declaration ∈ closedAt s.closings →
    ∀ item ∈ (layoutGraph (declared records variants)).loop (s.stack.map (·.node))
      e.target.declaration, item ∈ named s.closings

section
variable {decls : Decls} {closings : List (Closing GenericInstanceKey LayoutEdge)}
  {c : Closing GenericInstanceKey LayoutEdge} {item : ItemId}

/-- A reported cycle has the declarations of the loop that its edge closes. -/
theorem declaration_mem_cycle : (∃ k ∈ (cycleDiagnostic c).cycle, k.declaration = item) ↔
    item ∈ (layoutGraph decls).closingLoop c := by
  have hloop : (layoutGraph decls).closingLoop c =
      (c.stack.reverse.drop (c.stack.reverse.findIdx
        fun f => f.node.declaration = c.edge.target.declaration)).map (·.node.declaration) := by
    have hlabels : ((c.stack.map (·.node)).map (layoutGraph decls).label).reverse =
        c.stack.reverse.map (·.node.declaration) := by
      rw [List.map_map, List.map_reverse]
      rfl
    simp only [Graph.closingLoop, Graph.loop, hlabels]
    rw [List.dropWhile_map, List.dropWhile_eq_drop_findIdx_not]
    congr 3
    funext f
    by_cases h : f.node.declaration = c.edge.target.declaration <;> simp [layoutGraph, h]
  generalize hslice : c.stack.reverse.drop (c.stack.reverse.findIdx
    fun f => f.node.declaration = c.edge.target.declaration) = slice at hloop
  have hcycle : ∃ n, (cycleDiagnostic c).cycle =
      (slice.drop n ++ slice.take n).map (·.node) := by
    simp only [cycleDiagnostic, hslice]
    split
    · exact ⟨_, rfl⟩
    · split <;> exact ⟨_, rfl⟩
  obtain ⟨n, hn⟩ := hcycle
  have hmem : ∀ f, f ∈ slice.drop n ++ slice.take n ↔ f ∈ slice := by
    intro f
    rw [List.mem_append, or_comm, ← List.mem_append, List.take_append_drop]
  rw [hloop, hn]
  simp only [List.mem_map, hmem]
  constructor
  · rintro ⟨_, ⟨f, hf, rfl⟩, rfl⟩
    exact ⟨f, hf, rfl⟩
  · rintro ⟨f, hf, rfl⟩
    exact ⟨_, ⟨f, hf, rfl⟩, rfl⟩

theorem named_mono : named closings ⊆ named (closings ++ [c]) := by
  rintro item ⟨d, hd, hk⟩
  refine ⟨d, ?_, hk⟩
  rw [List.foldl_append, List.foldl_cons, List.foldl_nil]
  generalize closings.foldl reportCycle ([], []) = acc at hd
  simp only [reportCycle]
  split
  · exact hd
  · exact List.mem_append_left _ hd

/-- A cycle closed where none was closed before is reported. -/
theorem loop_named (hnew : c.edge.target.declaration ∉ closedAt closings) :
    ∀ item ∈ (layoutGraph decls).closingLoop c, item ∈ named (closings ++ [c]) := by
  intro item hitem
  refine ⟨cycleDiagnostic c, ?_, declaration_mem_cycle.mpr hitem⟩
  rw [List.foldl_append, List.foldl_cons, List.foldl_nil]
  unfold closedAt at hnew
  generalize closings.foldl reportCycle ([], []) = acc at hnew
  simp [reportCycle, hnew]

end

section
variable {records records' : List HirRecord} {variants variants' : List HirVariant}

theorem NothingHidden.thorough (h : NothingHidden records variants) :
    (layoutGraph (declared records variants)).Thorough (walkStarts records variants) named where
  met := h.met
  skipped := h.finished
  closed := by
    intro rest s f below e edges hcomes hs hrest hpath item hitem
    by_cases hnew : e.target.declaration ∈ closedAt s.closings
    · exact named_mono (h.closed hcomes hs hrest hpath hnew item hitem)
    · rw [hs] at hitem
      exact loop_named hnew item hitem

theorem offends_iff_named {fuel : ℕ} {s : Search GenericInstanceKey LayoutEdge}
    (hs : (layoutGraph (declared records variants)).search fuel (walkStarts records variants) =
      some s) {item : ItemId} : Offends records variants item ↔ item ∈ named s.closings := by
  have hcheck : checkCycles fuel records variants =
      some (s.closings.foldl reportCycle ([], [])).2 := by rw [checkCycles, hs]; rfl
  constructor
  · rintro ⟨fuel', diagnostics, hfuel, d, hd, hk⟩
    have hsame := Option.some.inj ((checkCycles_mono (Nat.le_max_left fuel fuel') hcheck).symm.trans
      (checkCycles_mono (Nat.le_max_right fuel fuel') hfuel))
    exact ⟨d, hsame ▸ hd, hk⟩
  · rintro ⟨d, hd, hk⟩
    exact ⟨fuel, _, hcheck, d, hd, hk⟩

/-- Where nothing is hidden the check names the declarations on the loops that the containment
chains from the declarations' selves close. -/
theorem offends_iff_loops (h : NothingHidden records variants) {item : ItemId} :
    Offends records variants item ↔ ∃ start ∈ walkStarts records variants,
      item ∈ (layoutGraph (declared records variants)).Loops [start] := by
  obtain ⟨fuel, s, hs⟩ := Graph.exists_search (@label_mem_keys (declared records variants))
    (walkStarts records variants)
  rw [offends_iff_named hs]
  constructor
  · rintro ⟨d, hd, hk⟩
    obtain ⟨c, hc, rfl⟩ := mem_foldl_reportCycle hd
    obtain ⟨start, hstart, hloop⟩ := Graph.closings_loops hs c hc
    exact ⟨start, hstart, hloop item (declaration_mem_cycle.mp hk)⟩
  · rintro ⟨start, hstart, hitem⟩
    exact Graph.loops_seen h.thorough (fun _ _ => named_mono) hs start hstart hitem

/-- A diagnostic names some declaration. -/
theorem reports_iff_offends : Reports records variants ↔ ∃ item, Offends records variants item := by
  constructor
  · rintro ⟨fuel, diagnostics, hfuel, hne⟩
    obtain ⟨d, hd⟩ := List.exists_mem_of_ne_nil _ hne
    obtain ⟨s, hs, rfl⟩ := Option.map_eq_some_iff.mp hfuel
    obtain ⟨c, hc, rfl⟩ := mem_foldl_reportCycle hd
    obtain ⟨start, hstart, hcloses⟩ := Graph.search_closes hs c hc
    have hmet : c.edge.target.declaration ∈
        (layoutGraph (declared records variants)).closingLoop c := by
      obtain ⟨f, hf, hlabel⟩ := hcloses.onPath
      apply Graph.mem_loop
      exact List.mem_map.mpr ⟨f.node, List.mem_map_of_mem hf, hlabel⟩
    exact ⟨_, fuel, _, hfuel, _, hd, declaration_mem_cycle.mpr hmet⟩
  · rintro ⟨item, fuel, diagnostics, hfuel, d, hd, -⟩
    exact ⟨fuel, diagnostics, hfuel, List.ne_nil_of_mem hd⟩

/-- No declaration on a loop is left to be named. -/
def AllNamed (records : List HirRecord) (variants : List HirVariant)
    (closings : List (Closing GenericInstanceKey LayoutEdge)) : Prop :=
  ∀ start ∈ walkStarts records variants,
    (layoutGraph (declared records variants)).Loops [start] ⊆ named closings

/-- The walk leaves nothing out from this state on. -/
def Skipless (decls : Decls) (s : Search GenericInstanceKey LayoutEdge) : Prop :=
  closedAt s.closings = [] ∧ (s.stack = [] → ∀ start, s.color start = .white) ∧
    ∀ f below e edges, s.stack = f :: below → f.rest = e :: edges →
      (layoutGraph decls).onPath e.target s.stack = false → s.color e.target = .white

theorem skipless_of_stack {decls : Decls} {s : Search GenericInstanceKey LayoutEdge}
    {f : Frame GenericInstanceKey LayoutEdge} {below : List (Frame GenericInstanceKey LayoutEdge)}
    {e : LayoutEdge} {edges : List LayoutEdge} (hclosings : s.closings = [])
    (hs : s.stack = f :: below) (hrest : f.rest = e :: edges)
    (h : (layoutGraph decls).onPath e.target s.stack = true ∨ s.color e.target = .white) :
    s.stack ≠ [] ∧ Skipless decls s := by
  refine ⟨hs ▸ List.cons_ne_nil _ _, by rw [hclosings]; rfl, fun hempty => ?_, ?_⟩
  · rw [hs] at hempty
    cases hempty
  · intro f' below' e' edges' hs' hrest' hpath
    obtain ⟨rfl, rfl⟩ := List.cons.inj (hs.symm.trans hs')
    obtain ⟨rfl, rfl⟩ := List.cons.inj (hrest.symm.trans hrest')
    exact h.resolve_left (by rw [hpath]; exact Bool.false_ne_true)

/-- A walk that leaves nothing out until all declarations on loops are named hides nothing. -/
theorem NothingHidden.of_named (hcases : ∀ rest s,
    (layoutGraph (declared records variants)).Comes (walkStarts records variants) rest s →
      AllNamed records variants s.closings ∨ Skipless (declared records variants) s) :
    NothingHidden records variants where
  met := by
    intro start rest s hcomes hempty hmet
    rcases hcases _ s hcomes with hnamed | ⟨-, hwhite, -⟩
    · exact hnamed start (hcomes.traced.1 List.mem_cons_self)
    · exact absurd (hwhite hempty start) hmet
  finished := by
    intro rest s f below e edges hcomes hs hrest hpath hmet
    rcases hcases _ s hcomes with hnamed | ⟨-, -, hwhite⟩
    · obtain ⟨start, hstart, hchain⟩ := hcomes.traced.2.loops hs hrest hpath
      exact fun item hitem => hnamed start hstart (hchain hitem)
    · exact absurd (hwhite f below e edges hs hrest hpath) hmet
  closed := by
    intro rest s f below e edges hcomes hs hrest hpath hclosed item hitem
    rcases hcases _ s hcomes with hnamed | ⟨hnone, -, -⟩
    · obtain ⟨start, hstart, hloop⟩ := hcomes.traced.2.loop hs hrest hpath
      exact hnamed start hstart (hloop item hitem)
    · rw [hnone] at hclosed
      cases hclosed

/-- Where the second step of the first walk names all declarations on loops, nothing is
hidden. -/
theorem NothingHidden.of_second {start : GenericInstanceKey} {others : List GenericInstanceKey}
    (hstarts : walkStarts records variants = start :: others)
    (h : ∀ entered, entered = (⟨Function.update (fun _ => .white) start .gray,
        [(layoutGraph (declared records variants)).frame start none], []⟩ : Search _ _) →
      (∀ s ∈ [entered, (layoutGraph (declared records variants)).step entered],
        s.stack ≠ [] ∧ Skipless (declared records variants) s) ∧
      AllNamed records variants
        ((layoutGraph (declared records variants)).step
          ((layoutGraph (declared records variants)).step entered)).closings) :
    NothingHidden records variants := by
  obtain ⟨hskipless, hnamed⟩ := h _ rfl
  generalize hentered : (⟨Function.update (fun _ => .white) start .gray,
    [(layoutGraph (declared records variants)).frame start none], []⟩ : Search _ _) = entered
    at hskipless hnamed
  have hfirst := hskipless entered List.mem_cons_self
  have hsecond := hskipless _ (List.mem_cons_of_mem _ List.mem_cons_self)
  -- The states of the first walk up to there, and all others.
  have hcases : ∀ rest s,
      (layoutGraph (declared records variants)).Comes (walkStarts records variants) rest s →
      AllNamed records variants s.closings ∨ rest = start :: others ∧ s = .initial ∨
        s = entered ∨ s = (layoutGraph (declared records variants)).step entered := by
    intro rest s hcomes
    induction hcomes with
    | initial => exact .inr (.inl ⟨hstarts, rfl⟩)
    | @step rest s _ hopen ih =>
      rcases ih with hall | ⟨-, rfl⟩ | rfl | rfl
      · refine .inl fun start hstart => ?_
        obtain ⟨f, below, hs⟩ := List.exists_cons_of_ne_nil hopen
        have hmoves := (layoutGraph (declared records variants)).moves_step hs
        generalize (layoutGraph (declared records variants)).step s = t at hmoves
        cases hmoves with
        | close => exact fun item hitem => named_mono (hall start hstart hitem)
        | pop | push | skip => exact hall start hstart
      · exact absurd rfl hopen
      · exact .inr (.inr (.inr rfl))
      · exact .inl hnamed
    | @enter start' rest s _ hempty _ ih =>
      rcases ih with hall | ⟨heq, rfl⟩ | rfl | rfl
      · exact .inl hall
      · cases heq
        exact .inr (.inr (.inl hentered))
      · exact absurd hempty hfirst.1
      · exact absurd hempty hsecond.1
    | @pass start' rest s _ hempty hmet ih =>
      rcases ih with hall | ⟨heq, rfl⟩ | rfl | rfl
      · exact .inl hall
      · exact absurd rfl hmet
      · exact absurd hempty hfirst.1
      · exact absurd hempty hsecond.1
  refine .of_named fun rest s hcomes => ?_
  rcases hcases rest s hcomes with hall | ⟨-, rfl⟩ | rfl | rfl
  · exact .inl hall
  · exact .inr ⟨rfl, fun _ _ => rfl, fun _ _ _ _ hs => nomatch hs⟩
  · exact .inr hfirst.2
  · exact .inr hsecond.2

end

/-! ### Trees and forests -/

/-- `Tree[T] { kids: Forest[T] }` and `Forest[T] { head: Tree[T], rest: Forest[T] }`. -/
def treeRecord : HirRecord := ⟨⟨0⟩, [⟨0⟩], [("kids", .applied ⟨1⟩ [.param ⟨0⟩])]⟩
def forestRecord : HirRecord :=
  ⟨⟨1⟩, [⟨1⟩], [("head", .applied ⟨0⟩ [.param ⟨1⟩]), ("rest", .applied ⟨1⟩ [.param ⟨1⟩])]⟩

theorem allNamed_tree_forest {records : List HirRecord}
    {closings : List (Closing GenericInstanceKey LayoutEdge)}
    (hrecords : ∀ record ∈ records, record = treeRecord ∨ record = forestRecord)
    (htree : ⟨0⟩ ∈ named closings) (hforest : ⟨1⟩ ∈ named closings) :
    AllNamed records [] closings := by
  have hdeclared : ∀ item decl, (declared records []).lookup item = some decl →
      decl = recordDecl treeRecord ∧ item = ⟨0⟩ ∨ decl = recordDecl forestRecord ∧ item = ⟨1⟩ := by
    intro item decl h
    have hmem := mem_of_collectDecls_lookup h
    simp only [declarations, List.map_nil, List.append_nil, List.mem_map, Prod.mk.injEq] at hmem
    obtain ⟨record, hrecord, rfl, rfl⟩ := hmem
    rcases hrecords record hrecord with rfl | rfl
    · exact .inl ⟨rfl, rfl⟩
    · exact .inr ⟨rfl, rfl⟩
  have hnamed : ∀ item, item = ⟨0⟩ ∨ item = ⟨1⟩ → item ∈ named closings := by
    rintro item (rfl | rfl)
    · exact htree
    · exact hforest
  intro start hstart
  apply Graph.loops_subset_labels
  · intro n m hleads
    obtain ⟨decl, hdecl, field, hfield, htarget⟩ := leads_iff.mp hleads
    apply hnamed
    rcases hdeclared _ decl hdecl with ⟨rfl, -⟩ | ⟨rfl, -⟩
    · obtain rfl : field = (.applied ⟨1⟩ [.param ⟨0⟩], "kids") := by
        simpa [recordDecl, treeRecord] using hfield
      cases htarget
      exact .inr rfl
    · obtain rfl | rfl : field = (.applied ⟨0⟩ [.param ⟨1⟩], "head") ∨
          field = (.applied ⟨1⟩ [.param ⟨1⟩], "rest") := by
        simpa [recordDecl, forestRecord] using hfield
      · cases htarget
        exact .inl rfl
      · cases htarget
        exact .inr rfl
  · intro item hitem
    obtain ⟨⟨id, decl⟩, -, hself⟩ := List.mem_filterMap.mp hstart
    obtain ⟨decl', hdecl, rfl⟩ := Option.map_eq_some_iff.mp hself
    rw [List.mem_singleton.mp hitem]
    exact hnamed _ ((hdeclared id decl' hdecl).imp And.right And.right)

theorem nothingHidden_tree_forest {records : List HirRecord}
    (h : records = [treeRecord, forestRecord] ∨ records = [forestRecord, treeRecord]) :
    NothingHidden records [] := by
  rcases h with rfl | rfl
  all_goals
    refine .of_second rfl ?_
    rintro entered rfl
    refine ⟨fun s hs => ?_, allNamed_tree_forest (by simp) ?_ ?_⟩
    · rcases List.mem_pair.mp hs with rfl | rfl
      · exact skipless_of_stack rfl rfl rfl (.inr rfl)
      · exact skipless_of_stack rfl rfl rfl (.inl rfl)
    · show ∃ d ∈ _, _
      decide +kernel
    · show ∃ d ∈ _, _
      decide +kernel

end Napitia.Typeck
