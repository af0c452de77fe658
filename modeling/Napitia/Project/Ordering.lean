import Mathlib.Data.List.Lex
import Mathlib.Data.List.ReduceOption
import Mathlib.Data.Prod.Lex
import Mathlib.Data.Char
import Napitia.Lexer.Token
import Napitia.Lib.Kahn
import Napitia.Lib.CycleSearch
import Napitia.Project.ModulePath

/-!
# The order of the modules

The modules of a project are put in an order in which each comes behind the modules it imports,
the one whose dotted path is the least first where there is a choice. Where there is no such
order a cycle of imports is reported. What a module holds besides its imports is not modelled.
-/
namespace Napitia.Project
open Lexer

structure ModuleId where
  index : ℕ
  deriving DecidableEq, Repr

structure LoadedModule where
  id : ModuleId
  path : ModulePath
  source : ℕ

structure ImportRef where
  importingModule : ModuleId
  segments : List (List Char)
  span : Span

/-- All segments but the last name a module, and the last an item of it. -/
def splitImportPath (segments : List (List Char)) : Option (List (List Char) × List Char) :=
  if segments.length < 2 then none
  else segments.getLast?.map fun item => (segments.dropLast, item)

/-- The modules found from the entry. Two of them have one dotted path only where one is the entry,
which was found first. -/
structure LoadedModules where
  modules : List LoadedModule
  imports : List ImportRef
  byPath : List Char → Option ModuleId
  entry : ModuleId
  ids_nodup : (modules.map (·.id)).Nodup
  importing : ∀ i ∈ imports, ∃ m ∈ modules, m.id = i.importingModule
  found : ∀ dotted id, byPath dotted = some id → ∃ m ∈ modules, m.id = id
  distinct : ∀ m ∈ modules, ∀ m' ∈ modules, m.path.dotted = m'.path.dotted →
    m.id = m'.id ∨ m.id = entry ∨ m'.id = entry
  entry_first : ∀ m ∈ modules, entry.index ≤ m.id.index

/-- A module as it is compared: by its dotted path, then by its number. -/
abbrev Named := List Char ×ₗ ℕ

def Named.dotted (n : Named) : List Char := (ofLex n).1

def Named.id (n : Named) : ModuleId := ⟨(ofLex n).2⟩

def LoadedModule.named (m : LoadedModule) : Named := toLex (m.path.dotted, m.id.index)

structure CycleError where
  /-- The dotted paths along the cycle, the first one again at the end. -/
  chain : List (List Char)
  source : ℕ
  span : Span
  deriving DecidableEq

def CycleError.message (e : CycleError) : String :=
  "module import cycle: " ++ " -> ".intercalate (e.chain.map String.ofList)

namespace LoadedModules
variable (L : LoadedModules)

def find (id : ModuleId) : Option LoadedModule := L.modules.find? fun m => m.id = id

/-- The module an import names, if it was found. -/
def targetOf (i : ImportRef) : Option ModuleId :=
  (splitImportPath i.segments).bind fun target => L.byPath (List.intercalate ['.'] target.1)

/-- The edge of an import, from the importing module; one to a module that was not found is none. -/
def edgeOf (i : ImportRef) : Option (Option (Named × Named)) :=
  match L.targetOf i with
  | none => some none
  | some target => do
    let importer ← L.find i.importingModule
    let imported ← L.find target
    some (some (importer.named, imported.named))

def edges : Option (List (Named × Named)) := (L.imports.mapM L.edgeOf).map List.reduceOption

def nodes : Finset Named := (L.modules.map (·.named)).toFinset

/-- What a module imports, each once. -/
def deps (edges : List (Named × Named)) (n : Named) : Finset Named :=
  ((edges.filter fun edge => edge.1 = n).map Prod.snd).toFinset

/-- The import that makes an edge. -/
def importOf (source target : Named) : Option ImportRef :=
  L.imports.find? fun i => i.importingModule = source.id ∧
    (splitImportPath i.segments).any fun split => List.intercalate ['.'] split.1 = target.dotted

/-- A cycle is reported at the import that closes it. -/
def cycleError (w : CycleSearch.Witness Named) : Option CycleError := do
  let first ← w.cycle.head?
  let chain := (w.cycle ++ [first]).map Named.dotted
  match L.importOf w.source w.target with
  | some i =>
    let importer ← L.find w.source.id
    some ⟨chain, importer.source, i.span⟩
  | none =>
    let first ← L.modules.head?
    some ⟨chain, first.source, .empty 0⟩

/-- The imports among the modules that were not placed, the least first. -/
def residualTargets (edges : List (Named × Named)) (residual : Finset Named) (n : Named) :
    List Named := (deps edges n ∩ residual).sort

/-- It has no result where the source would panic. -/
def topologicalOrder : Option (Except CycleError (List ModuleId)) := do
  let edges ← L.edges
  let order ← Kahn.run L.nodes (deps edges) L.modules.length (Kahn.start L.nodes (deps edges))
  if order.length = L.modules.length then some (.ok (order.map Named.id))
  else
    let residual := L.nodes \ order.toFinset
    let targets := residualTargets edges residual
    let witness ← (CycleSearch.search targets (CycleSearch.enough targets residual) residual.sort
      fun n => if n ∈ residual then .white else .black).join
    let error ← L.cycleError witness
    some (.error error)

/-- The modules in that order, each taken out once. -/
def reorder : List LoadedModule → List ModuleId → Option (List LoadedModule)
  | _, [] => some []
  | modules, id :: order =>
    match modules.find? fun m => m.id = id with
    | none => none
    | some m => (reorder (modules.filter fun m => m.id ≠ id) order).map (m :: ·)

/-! ### Modules, imports and edges -/

/-- One module imports another. -/
def Imports (a b : LoadedModule) : Prop :=
  a ∈ L.modules ∧ b ∈ L.modules ∧
    ∃ i ∈ L.imports, i.importingModule = a.id ∧ L.targetOf i = some b.id

/-- No module imports itself, through however many others. -/
def Acyclic : Prop := ∀ m, ¬Relation.TransGen L.Imports m m

variable {L}

theorem eq_of_id {a b : LoadedModule} (ha : a ∈ L.modules) (hb : b ∈ L.modules)
    (h : a.id = b.id) : a = b := List.inj_on_of_nodup_map L.ids_nodup ha hb h

theorem named_inj {a b : LoadedModule} (ha : a ∈ L.modules) (hb : b ∈ L.modules)
    (h : a.named = b.named) : a = b := by
  refine eq_of_id ha hb ?_
  have hid := congrArg Named.id h
  exact hid

theorem find_id {m : LoadedModule} (hm : m ∈ L.modules) : L.find m.id = some m := by
  have hsome : (L.find m.id).isSome := by
    rw [find, List.find?_isSome]
    exact ⟨m, hm, by simp⟩
  obtain ⟨m', hfind⟩ := Option.isSome_iff_exists.mp hsome
  have hid : m'.id = m.id := by simpa using List.find?_some hfind
  rw [hfind, eq_of_id (List.mem_of_find?_eq_some hfind) hm hid]

theorem mem_nodes {n : Named} : n ∈ L.nodes ↔ ∃ m ∈ L.modules, m.named = n := by
  simp [nodes]

theorem card_nodes : L.nodes.card = L.modules.length := by
  have hnodup : (L.modules.map (·.named)).Nodup := by
    refine List.Nodup.map_on (fun a ha b hb hab => named_inj ha hb hab) ?_
    exact L.ids_nodup.of_map
  rw [nodes, List.toFinset_card_of_nodup hnodup, List.length_map]

theorem edgeOf_eq_some {i : ImportRef} (hi : i ∈ L.imports) :
    ∃ edge, L.edgeOf i = some edge ∧ ∀ n m, edge = some (n, m) ↔
      ∃ a ∈ L.modules, ∃ b ∈ L.modules, i.importingModule = a.id ∧ L.targetOf i = some b.id ∧
        n = a.named ∧ m = b.named := by
  obtain ⟨a, ha, himporter⟩ := L.importing i hi
  unfold edgeOf
  cases htarget : L.targetOf i with
  | none =>
    refine ⟨none, rfl, fun n m => iff_of_false (fun h => by cases h) ?_⟩
    rintro ⟨-, -, b, -, -, h, -⟩
    cases h
  | some id =>
    obtain ⟨split, -, hfound⟩ := Option.bind_eq_some_iff.mp htarget
    obtain ⟨b, hb, rfl⟩ := L.found _ _ hfound
    refine ⟨some (a.named, b.named), ?_, fun n m => ⟨?_, ?_⟩⟩
    · simp [← himporter, find_id ha, find_id hb]
    · rintro ⟨⟩
      exact ⟨a, ha, b, hb, himporter.symm, rfl, rfl, rfl⟩
    · rintro ⟨a', ha', b', hb', himporter', hid, rfl, rfl⟩
      rw [eq_of_id ha' ha (himporter'.symm.trans himporter.symm),
        eq_of_id hb hb' (Option.some.inj hid)]

theorem mapM_edgeOf {imports : List ImportRef} (hmem : ∀ i ∈ imports, i ∈ L.imports) :
    ∃ found, imports.mapM L.edgeOf = some found ∧
      ∀ edge, edge ∈ found ↔ ∃ i ∈ imports, L.edgeOf i = some edge := by
  induction imports with
  | nil => exact ⟨[], rfl, by simp⟩
  | cons i imports ih =>
    obtain ⟨edge, hedge, -⟩ := edgeOf_eq_some (hmem i List.mem_cons_self)
    obtain ⟨found, hfound, hiff⟩ := ih fun j hj => hmem j (List.mem_cons_of_mem _ hj)
    refine ⟨edge :: found, ?_, fun e => ?_⟩
    · rw [List.mapM_cons, hedge, hfound]
      rfl
    · rw [List.mem_cons, hiff]
      simp [hedge, eq_comm]

theorem edges_eq_some :
    ∃ edges, L.edges = some edges ∧ ∀ n m, (n, m) ∈ edges ↔
      ∃ a b, L.Imports a b ∧ n = a.named ∧ m = b.named := by
  obtain ⟨found, hfound, hiff⟩ := mapM_edgeOf fun i (hi : i ∈ L.imports) => hi
  refine ⟨found.reduceOption, by rw [edges, hfound]; rfl, fun n m => ?_⟩
  rw [List.reduceOption_mem_iff, hiff]
  refine ⟨?_, ?_⟩
  · rintro ⟨i, hi, hedge⟩
    obtain ⟨edge, hedge', hspec⟩ := edgeOf_eq_some hi
    obtain ⟨a, ha, b, hb, himporter, htarget, hn, hm⟩ :=
      (hspec n m).mp (Option.some.inj (hedge'.symm.trans hedge))
    exact ⟨a, b, ⟨ha, hb, i, hi, himporter, htarget⟩, hn, hm⟩
  · rintro ⟨a, b, ⟨ha, hb, i, hi, himporter, htarget⟩, hn, hm⟩
    obtain ⟨edge, hedge, hspec⟩ := edgeOf_eq_some hi
    rw [(hspec n m).mpr ⟨a, ha, b, hb, himporter, htarget, hn, hm⟩] at hedge
    exact ⟨i, hi, hedge⟩

/-- These are the edges of the imports. -/
def IsEdges (L : LoadedModules) (edges : List (Named × Named)) : Prop :=
  ∀ n m, (n, m) ∈ edges ↔ ∃ a b, L.Imports a b ∧ n = a.named ∧ m = b.named

section
variable {edges : List (Named × Named)}

theorem mem_deps {n m : Named} : m ∈ deps edges n ↔ (n, m) ∈ edges := by
  simp [deps]

theorem IsEdges.mem_deps_named (h : L.IsEdges edges) {a b : LoadedModule} (ha : a ∈ L.modules)
    (hb : b ∈ L.modules) : b.named ∈ deps edges a.named ↔ L.Imports a b := by
  rw [mem_deps, h]
  refine ⟨?_, fun himports => ⟨a, b, himports, rfl, rfl⟩⟩
  rintro ⟨a', b', himports, hn, hm⟩
  rwa [named_inj ha himports.1 hn, named_inj hb himports.2.1 hm]

theorem IsEdges.deps_subset (h : L.IsEdges edges) (n : Named) : deps edges n ⊆ L.nodes := by
  intro m hm
  obtain ⟨a, b, himports, -, rfl⟩ := (h n m).mp (mem_deps.mp hm)
  exact mem_nodes.mpr ⟨b, himports.2.1, rfl⟩

/-! ### What is placed -/

theorem IsEdges.run (L : LoadedModules) (edges : List (Named × Named)) :
    ∃ t, Kahn.run L.nodes (deps edges) L.modules.length (Kahn.start L.nodes (deps edges)) =
        some t.order ∧ Kahn.Inv L.nodes (deps edges) t ∧ t.ready = ∅ ∧
      t.order = Kahn.greedy L.nodes (deps edges) L.modules.length [] := by
  refine Kahn.inv_start.run ?_
  rw [card_nodes]
  exact Nat.le_add_right _ _

end

/-- An order of all modules in which each stands behind those it imports. -/
structure IsOrder (L : LoadedModules) (order : List ModuleId) : Prop where
  perm : order.Perm (L.modules.map (·.id))
  first : ∀ a b, L.Imports a b → order.idxOf b.id < order.idxOf a.id

theorem named_id {m : LoadedModule} : m.named.id = m.id := rfl

theorem isOrder_of_inv {edges : List (Named × Named)} (hedges : L.IsEdges edges)
    {t : Kahn.State Named} (h : Kahn.Inv L.nodes (deps edges) t)
    (hlength : t.order.length = L.modules.length) : L.IsOrder (t.order.map Named.id) := by
  have hall : t.order.toFinset = L.nodes := by
    refine Finset.eq_of_subset_of_card_le (fun n hn => h.subset n (List.mem_toFinset.mp hn)) ?_
    rw [List.toFinset_card_of_nodup h.nodup, card_nodes, hlength]
  have hmem : ∀ m ∈ L.modules, m.named ∈ t.order := fun m hm =>
    List.mem_toFinset.mp (hall ▸ mem_nodes.mpr ⟨m, hm, rfl⟩)
  have hinj : ∀ n ∈ t.order, ∀ n' ∈ t.order, n.id = n'.id → n = n' := by
    intro n hn n' hn' hid
    obtain ⟨m, hm, rfl⟩ := mem_nodes.mp (h.subset n hn)
    obtain ⟨m', hm', rfl⟩ := mem_nodes.mp (h.subset n' hn')
    rw [eq_of_id hm hm' hid]
  have hnodup : (t.order.map Named.id).Nodup :=
    h.nodup.map_on fun n hn n' hn' hid => hinj n hn n' hn' hid
  refine ⟨?_, ?_⟩
  · refine (List.perm_ext_iff_of_nodup hnodup L.ids_nodup).mpr fun id => ?_
    refine ⟨fun hid => ?_, fun hid => ?_⟩
    · obtain ⟨n, hn, rfl⟩ := List.mem_map.mp hid
      obtain ⟨m, hm, rfl⟩ := mem_nodes.mp (h.subset n hn)
      exact List.mem_map.mpr ⟨m, hm, rfl⟩
    · obtain ⟨m, hm, rfl⟩ := List.mem_map.mp hid
      exact List.mem_map.mpr ⟨m.named, hmem m hm, rfl⟩
  · intro a b himports
    obtain ⟨before, after, heq⟩ := List.append_of_mem (hmem a himports.1)
    have hdep := (hedges.mem_deps_named himports.1 himports.2.1).mpr himports
    have hbefore := h.first before a.named after heq b.named hdep
    have hnotin : a.id ∉ before.map Named.id := by
      intro hmem'
      obtain ⟨n, hn, hid⟩ := List.mem_map.mp hmem'
      have hn' : n ∈ t.order := heq ▸ List.mem_append_left _ hn
      have hsame := hinj n hn' a.named (hmem a himports.1) hid
      rw [hsame] at hn
      have := h.nodup
      rw [heq] at this
      exact (List.nodup_append.mp this).2.2 a.named hn a.named List.mem_cons_self rfl
    have hb : b.id ∈ before.map Named.id := List.mem_map.mpr ⟨b.named, hbefore, named_id⟩
    rw [heq, List.map_append, List.idxOf_append_of_mem hb, List.idxOf_append_of_notMem hnotin]
    exact (List.idxOf_lt_length_of_mem hb).trans_le (Nat.le_add_right _ _)

theorem reorder_eq_some {modules : List LoadedModule} {order : List ModuleId}
    (hnodup : (modules.map (·.id)).Nodup) (hperm : order.Perm (modules.map (·.id))) :
    ∃ ms, reorder modules order = some ms ∧ ms.map (·.id) = order ∧ ∀ m ∈ ms, m ∈ modules := by
  induction order generalizing modules with
  | nil => exact ⟨[], rfl, rfl, by simp⟩
  | cons id order ih =>
    obtain ⟨m, hm, hid⟩ := List.mem_map.mp (hperm.subset List.mem_cons_self)
    have hsome : (modules.find? fun m => m.id = id).isSome := by
      rw [List.find?_isSome]
      exact ⟨m, hm, by simp [hid]⟩
    obtain ⟨m', hfind⟩ := Option.isSome_iff_exists.mp hsome
    have hid' : m'.id = id := by simpa using List.find?_some hfind
    have herase : (modules.filter fun m => m.id ≠ id).map (·.id) =
        (modules.map (·.id)).erase id := by
      rw [hnodup.erase_eq_filter, List.filter_map]
      congr 1
      refine List.filter_congr fun k _ => ?_
      by_cases hk : k.id = id <;> simp [hk]
    have hperm' : order.Perm ((modules.filter fun m => m.id ≠ id).map (·.id)) := by
      rw [herase]
      simpa using hperm.erase id
    obtain ⟨ms, hms, hids, hmem⟩ := ih (herase ▸ hnodup.erase id) hperm'
    refine ⟨m' :: ms, ?_, by rw [List.map_cons, hids, hid'], fun k hk => ?_⟩
    · rw [reorder, hfind, hms]
      rfl
    · rcases List.mem_cons.mp hk with rfl | hk
      · exact List.mem_of_find?_eq_some hfind
      · exact List.mem_of_mem_filter (hmem k hk)

theorem IsOrder.reorder {order : List ModuleId} (h : L.IsOrder order) :
    ∃ ms, reorder L.modules order = some ms ∧ ms.map (·.id) = order ∧ ∀ m ∈ ms, m ∈ L.modules :=
  reorder_eq_some L.ids_nodup h.perm

/-! ### Cycles -/

/-- The dotted paths along a closed chain of imports. -/
def IsCycle (L : LoadedModules) (chain : List (List Char)) : Prop :=
  ∃ (first : LoadedModule) (cycle : List LoadedModule),
    (first :: cycle ++ [first]).IsChain L.Imports ∧
      chain = (first :: cycle ++ [first]).map (·.path.dotted)

theorem mem_residualTargets {edges : List (Named × Named)} {residual : Finset Named}
    {n m : Named} :
    m ∈ residualTargets edges residual n ↔ m ∈ deps edges n ∧ m ∈ residual := by
  simp [residualTargets]

theorem mem_of_isChain {m target : LoadedModule} {ms : List LoadedModule}
    (h : (m :: ms ++ [target]).IsChain L.Imports) : m ∈ L.modules := by
  cases ms with
  | nil => exact (List.isChain_pair.mp h).1
  | cons m' ms => exact (List.isChain_cons_cons.mp h).1.1

theorem IsEdges.imports_of_mem {edges : List (Named × Named)} (hedges : L.IsEdges edges)
    {residual : Finset Named} {n m : Named} (h : m ∈ residualTargets edges residual n) :
    ∃ a b, L.Imports a b ∧ n = a.named ∧ m = b.named :=
  (hedges n m).mp (mem_deps.mp (mem_residualTargets.mp h).1)

theorem exists_chain {edges : List (Named × Named)} (hedges : L.IsEdges edges)
    {residual : Finset Named} {target : LoadedModule} (htarget : target ∈ L.modules)
    {ns : List Named} {last : Named} (hlast : ns.getLast? = some last)
    (hchain : ns.IsChain (fun a b => b ∈ residualTargets edges residual a))
    (hclosing : target.named ∈ residualTargets edges residual last) :
    ∃ ms : List LoadedModule, ns = ms.map (·.named) ∧ (ms ++ [target]).IsChain L.Imports := by
  induction ns with
  | nil => cases hlast
  | cons n ns ih =>
    cases ns with
    | nil =>
      obtain rfl : n = last := by simpa using hlast
      obtain ⟨a, b, himports, rfl, hb⟩ := hedges.imports_of_mem hclosing
      rw [← named_inj htarget himports.2.1 hb] at himports
      exact ⟨[a], rfl, List.isChain_pair.mpr himports⟩
    | cons n' ns =>
      obtain ⟨hfirst, hrest⟩ := List.isChain_cons_cons.mp hchain
      obtain ⟨ms, hms, hchain'⟩ := ih (by simpa using hlast) hrest
      obtain ⟨a, b, himports, rfl, hb⟩ := hedges.imports_of_mem hfirst
      cases ms with
      | nil => cases hms
      | cons m ms =>
        obtain ⟨hm, hms⟩ := List.cons.inj hms
        have hbm : b = m := named_inj himports.2.1 (mem_of_isChain hchain') (hb.symm.trans hm)
        refine ⟨a :: m :: ms, by rw [hms, hm]; rfl, ?_⟩
        exact List.isChain_cons_cons.mpr ⟨hbm ▸ himports, hchain'⟩

theorem exists_cycle {edges : List (Named × Named)} (hedges : L.IsEdges edges)
    {residual : Finset Named} {w : CycleSearch.Witness Named}
    (h : w.Closes (residualTargets edges residual)) :
    ∃ (first : LoadedModule) (cycle : List LoadedModule),
      w.cycle = (first :: cycle).map (·.named) ∧ (first :: cycle ++ [first]).IsChain L.Imports := by
  obtain ⟨a, first, himports, -, hfirst⟩ := hedges.imports_of_mem h.closing
  obtain ⟨ms, hms, hchain⟩ :=
    exists_chain hedges himports.2.1 h.last h.chain (hfirst ▸ h.closing)
  cases ms with
  | nil =>
    have hlast := h.last
    rw [hms] at hlast
    cases hlast
  | cons m ms =>
    have hhead := h.first
    rw [hms, List.map_cons, List.head?_cons, hfirst] at hhead
    have hm : m = first :=
      named_inj (mem_of_isChain hchain) himports.2.1 (Option.some.inj hhead)
    rw [hm] at hms hchain
    exact ⟨first, ms, hms, hchain⟩

theorem cycleError_eq_some {edges : List (Named × Named)} (hedges : L.IsEdges edges)
    {residual : Finset Named} {w : CycleSearch.Witness Named}
    (h : w.Closes (residualTargets edges residual)) :
    ∃ e, L.cycleError w = some e ∧ L.IsCycle e.chain ∧
      e.chain = (w.cycle ++ [w.target]).map Named.dotted := by
  obtain ⟨first, cycle, hcycle, hchain⟩ := exists_cycle hedges h
  obtain ⟨a, b, himports, hsource, -⟩ := hedges.imports_of_mem h.closing
  have hdotted : (w.cycle ++ [w.target]).map Named.dotted =
      (first :: cycle ++ [first]).map (·.path.dotted) := by
    have htarget : w.target = first.named := by
      have hhead := h.first
      rw [hcycle] at hhead
      exact (Option.some.inj hhead).symm
    rw [htarget, hcycle, List.map_append, List.map_append, List.map_map]
    rfl
  have hhead := h.first
  have hreport : ∃ e, L.cycleError w = some e ∧
      e.chain = (w.cycle ++ [w.target]).map Named.dotted := by
    unfold cycleError
    rw [hhead]
    cases L.importOf w.source w.target with
    | some i =>
      refine ⟨⟨_, a.source, i.span⟩, ?_, rfl⟩
      simp only [Option.bind_eq_bind, Option.bind_some]
      rw [hsource, named_id, find_id himports.1]
      rfl
    | none =>
      obtain ⟨m, ms, hms⟩ := List.exists_cons_of_ne_nil (List.ne_nil_of_mem himports.1)
      refine ⟨⟨_, m.source, .empty 0⟩, ?_, rfl⟩
      simp [hms]
  obtain ⟨e, he, hechain⟩ := hreport
  exact ⟨e, he, ⟨first, cycle, hchain, hechain.trans hdotted⟩, hechain⟩

theorem transGen_of_isChain {a b : LoadedModule} {ms : List LoadedModule}
    (h : (a :: ms ++ [b]).IsChain L.Imports) : Relation.TransGen L.Imports a b := by
  induction ms generalizing a with
  | nil => exact .single (List.isChain_pair.mp h)
  | cons m ms ih =>
    obtain ⟨hfirst, hrest⟩ := List.isChain_cons_cons.mp h
    exact .head hfirst (ih hrest)

theorem not_acyclic_of_isCycle {chain : List (List Char)} (h : L.IsCycle chain) : ¬L.Acyclic := by
  obtain ⟨first, cycle, hchain, -⟩ := h
  exact fun hacyclic => hacyclic first (transGen_of_isChain hchain)

theorem acyclic_of_isOrder {order : List ModuleId} (h : L.IsOrder order) : L.Acyclic := by
  have hless {a b : LoadedModule} (hab : Relation.TransGen L.Imports a b) :
      order.idxOf b.id < order.idxOf a.id := by
    induction hab with
    | single himports => exact h.first _ _ himports
    | tail _ himports ih => exact (h.first _ _ himports).trans ih
  exact fun m hm => (hless hm).false

/-! ### The order or the cycle -/

theorem exists_witness {edges : List (Named × Named)} (hedges : L.IsEdges edges)
    {t : Kahn.State Named} (h : Kahn.Inv L.nodes (deps edges) t) (hempty : t.ready = ∅)
    (hlength : t.order.length ≠ L.modules.length) :
    ∃ w, CycleSearch.search (residualTargets edges (L.nodes \ t.order.toFinset))
        (CycleSearch.enough (residualTargets edges (L.nodes \ t.order.toFinset))
          (L.nodes \ t.order.toFinset)) (L.nodes \ t.order.toFinset).sort
        (fun n => if n ∈ L.nodes \ t.order.toFinset then .white else .black) = some (some w) ∧
      w.Closes (residualTargets edges (L.nodes \ t.order.toFinset)) := by
  have hclosed : ∀ n ∈ L.nodes \ t.order.toFinset,
      ∀ m ∈ residualTargets edges (L.nodes \ t.order.toFinset) n, m ∈ L.nodes \ t.order.toFinset :=
    fun n _ m hm => (mem_residualTargets.mp hm).2
  have hunvisited : CycleSearch.Inv (residualTargets edges (L.nodes \ t.order.toFinset))
      (L.nodes \ t.order.toFinset)
      (fun n => if n ∈ L.nodes \ t.order.toFinset then .white else .black) [] [] :=
    CycleSearch.inv_unvisited (fun n hn => if_pos hn) (fun n hn => if_neg hn)
  rcases hunvisited.search hclosed (fun n hn => (Finset.mem_sort (· ≤ ·)).mp hn) with
    ⟨-, hfinishes⟩ | hfound
  · exfalso
    obtain ⟨n, hn⟩ : (L.nodes \ t.order.toFinset).Nonempty := by
      rw [Finset.sdiff_nonempty]
      intro hsub
      have hle := Finset.card_le_card hsub
      rw [List.toFinset_card_of_nodup h.nodup, card_nodes] at hle
      have := h.length_le
      rw [card_nodes] at this
      omega
    refine (hfinishes n ((Finset.mem_sort (· ≤ ·)).mpr hn)).not_of_forall hn fun m hm => ?_
    obtain ⟨hm, hout⟩ := Finset.mem_sdiff.mp hm
    obtain ⟨d, hd, hnode, hout'⟩ := h.waits hempty (fun k _ => hedges.deps_subset k) hm
      fun hmem => hout (List.mem_toFinset.mpr hmem)
    have hresidual : d ∈ L.nodes \ t.order.toFinset :=
      Finset.mem_sdiff.mpr ⟨hnode, fun hmem => hout' (List.mem_toFinset.mp hmem)⟩
    exact ⟨d, mem_residualTargets.mpr ⟨hd, hresidual⟩, hresidual⟩
  · exact hfound

theorem topologicalOrder_eq (L : LoadedModules) :
    ∃ edges t, L.edges = some edges ∧ L.IsEdges edges ∧ Kahn.Inv L.nodes (deps edges) t ∧
      t.order = Kahn.greedy L.nodes (deps edges) L.modules.length [] ∧
      (t.order.length = L.modules.length ∧
          L.topologicalOrder = some (.ok (t.order.map Named.id)) ∨
        t.order.length ≠ L.modules.length ∧
          ∃ w e, CycleSearch.search (residualTargets edges (L.nodes \ t.order.toFinset))
              (CycleSearch.enough (residualTargets edges (L.nodes \ t.order.toFinset))
                (L.nodes \ t.order.toFinset)) (L.nodes \ t.order.toFinset).sort
              (fun n => if n ∈ L.nodes \ t.order.toFinset then .white else .black) =
                some (some w) ∧
            w.Closes (residualTargets edges (L.nodes \ t.order.toFinset)) ∧
            L.cycleError w = some e ∧ L.topologicalOrder = some (.error e)) := by
  obtain ⟨edges, hedges, hspec⟩ := L.edges_eq_some
  obtain ⟨t, hrun, hinv, hempty, hgreedy⟩ := IsEdges.run L edges
  refine ⟨edges, t, hedges, hspec, hinv, hgreedy, ?_⟩
  by_cases hlength : t.order.length = L.modules.length
  · refine Or.inl ⟨hlength, ?_⟩
    simp [topologicalOrder, hedges, hrun, hlength]
  · obtain ⟨w, hsearch, hw⟩ := exists_witness hspec hinv hempty hlength
    obtain ⟨e, he, -, -⟩ := cycleError_eq_some hspec hw
    refine Or.inr ⟨hlength, w, e, hsearch, hw, he, ?_⟩
    simp only [topologicalOrder, hedges, hrun, Option.bind_eq_bind, Option.bind_some, if_neg hlength,
      hsearch, Option.join_some, he]

/-! ### Renumbered modules -/

/-- The same modules and imports, found in another order and numbered otherwise. -/
structure Renumbers (L L' : LoadedModules) (f : ModuleId → ModuleId) : Prop where
  modules : ∀ m ∈ L.modules, ∃ m' ∈ L'.modules, m'.id = f m.id ∧ m'.path = m.path
  onto : ∀ m' ∈ L'.modules, ∃ m ∈ L.modules, m'.id = f m.id
  injOn : ∀ a ∈ L.modules, ∀ b ∈ L.modules, f a.id = f b.id → a.id = b.id
  imports : ∀ a ∈ L.modules, ∀ b ∈ L.modules, ∀ a' ∈ L'.modules, ∀ b' ∈ L'.modules,
    a'.id = f a.id → b'.id = f b.id → (L'.Imports a' b' ↔ L.Imports a b)
  entry : f L.entry = L'.entry

/-- A module under its other number. -/
def renamed (f : ModuleId → ModuleId) (n : Named) : Named := toLex (n.dotted, (f n.id).index)

namespace Renumbers
variable {L' : LoadedModules} {f : ModuleId → ModuleId}

theorem exists_named (h : Renumbers L L' f) {m : LoadedModule} (hm : m ∈ L.modules) :
    ∃ m' ∈ L'.modules, m'.id = f m.id ∧ m'.named = renamed f m.named := by
  obtain ⟨m', hm', hid, hpath⟩ := h.modules m hm
  refine ⟨m', hm', hid, ?_⟩
  unfold renamed LoadedModule.named
  rw [hid, hpath]
  rfl

theorem renamed_lt (h : Renumbers L L' f) {a b : LoadedModule} (ha : a ∈ L.modules)
    (hb : b ∈ L.modules) (hab : a.named < b.named) : renamed f a.named < renamed f b.named := by
  rcases Prod.Lex.toLex_lt_toLex.mp hab with hlt | ⟨heq, hlt⟩
  · exact Prod.Lex.toLex_lt_toLex.mpr (Or.inl hlt)
  · refine Prod.Lex.toLex_lt_toLex.mpr (Or.inr ⟨heq, ?_⟩)
    rcases L.distinct a ha b hb heq with hsame | hentry | hentry
    · rw [hsame] at hlt
      exact absurd hlt (lt_irrefl _)
    · obtain ⟨b', hb', hid, -⟩ := h.exists_named hb
      change (f a.id).index < (f b.id).index
      rw [hentry, h.entry, ← hid]
      refine (L'.entry_first b' hb').lt_of_ne fun hindex => ?_
      have hfb : f b.id = f a.id := by
        rw [← hid, hentry, h.entry]
        exact congrArg ModuleId.mk hindex.symm
      have hba := h.injOn b hb a ha hfb
      rw [hba] at hlt
      exact lt_irrefl _ hlt
    · have hle := L.entry_first a ha
      rw [← hentry] at hle
      exact absurd hlt (Nat.not_lt.mpr hle)

theorem kahn (h : Renumbers L L' f) {edges edges' : List (Named × Named)}
    (hedges : L.IsEdges edges) (hedges' : L'.IsEdges edges') :
    Kahn.Renames (renamed f) L.nodes (deps edges) L'.nodes (deps edges') := by
  refine ⟨?_, ?_, ?_, fun n _ => hedges.deps_subset n⟩
  · intro n hn m hm hlt
    obtain ⟨a, ha, rfl⟩ := mem_nodes.mp hn
    obtain ⟨b, hb, rfl⟩ := mem_nodes.mp hm
    exact h.renamed_lt ha hb hlt
  · intro n
    rw [mem_nodes]
    refine ⟨?_, ?_⟩
    · rintro ⟨m', hm', rfl⟩
      obtain ⟨m, hm, hid⟩ := h.onto m' hm'
      obtain ⟨m'', hm'', hid', hnamed⟩ := h.exists_named hm
      refine ⟨m.named, mem_nodes.mpr ⟨m, hm, rfl⟩, ?_⟩
      rw [eq_of_id hm' hm'' (hid.trans hid'.symm), hnamed]
    · rintro ⟨n, hn, rfl⟩
      obtain ⟨m, hm, rfl⟩ := mem_nodes.mp hn
      obtain ⟨m', hm', -, hnamed⟩ := h.exists_named hm
      exact ⟨m', hm', hnamed⟩
  · intro n hn
    obtain ⟨a, ha, rfl⟩ := mem_nodes.mp hn
    obtain ⟨a', ha', hida, hnameda⟩ := h.exists_named ha
    rw [← hnameda]
    intro m
    refine ⟨fun hm => ?_, ?_⟩
    · obtain ⟨b', hb', rfl⟩ := mem_nodes.mp (hedges'.deps_subset _ hm)
      obtain ⟨b, hb, hidb⟩ := h.onto b' hb'
      obtain ⟨b'', hb'', hidb', hnamedb⟩ := h.exists_named hb
      have himports := (hedges'.mem_deps_named ha' hb').mp hm
      refine ⟨b.named, (hedges.mem_deps_named ha hb).mpr
        ((h.imports a ha b hb a' ha' b' hb' hida hidb).mp himports), ?_⟩
      rw [eq_of_id hb' hb'' (hidb.trans hidb'.symm), hnamedb]
    · rintro ⟨m, hm, rfl⟩
      obtain ⟨b, hb, rfl⟩ := mem_nodes.mp (hedges.deps_subset _ hm)
      obtain ⟨b', hb', hidb, hnamedb⟩ := h.exists_named hb
      rw [← hnamedb]
      exact (hedges'.mem_deps_named ha' hb').mpr ((h.imports a ha b hb a' ha' b' hb' hida hidb).mpr
        ((hedges.mem_deps_named ha hb).mp hm))

theorem length (h : Renumbers L L' f) {edges edges' : List (Named × Named)}
    (hedges : L.IsEdges edges) (hedges' : L'.IsEdges edges') :
    L'.modules.length = L.modules.length := by
  rw [← card_nodes, ← card_nodes]
  exact (h.kahn hedges hedges').card_eq

theorem mem_residual (h : Renumbers L L' f) {edges edges' : List (Named × Named)}
    (hedges : L.IsEdges edges) (hedges' : L'.IsEdges edges') {order : List Named}
    (horder : ∀ n ∈ order, n ∈ L.nodes) (m : Named) :
    m ∈ L'.nodes \ (order.map (renamed f)).toFinset ↔
      ∃ n ∈ L.nodes \ order.toFinset, renamed f n = m := by
  have hkahn := h.kahn hedges hedges'
  rw [Finset.mem_sdiff, List.mem_toFinset, hkahn.mem_nodes]
  refine ⟨?_, ?_⟩
  · rintro ⟨⟨n, hn, rfl⟩, hout⟩
    refine ⟨n, Finset.mem_sdiff.mpr ⟨hn, fun hmem => hout ?_⟩, rfl⟩
    exact List.mem_map_of_mem (List.mem_toFinset.mp hmem)
  · rintro ⟨n, hn, rfl⟩
    obtain ⟨hn, hout⟩ := Finset.mem_sdiff.mp hn
    refine ⟨⟨n, hn, rfl⟩, fun hmem => hout ?_⟩
    exact List.mem_toFinset.mpr ((hkahn.mem_map_iff horder hn).mp hmem)

theorem cycleSearch (h : Renumbers L L' f) {edges edges' : List (Named × Named)}
    (hedges : L.IsEdges edges) (hedges' : L'.IsEdges edges') {residual residual' : Finset Named}
    (hsub : residual ⊆ L.nodes) (hresidual : ∀ m, m ∈ residual' ↔ ∃ n ∈ residual, renamed f n = m) :
    CycleSearch.Renames (renamed f) residual (residualTargets edges residual)
      (residualTargets edges' residual') := by
  have hkahn := h.kahn hedges hedges'
  refine ⟨fun a ha b hb hab => hkahn.injOn (hsub ha) (hsub hb) hab, fun n hn => ?_,
    fun n _ t ht => (mem_residualTargets.mp ht).2⟩
  refine hkahn.sort_map (fun d hd => hsub (Finset.mem_inter.mp hd).2) fun m => ?_
  rw [Finset.mem_inter, hresidual, hkahn.mem_deps n (hsub hn)]
  refine ⟨?_, ?_⟩
  · rintro ⟨⟨d, hd, rfl⟩, d', hd', heq⟩
    have hsame : d' = d := hkahn.injOn (hsub hd') (hedges.deps_subset n hd) heq
    exact ⟨d, Finset.mem_inter.mpr ⟨hd, hsame ▸ hd'⟩, rfl⟩
  · rintro ⟨d, hd, rfl⟩
    obtain ⟨hd, hin⟩ := Finset.mem_inter.mp hd
    exact ⟨⟨d, hd, rfl⟩, d, hin, rfl⟩

theorem topologicalOrder (h : Renumbers L L' f) :
    (∀ order, L.topologicalOrder = some (.ok order) →
        L'.topologicalOrder = some (.ok (order.map f))) ∧
      ∀ e, L.topologicalOrder = some (.error e) →
        ∃ e', L'.topologicalOrder = some (.error e') ∧ e'.chain = e.chain := by
  obtain ⟨edges, t, -, hedges, hinv, hgreedy, hresult⟩ := L.topologicalOrder_eq
  obtain ⟨edges', t', -, hedges', hinv', hgreedy', hresult'⟩ := L'.topologicalOrder_eq
  have hkahn := h.kahn hedges hedges'
  have horder : t'.order = t.order.map (renamed f) := by
    rw [hgreedy, hgreedy', h.length hedges hedges', ← hkahn.greedy_map _ fun n hn => by cases hn]
    rfl
  have hlength : t'.order.length = L'.modules.length ↔ t.order.length = L.modules.length := by
    rw [horder, List.length_map, h.length hedges hedges']
  rcases hresult with ⟨hall, hok⟩ | ⟨hout, w, e, hsearch, hw, he, herror⟩
  · rcases hresult' with ⟨-, hok'⟩ | ⟨hout', -⟩
    · refine ⟨fun order hsome => ?_, fun e hsome => ?_⟩
      · rw [hok] at hsome
        obtain rfl : t.order.map Named.id = order := by simpa using hsome
        rw [hok', horder, List.map_map, List.map_map]
        rfl
      · rw [hok] at hsome
        simp at hsome
    · exact absurd (hlength.mpr hall) hout'
  · rcases hresult' with ⟨hall', -⟩ | ⟨-, w', e', hsearch', hw', he', herror'⟩
    · exact absurd (hlength.mp hall') hout
    · refine ⟨fun order hsome => ?_, fun e₁ hsome => ?_⟩
      · rw [herror] at hsome
        simp at hsome
      · rw [herror] at hsome
        obtain rfl : e = e₁ := by simpa using hsome
        refine ⟨e', herror', ?_⟩
        have hresidual := h.mem_residual hedges hedges' hinv.subset
        rw [← horder] at hresidual
        have hsub : L.nodes \ t.order.toFinset ⊆ L.nodes := Finset.sdiff_subset
        have hrenames := h.cycleSearch hedges hedges' hsub hresidual
        have hmapped : CycleSearch.search (residualTargets edges' (L'.nodes \ t'.order.toFinset))
            (CycleSearch.enough (residualTargets edges (L.nodes \ t.order.toFinset))
              (L.nodes \ t.order.toFinset)) ((L.nodes \ t.order.toFinset).sort.map (renamed f))
            (fun n => if n ∈ L'.nodes \ t'.order.toFinset then .white else .black) =
              some (some (w.map (renamed f))) := by
          have hwhite : ∀ n ∈ L.nodes \ t.order.toFinset,
              (if renamed f n ∈ L'.nodes \ t'.order.toFinset then DepthFirst.Color.white
                else .black) = if n ∈ L.nodes \ t.order.toFinset then .white else .black := by
            intro n hn
            rw [if_pos hn, if_pos ((hresidual _).mpr ⟨n, hn, rfl⟩)]
          rw [hrenames.search _ (fun n hn => (Finset.mem_sort _).mp hn) hwhite, hsearch]
          rfl
        rw [← hkahn.sort_map hsub hresidual, ← hrenames.enough_eq hresidual, hsearch'] at hmapped
        obtain rfl : w' = w.map (renamed f) := by simpa using hmapped
        obtain ⟨e₂, he₂, -, hchain⟩ := cycleError_eq_some hedges hw
        obtain ⟨e₃, he₃, -, hchain'⟩ := cycleError_eq_some hedges' hw'
        obtain rfl : e = e₂ := Option.some.inj (he.symm.trans he₂)
        obtain rfl : e' = e₃ := Option.some.inj (he'.symm.trans he₃)
        have hdotted : (w.cycle ++ [w.target]).map (Named.dotted ∘ renamed f) =
            (w.cycle ++ [w.target]).map Named.dotted := rfl
        rw [hchain, hchain', ← hdotted, ← List.map_map, List.map_append]
        simp [CycleSearch.Witness.map]

end Renumbers

theorem Renumbers.map_path {L' : LoadedModules} {f : ModuleId → ModuleId} (h : Renumbers L L' f)
    {ms ms' : List LoadedModule} (hms : ∀ m ∈ ms, m ∈ L.modules) (hms' : ∀ m ∈ ms', m ∈ L'.modules)
    (hids : ms'.map (·.id) = (ms.map (·.id)).map f) :
    ms'.map (·.path) = ms.map (·.path) := by
  induction ms generalizing ms' with
  | nil =>
    cases ms' with
    | nil => rfl
    | cons m' ms' => cases hids
  | cons m ms ih =>
    cases ms' with
    | nil => cases hids
    | cons m' ms' =>
      obtain ⟨hid, hids⟩ := List.cons.inj hids
      obtain ⟨m'', hm'', hid'', hpath⟩ := h.modules m (hms m List.mem_cons_self)
      have hsame : m' = m'' := eq_of_id (hms' m' List.mem_cons_self) hm'' (hid.trans hid''.symm)
      rw [List.map_cons, List.map_cons, hsame, hpath,
        ih (fun k hk => hms k (List.mem_cons_of_mem _ hk))
          (fun k hk => hms' k (List.mem_cons_of_mem _ hk)) hids]

theorem topologicalOrder_cases (L : LoadedModules) :
    (L.Acyclic ∧ ∃ order, L.topologicalOrder = some (.ok order) ∧ L.IsOrder order) ∨
      ¬L.Acyclic ∧ ∃ e, L.topologicalOrder = some (.error e) ∧ L.IsCycle e.chain := by
  obtain ⟨edges, t, -, hedges, hinv, -, hresult⟩ := L.topologicalOrder_eq
  rcases hresult with ⟨hall, hok⟩ | ⟨-, w, e, -, hw, he, herror⟩
  · have horder := isOrder_of_inv hedges hinv hall
    exact Or.inl ⟨acyclic_of_isOrder horder, _, hok, horder⟩
  · obtain ⟨e', he', hcycle, -⟩ := cycleError_eq_some hedges hw
    obtain rfl : e = e' := Option.some.inj (he.symm.trans he')
    exact Or.inr ⟨not_acyclic_of_isCycle hcycle, e, herror, hcycle⟩

/-- Without a cycle the modules are put behind those they import, otherwise a cycle is reported,
and neither depends on how the modules are numbered. -/
theorem topologicalOrder_spec (L : LoadedModules) :
    (L.Acyclic → ∃ order ms, L.topologicalOrder = some (.ok order) ∧ L.IsOrder order ∧
        reorder L.modules order = some ms ∧ ms.map (·.id) = order) ∧
      (¬L.Acyclic → ∃ e, L.topologicalOrder = some (.error e) ∧ L.IsCycle e.chain) ∧
      ∀ L' f, Renumbers L L' f →
        (∀ order ms, L.topologicalOrder = some (.ok order) → reorder L.modules order = some ms →
          ∃ ms', L'.topologicalOrder = some (.ok (order.map f)) ∧
            reorder L'.modules (order.map f) = some ms' ∧
            ms'.map (·.path.dotted) = ms.map (·.path.dotted)) ∧
        ∀ e, L.topologicalOrder = some (.error e) →
          ∃ e', L'.topologicalOrder = some (.error e') ∧ e'.chain = e.chain := by
  refine ⟨fun hacyclic => ?_, fun hcyclic => ?_, fun L' f h => ⟨?_, h.topologicalOrder.2⟩⟩
  · rcases L.topologicalOrder_cases with ⟨-, order, hok, horder⟩ | ⟨hcyclic, -⟩
    · obtain ⟨ms, hms, hids, -⟩ := horder.reorder
      exact ⟨order, ms, hok, horder, hms, hids⟩
    · exact absurd hacyclic hcyclic
  · rcases L.topologicalOrder_cases with ⟨hacyclic, -⟩ | ⟨-, hreported⟩
    · exact absurd hacyclic hcyclic
    · exact hreported
  · intro order ms hok hms
    have hok' := h.topologicalOrder.1 order hok
    have horder {M : LoadedModules} {o : List ModuleId} (hM : M.topologicalOrder = some (.ok o)) :
        M.IsOrder o := by
      rcases M.topologicalOrder_cases with ⟨-, o', ho', hisOrder⟩ | ⟨-, e, he, -⟩
      · obtain rfl : o' = o := by simpa using ho'.symm.trans hM
        exact hisOrder
      · simp [hM] at he
    obtain ⟨ms₁, hms₁, hids, hmem⟩ := (horder hok).reorder
    obtain rfl : ms₁ = ms := Option.some.inj (hms₁.symm.trans hms)
    obtain ⟨ms', hms', hids', hmem'⟩ := (horder hok').reorder
    refine ⟨ms', hok', hms', ?_⟩
    have hpaths := h.map_path hmem hmem' (by rw [hids', hids])
    have hdotted := congrArg (List.map ModulePath.dotted) hpaths
    rwa [List.map_map, List.map_map] at hdotted

/-- A module that imports two others, which are numbered as they are found. -/
def fork (a b : ℕ) (ha : 0 < a) (hb : 0 < b) (hab : a ≠ b) : LoadedModules where
  modules := [⟨⟨0⟩, ⟨[['m']], by decide, by decide⟩, 0⟩, ⟨⟨a⟩, ⟨[['a']], by decide, by decide⟩, a⟩,
    ⟨⟨b⟩, ⟨[['b']], by decide, by decide⟩, b⟩]
  imports := [⟨⟨0⟩, [['b'], ['x']], ⟨0, 11⟩⟩, ⟨⟨0⟩, [['a'], ['x']], ⟨12, 23⟩⟩]
  byPath dotted := if dotted = ['m'] then some ⟨0⟩ else if dotted = ['a'] then some ⟨a⟩
    else if dotted = ['b'] then some ⟨b⟩ else none
  entry := ⟨0⟩
  ids_nodup := by simp [ha.ne, hb.ne, hab]
  importing := by simp
  found := by
    intro dotted id
    split_ifs <;> simp +contextual [eq_comm]
  distinct := by simp [ModulePath.dotted]
  entry_first := by simp

theorem imports_fork {a b : ℕ} (ha : 0 < a) (hb : 0 < b) (hab : a ≠ b) {m n : LoadedModule}
    (hm : m ∈ (fork a b ha hb hab).modules) (hn : n ∈ (fork a b ha hb hab).modules) :
    (fork a b ha hb hab).Imports m n ↔ m.id = ⟨0⟩ ∧ n.id ≠ ⟨0⟩ := by
  have hids : n.id = ⟨0⟩ ∨ n.id = ⟨a⟩ ∨ n.id = ⟨b⟩ := by
    simp only [fork, List.mem_cons, List.not_mem_nil, or_false] at hn
    rcases hn with rfl | rfl | rfl <;> simp
  unfold Imports targetOf
  simp only [hm, hn, true_and]
  simp only [fork, splitImportPath, List.mem_cons, List.not_mem_nil, or_false]
  rcases hids with h | h | h <;> rw [h] <;> simp [ha.ne', hb.ne', hab, eq_comm]

theorem acyclic_fork {a b : ℕ} (ha : 0 < a) (hb : 0 < b) (hab : a ≠ b) :
    (fork a b ha hb hab).Acyclic := by
  intro m hm
  obtain ⟨n, hmn, -⟩ := Relation.TransGen.head'_iff.mp hm
  obtain ⟨k, -, hkm⟩ := Relation.TransGen.tail'_iff.mp hm
  have hfirst := ((imports_fork ha hb hab hmn.1 hmn.2.1).mp hmn).1
  exact ((imports_fork ha hb hab hkm.1 hkm.2.1).mp hkm).2 hfirst

/-- The imported modules found the other way round. -/
def swapped (id : ModuleId) : ModuleId := ⟨if id.index = 0 then 0 else 3 - id.index⟩

theorem renumbers_fork :
    Renumbers (fork 1 2 (by decide) (by decide) (by decide))
      (fork 2 1 (by decide) (by decide) (by decide)) swapped := by
  have hzero : ∀ m ∈ (fork 1 2 (by decide) (by decide) (by decide)).modules,
      swapped m.id = ⟨0⟩ ↔ m.id = ⟨0⟩ := by
    simp [fork, swapped]
  refine ⟨?_, ?_, ?_, ?_, rfl⟩
  · simp [fork, swapped]
  · simp [fork, swapped]
  · simp [fork, swapped]
  · intro m hm n hn m' hm' n' hn' hid hid'
    rw [imports_fork _ _ _ hm hn, imports_fork _ _ _ hm' hn', hid, hid', hzero m hm, Ne, hzero n hn]

theorem topologicalOrder_spec_fork :
    ∃ order ms ms', (fork 1 2 (by decide) (by decide) (by decide)).topologicalOrder =
        some (.ok order) ∧
      reorder (fork 1 2 (by decide) (by decide) (by decide)).modules order = some ms ∧
      (fork 2 1 (by decide) (by decide) (by decide)).topologicalOrder =
        some (.ok (order.map swapped)) ∧
      reorder (fork 2 1 (by decide) (by decide) (by decide)).modules (order.map swapped) =
        some ms' ∧
      List.map (fun m => m.path.dotted) ms' = List.map (fun m => m.path.dotted) ms := by
  obtain ⟨hordered, -, hrenumbered⟩ :=
    (fork 1 2 (by decide) (by decide) (by decide)).topologicalOrder_spec
  obtain ⟨order, ms, hok, -, hms, -⟩ := hordered (acyclic_fork _ _ _)
  obtain ⟨ms', hok', hms', hdotted⟩ := (hrenumbered _ _ renumbers_fork).1 order ms hok hms
  exact ⟨order, ms, ms', hok, hms, hok', hms', hdotted⟩

end LoadedModules

end Napitia.Project
