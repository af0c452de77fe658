import Napitia.Lib.Assoc
import Napitia.Verify.Observations

/-!
# Facts that flow forward

Two of the verifier's analyses have one shape. Each block has a set of values at its end;
what holds at its start is joined over the reachable predecessors, along their edges; and a
queue recomputes the sets until nothing changes. The entry starts from nothing and is never
recomputed, and a block that is not reachable starts from nothing as well. The values to
report are read off the sets that the queue ends in.

A path is followed by what happens on it, the last first, and enters the first block of
the id it goes to, as the interpreter does.
-/
namespace Napitia.Verify
open Nir

abbrev Facts := AList (fun _ : BlockId => Finset ValueId)

structure FactAnalysis where
  /-- The facts behind an instruction, and what to report at it. -/
  after : Finset ValueId → Instruction → Finset ValueId
  report : Finset ValueId → Instruction → List ValueId
  /-- The facts along an edge, with the slot it writes. -/
  edge : Option ValueId → Finset ValueId → Finset ValueId
  join : Finset ValueId → Finset ValueId → Finset ValueId
  /-- What a reachable block other than the entry starts the iteration with. -/
  initial : Finset ValueId

namespace FactAnalysis
variable (A : FactAnalysis) (function : Function) (reachable : List BlockId)

/-- The facts behind the instructions of a block, and the values to report in it. -/
def transfer : List Instruction → Finset ValueId → Finset ValueId × List ValueId
  | [], facts => (facts, [])
  | i :: rest, facts =>
    let (last, reported) := transfer rest (A.after facts i)
    (last, A.report facts i ++ reported)

def edgeFacts (out : Facts) (incoming : BlockId × Option ValueId) : Finset ValueId :=
  A.edge incoming.2 ((out.lookup incoming.1).getD ∅)

def inFacts (out : Facts) (id : BlockId) : Finset ValueId :=
  if id = entry then ∅
  else
    match (predecessors function id).filter (·.1 ∈ reachable) with
    | [] => ∅
    | first :: rest => rest.foldl (fun acc e => A.join acc (A.edgeFacts out e)) (A.edgeFacts out first)

/-- The blocks that are recomputed. -/
def keeps (id : BlockId) : Bool := id ≠ entry ∧ id ∈ reachable

def recomputeFacts (id : BlockId) (out : Facts) : Option (Finset ValueId) :=
  if keeps reachable id then
    (function.findBlock id).map fun block =>
      (A.transfer block.instructions (A.inFacts function reachable out id)).1
  else none

def initialFacts (entryBlock : BasicBlock) : Facts :=
  (function.blocks.map (·.id)).foldl (fun out id =>
    out.insert id (if id = entry then (A.transfer entryBlock.instructions ∅).1
      else if id ∈ reachable then A.initial else ∅)) ∅

/-- The blocks in the queue at first, in declaration order. -/
def initialQueue : List BlockId := (function.blocks.map (·.id)).filter (keeps reachable)

def settled (entryBlock : BasicBlock) (fuel : ℕ) : Option Facts :=
  Worklist.drain (keeps reachable) (successors function)
    (A.recomputeFacts function reachable) fuel (A.initialFacts function reachable entryBlock)
    (initialQueue function reachable) (initialQueue function reachable).toFinset

/-- The values reported, with the blocks they are reported in. -/
def reports (out : Facts) : List (ValueId × BlockId) :=
  function.blocks.flatMap fun block =>
    let start := if block.id ∈ reachable then A.inFacts function reachable out block.id else ∅
    (A.transfer block.instructions start).2.map (⟨·, block.id⟩)

def verify (fuel : ℕ) : Option (List (ValueId × BlockId)) :=
  match function.findBlock entry with
  | none => some []
  | some entryBlock => do
    let reachable ← Worklist.reach (successors function) fuel [entry] [entry]
    let out ← A.settled function reachable entryBlock fuel
    some (A.reports function reachable out)

end FactAnalysis

/-! ### Paths -/

/-- What happens on a path: an instruction runs, or an edge is taken, which may write a
slot. -/
inductive Event where
  | ran (i : Instruction)
  | took (written : Option ValueId)

/-- A path from the entry has come to a block with these instructions of it still to run. -/
inductive Path (f : Function) : List Event → BasicBlock → List Instruction → Prop
  | entry {block : BasicBlock} :
      f.findBlock entry = some block → Path f [] block block.instructions
  | instruction {events : List Event} {block : BasicBlock} {i : Instruction}
      {rest : List Instruction} :
      Path f events block (i :: rest) → Path f (.ran i :: events) block rest
  | edge {events : List Event} {block next : BasicBlock} {target : BlockId}
      {written : Option ValueId} :
      Path f events block [] → (target, written) ∈ terminatorEdges block.terminator →
      f.findBlock target = some next → Path f (.took written :: events) next next.instructions

theorem Path.entry_exists {f : Function} {events : List Event} {block : BasicBlock}
    {rest : List Instruction} (h : Path f events block rest) :
    ∃ entryBlock, f.findBlock Verify.entry = some entryBlock := by
  induction h with
  | entry hentry => exact ⟨_, hentry⟩
  | instruction _ ih => exact ih
  | edge _ _ _ ih => exact ih

theorem Path.block_of_rest {f : Function} {events : List Event} {block : BasicBlock}
    {rest : List Instruction} (h : Path f events block rest) :
    block ∈ f.blocks ∧ ∃ first, block.instructions = first ++ rest := by
  induction h with
  | entry hentry => exact ⟨List.mem_of_find?_eq_some hentry, [], rfl⟩
  | @instruction events block i rest _ ih =>
    obtain ⟨hblock, first, hfirst⟩ := ih
    exact ⟨hblock, first ++ [i], by rw [hfirst, List.append_assoc]; rfl⟩
  | edge _ _ hnext _ => exact ⟨List.mem_of_find?_eq_some hnext, [], rfl⟩

/-! ### What the queue leaves -/

section
variable {A : FactAnalysis} {f : Function} {reachable : List BlockId} {out : Facts}
  {block entryBlock : BasicBlock} {id : BlockId}

theorem mem_of_findBlock (h : f.findBlock id = some block) : block ∈ f.blocks :=
  List.mem_of_find?_eq_some h

theorem id_of_findBlock (h : f.findBlock id = some block) : block.id = id := by
  have hid := List.find?_some h
  simpa using hid

theorem lookup_initialFacts :
    (A.initialFacts f reachable entryBlock).lookup id =
      if id ∈ f.blocks.map (·.id) then
        some (if id = entry then (A.transfer entryBlock.instructions ∅).1
          else if id ∈ reachable then A.initial else ∅)
      else none := by
  unfold FactAnalysis.initialFacts
  rw [AList.lookup_foldl_insert, AList.lookup_empty]

theorem findBlock_isSome (hid : id ∈ f.blocks.map (·.id)) : (f.findBlock id).isSome := by
  obtain ⟨block, hblock, rfl⟩ := List.mem_map.mp hid
  exact List.find?_isSome.mpr ⟨block, hblock, by simp⟩

theorem recomputeFacts_eq_some {s : Finset ValueId} :
    A.recomputeFacts f reachable id out = some s ↔
      ∃ block, FactAnalysis.keeps reachable id = true ∧ f.findBlock id = some block ∧
        s = (A.transfer block.instructions (A.inFacts f reachable out id)).1 := by
  unfold FactAnalysis.recomputeFacts
  split
  · rename_i hkeep
    rw [Option.map_eq_some_iff]
    constructor
    · rintro ⟨block, hblock, rfl⟩
      exact ⟨block, hkeep, hblock, rfl⟩
    · rintro ⟨block, -, hblock, rfl⟩
      exact ⟨block, hblock, rfl⟩
  · rename_i hkeep
    simp [hkeep]

theorem recomputeFacts_congr (n : BlockId) (out out' : Facts)
    (h : ∀ p, n ∈ successors f p → out.lookup p = out'.lookup p) :
    A.recomputeFacts f reachable n out = A.recomputeFacts f reachable n out' := by
  have hin : A.inFacts f reachable out n = A.inFacts f reachable out' n := by
    have hedges : ∀ e ∈ (predecessors f n).filter (·.1 ∈ reachable),
        A.edgeFacts out e = A.edgeFacts out' e := by
      intro e he
      have hpred := (List.mem_filter.mp he).1
      unfold FactAnalysis.edgeFacts
      rw [h e.1 (successors_of_predecessors hpred)]
    unfold FactAnalysis.inFacts
    split
    · rfl
    · generalize (predecessors f n).filter (·.1 ∈ reachable) = edges at hedges
      cases edges with
      | nil => rfl
      | cons first rest =>
        simp only
        rw [hedges first List.mem_cons_self]
        apply List.foldl_ext
        intro acc e he
        rw [hedges e (List.mem_cons_of_mem _ he)]
  unfold FactAnalysis.recomputeFacts
  rw [hin]

/-- The sets agree with the transfer of every block that is reachable. -/
structure FactsSettled (A : FactAnalysis) (f : Function) (reachable : List BlockId) (out : Facts) :
    Prop where
  entry_mem : entry ∈ reachable
  closed : ∀ n ∈ reachable, ∀ m ∈ successors f n, m ∈ reachable
  lookup_eq : ∀ id block, id ∈ reachable → f.findBlock id = some block →
    out.lookup id = some (A.transfer block.instructions (A.inFacts f reachable out id)).1

theorem factsSettled_of_settled {fuel : ℕ} (hentry : f.findBlock entry = some entryBlock)
    (hreach : Worklist.reach (successors f) fuel [entry] [entry] = some reachable)
    (hsettled : A.settled f reachable entryBlock fuel = some out) :
    FactsSettled A f reachable out := by
  have hclosed := Worklist.reach_closed hreach fun n hn => .inl hn
  have hmem := hclosed.1 entry List.mem_cons_self
  refine ⟨hmem, hclosed.2, ?_⟩
  have hkeep : ∀ n out, FactAnalysis.keeps reachable n = false → A.recomputeFacts f reachable n out = none :=
    fun n out hn => if_neg (by simp [hn])
  have hentryOut : out.lookup entry = some (A.transfer entryBlock.instructions ∅).1 := by
    apply Worklist.drain_induction
      (P := fun out : Facts => out.lookup entry = some (A.transfer entryBlock.instructions ∅).1) _
      hsettled
    · rw [lookup_initialFacts, if_pos, if_pos rfl]
      exact List.mem_map.mpr ⟨entryBlock, mem_of_findBlock hentry, id_of_findBlock hentry⟩
    · intro n out s hout hs
      have hne : entry ≠ n := by
        rintro rfl
        rw [hkeep entry out (by simp [FactAnalysis.keeps])] at hs
        cases hs
      rw [AList.lookup_insert_ne hne, hout]
  have hstable := Worklist.stable_of_drain recomputeFacts_congr hkeep hsettled (by simp) (by
    intro n
    by_cases hn : n ∈ FactAnalysis.initialQueue f reachable
    · exact .inl hn
    · right
      intro s hs
      exfalso
      unfold FactAnalysis.recomputeFacts at hs
      split at hs
      · rename_i hkeeps
        obtain ⟨block, hblock, -⟩ := Option.map_eq_some_iff.mp hs
        apply hn
        refine List.mem_filter.mpr ⟨List.mem_map.mpr ⟨block, mem_of_findBlock hblock,
          id_of_findBlock hblock⟩, hkeeps⟩
      · cases hs)
  intro id block hid hblock
  by_cases hne : id = entry
  · subst hne
    rw [hentry] at hblock
    cases hblock
    rw [hentryOut, FactAnalysis.inFacts, if_pos rfl]
  · apply hstable id
    unfold FactAnalysis.recomputeFacts
    rw [if_pos (by simp [FactAnalysis.keeps, hne, hid]), hblock]
    rfl

/-- What is joined at the start of a block over an edge has a share of the facts along it,
when joining relates a result to both of what it joins. -/
theorem FactsSettled.inFacts_edge {r : Finset ValueId → Finset ValueId → Prop}
    (h : FactsSettled A f reachable out) (hrefl : ∀ s, r s s)
    (htrans : ∀ {a b c}, r a b → r b c → r a c) (hleft : ∀ a b, r (A.join a b) a)
    (hright : ∀ a b, r (A.join a b) b) {written : Option ValueId} (hne : id ≠ entry)
    (hid : block.id ∈ reachable) (hblock : f.findBlock block.id = some block)
    (hedge : (id, written) ∈ terminatorEdges block.terminator) :
    r (A.inFacts f reachable out id)
      (A.edge written (A.transfer block.instructions (A.inFacts f reachable out block.id)).1) := by
  have hmem : (block.id, written) ∈ (predecessors f id).filter (·.1 ∈ reachable) :=
    List.mem_filter.mpr ⟨mem_predecessors (mem_of_findBlock hblock) hedge, by simpa using hid⟩
  have hfacts : A.edgeFacts out (block.id, written) =
      A.edge written (A.transfer block.instructions (A.inFacts f reachable out block.id)).1 := by
    rw [FactAnalysis.edgeFacts, h.lookup_eq block.id block hid hblock]
    rfl
  rw [← hfacts, FactAnalysis.inFacts, if_neg hne]
  generalize (predecessors f id).filter (·.1 ∈ reachable) = edges at hmem
  have hfold : ∀ (rest : List (BlockId × Option ValueId)) (acc : Finset ValueId),
      r (rest.foldl (fun acc e => A.join acc (A.edgeFacts out e)) acc) acc ∧
        ∀ e ∈ rest, r (rest.foldl (fun acc e => A.join acc (A.edgeFacts out e)) acc)
          (A.edgeFacts out e) := by
    intro rest
    induction rest with
    | nil => exact fun acc => ⟨hrefl acc, by simp⟩
    | cons e rest ih =>
      intro acc
      obtain ⟨hacc, hrest⟩ := ih (A.join acc (A.edgeFacts out e))
      refine ⟨htrans hacc (hleft _ _), fun e' he' => ?_⟩
      rcases List.mem_cons.mp he' with rfl | he'
      · exact htrans hacc (hright _ _)
      · exact hrest e' he'
  cases edges with
  | nil => cases hmem
  | cons first rest =>
    obtain ⟨hfirst, hrest⟩ := hfold rest (A.edgeFacts out first)
    rcases List.mem_cons.mp hmem with heq | hmem
    · rw [heq]
      exact hfirst
    · exact hrest _ hmem

theorem FactsSettled.path_reachable (h : FactsSettled A f reachable out) {events : List Event}
    {rest : List Instruction} (hpath : Path f events block rest) :
    block.id ∈ reachable ∧ f.findBlock block.id = some block := by
  induction hpath with
  | entry hentry => exact ⟨id_of_findBlock hentry ▸ h.entry_mem, id_of_findBlock hentry ▸ hentry⟩
  | instruction _ ih => exact ih
  | edge _ hedge hnext ih =>
    have hid := id_of_findBlock hnext
    exact ⟨hid ▸ h.closed _ ih.1 _ (mem_successors (mem_of_findBlock ih.2) hedge), hid ▸ hnext⟩

theorem transfer_append (first last : List Instruction) (facts : Finset ValueId) :
    A.transfer (first ++ last) facts =
      ((A.transfer last (A.transfer first facts).1).1,
        (A.transfer first facts).2 ++ (A.transfer last (A.transfer first facts).1).2) := by
  induction first generalizing facts with
  | nil => rfl
  | cons i first ih => simp [FactAnalysis.transfer, ih]

/-- What the facts say of what has happened on a path, if it holds at the start, over every
instruction and over every edge, holds wherever a path comes to. -/
theorem FactsSettled.path_carries {Q : List Event → Finset ValueId → Prop}
    (h : FactsSettled A f reachable out) (hentry : Q [] ∅)
    (hran : ∀ block ∈ f.blocks, ∀ i ∈ block.instructions, ∀ events facts, Q events facts →
      Q (.ran i :: events) (A.after facts i))
    (htook : ∀ block next written events, block.id ∈ reachable →
      f.findBlock block.id = some block → (next, written) ∈ terminatorEdges block.terminator →
      Q events (A.transfer block.instructions (A.inFacts f reachable out block.id)).1 →
      Q (.took written :: events) (A.inFacts f reachable out next))
    {events : List Event} {rest : List Instruction} (hpath : Path f events block rest) :
    ∃ first, block.instructions = first ++ rest ∧
      Q events (A.transfer first (A.inFacts f reachable out block.id)).1 := by
  induction hpath with
  | @entry block hblock =>
    refine ⟨[], rfl, ?_⟩
    rw [id_of_findBlock hblock, FactAnalysis.inFacts, if_pos rfl]
    exact hentry
  | @instruction events block i rest hpath ih =>
    obtain ⟨first, hfirst, hQ⟩ := ih
    refine ⟨first ++ [i], by rw [hfirst, List.append_assoc]; rfl, ?_⟩
    rw [transfer_append]
    have hblock := mem_of_findBlock (h.path_reachable hpath).2
    exact hran block hblock i (by rw [hfirst]; simp) events _ hQ
  | @edge events block next target written hpath hedge hnext ih =>
    obtain ⟨first, hfirst, hQ⟩ := ih
    rw [List.append_nil] at hfirst
    obtain ⟨hid, hblock⟩ := h.path_reachable hpath
    refine ⟨[], rfl, ?_⟩
    rw [id_of_findBlock hnext]
    exact htook block target written events hid hblock hedge (hfirst ▸ hQ)

theorem report_eq_nil (h : A.reports f reachable out = []) (hblock : block ∈ f.blocks)
    (hid : block.id ∈ reachable) {first rest : List Instruction} {i : Instruction}
    (hinstructions : block.instructions = first ++ i :: rest) :
    A.report (A.transfer first (A.inFacts f reachable out block.id)).1 i = [] := by
  have hnone := List.flatMap_eq_nil_iff.mp h block hblock
  rw [if_pos hid] at hnone
  have hall := List.map_eq_nil_iff.mp hnone
  rw [hinstructions, transfer_append] at hall
  exact (List.append_eq_nil_iff.mp (List.append_eq_nil_iff.mp hall).2).1

theorem settled_of_verify {fuel : ℕ} {reported : List (ValueId × BlockId)}
    (hentry : f.findBlock entry = some entryBlock) (h : A.verify f fuel = some reported) :
    ∃ reachable out, FactsSettled A f reachable out ∧ A.reports f reachable out = reported := by
  unfold FactAnalysis.verify at h
  rw [hentry] at h
  obtain ⟨reachable, hreach, h⟩ := Option.bind_eq_some_iff.mp h
  obtain ⟨out, hsettled, h⟩ := Option.bind_eq_some_iff.mp h
  exact ⟨reachable, out, factsSettled_of_settled hentry hreach hsettled, Option.some.inj h⟩

end

/-! ### The analyses come to an end -/

/-- An analysis whose sets lie within a finite set and only move one way. -/
structure FactAnalysis.Monotone (A : FactAnalysis) (f : Function)
    (r : Finset ValueId → Finset ValueId → Prop) (within : Finset ValueId) : Prop where
  refl : ∀ s, r s s
  trans : ∀ {a b c}, r a b → r b c → r a c
  after : ∀ i {s t}, r s t → r (A.after s i) (A.after t i)
  edge : ∀ written {s t}, r s t → r (A.edge written s) (A.edge written t)
  join : ∀ {s t s' t'}, r s s' → r t t' → r (A.join s t) (A.join s' t')
  initial : ∀ s ⊆ within, r A.initial s
  after_within : ∀ i, ∀ s ⊆ within, A.after s i ⊆ within
  edge_within : ∀ block ∈ f.blocks, ∀ e ∈ terminatorEdges block.terminator,
    ∀ s ⊆ within, A.edge e.2 s ⊆ within
  join_within : ∀ s ⊆ within, ∀ t ⊆ within, A.join s t ⊆ within
  initial_within : A.initial ⊆ within

section
variable {A : FactAnalysis} {f : Function} {r : Finset ValueId → Finset ValueId → Prop}
  {within : Finset ValueId} {reachable : List BlockId} {out out' : Facts} {id : BlockId}

theorem FactAnalysis.Monotone.transfer (hA : A.Monotone f r within) (l : List Instruction)
    {s t : Finset ValueId} (h : r s t) : r (A.transfer l s).1 (A.transfer l t).1 := by
  induction l generalizing s t with
  | nil => exact h
  | cons i l ih => exact ih (hA.after i h)

theorem FactAnalysis.Monotone.transfer_within (hA : A.Monotone f r within) (l : List Instruction) :
    ∀ s ⊆ within, (A.transfer l s).1 ⊆ within := by
  induction l with
  | nil => exact fun s hs => hs
  | cons i l ih => exact fun s hs => ih _ (hA.after_within i s hs)

/-- Every block has a set, and every set lies within the finite one. -/
structure FactsWithin (f : Function) (within : Finset ValueId) (out : Facts) : Prop where
  keyed : ∀ id ∈ f.blocks.map (·.id), (out.lookup id).isSome
  subset : ∀ id s, out.lookup id = some s → s ⊆ within

theorem reach_successors_returns (f : Function) :
    ∃ fuel, (Worklist.reach (successors f) fuel [entry] [entry]).isSome := by
  have hnodes : ∀ n ∈ insert entry (f.blocks.flatMap fun block =>
        (terminatorEdges block.terminator).map (·.1)).toFinset, ∀ m ∈ successors f n,
      m ∈ insert entry (f.blocks.flatMap fun block =>
        (terminatorEdges block.terminator).map (·.1)).toFinset := by
    intro n _ m hm
    obtain ⟨block, hblock, hm⟩ := List.mem_flatMap.mp hm
    exact Finset.mem_insert_of_mem (List.mem_toFinset.mpr
      (List.mem_flatMap.mpr ⟨block, (List.mem_filter.mp hblock).1, hm⟩))
  have hstart : ∀ n ∈ [entry], n ∈ insert entry (f.blocks.flatMap fun block =>
      (terminatorEdges block.terminator).map (·.1)).toFinset := by simp
  exact Worklist.reach_returns hnodes hstart fun n (hn : n ∈ [entry]) => hn

theorem FactsWithin.inFacts (hA : A.Monotone f r within) (h : FactsWithin f within out) :
    A.inFacts f reachable out id ⊆ within := by
  have hedges : ∀ e ∈ (predecessors f id).filter (·.1 ∈ reachable), A.edgeFacts out e ⊆ within := by
    rintro ⟨source, written⟩ he
    obtain ⟨block, hblock, hmem⟩ := List.mem_flatMap.mp (List.mem_filter.mp he).1
    obtain ⟨⟨target, written'⟩, hedge, hif⟩ := List.mem_filterMap.mp hmem
    dsimp only at hif
    split at hif
    · cases hif
      apply hA.edge_within block hblock _ hedge
      cases hlookup : out.lookup block.id with
      | none => exact Finset.empty_subset _
      | some s => exact h.subset _ s hlookup
    · cases hif
  unfold FactAnalysis.inFacts
  split
  · exact Finset.empty_subset _
  · generalize (predecessors f id).filter (·.1 ∈ reachable) = edges at hedges
    cases edges with
    | nil => exact Finset.empty_subset _
    | cons first rest =>
      obtain ⟨hfirst, hrest⟩ := List.forall_mem_cons.mp hedges
      clear hedges
      simp only
      generalize A.edgeFacts out first = acc at hfirst
      induction rest generalizing acc with
      | nil => exact hfirst
      | cons e rest ih =>
        obtain ⟨he, hrest⟩ := List.forall_mem_cons.mp hrest
        exact ih hrest _ (hA.join_within acc hfirst _ he)

theorem inFacts_mono (hA : A.Monotone f r within) (h : FactsWithin f within out)
    (honward : Worklist.Onward r out out') :
    r (A.inFacts f reachable out id) (A.inFacts f reachable out' id) := by
  have hedges : ∀ e ∈ (predecessors f id).filter (·.1 ∈ reachable),
      r (A.edgeFacts out e) (A.edgeFacts out' e) := by
    rintro ⟨source, written⟩ he
    obtain ⟨block, hblock, hmem⟩ := List.mem_flatMap.mp (List.mem_filter.mp he).1
    obtain ⟨⟨target, written'⟩, hedge, hif⟩ := List.mem_filterMap.mp hmem
    dsimp only at hif
    split at hif
    · cases hif
      obtain ⟨s, hs⟩ := Option.isSome_iff_exists.mp (h.keyed _ (List.mem_map_of_mem hblock))
      obtain ⟨s', hs', hr⟩ := honward _ s hs
      unfold FactAnalysis.edgeFacts
      rw [hs, hs']
      exact hA.edge _ hr
    · cases hif
  unfold FactAnalysis.inFacts
  split
  · exact hA.refl _
  · generalize (predecessors f id).filter (·.1 ∈ reachable) = edges at hedges
    cases edges with
    | nil => exact hA.refl _
    | cons first rest =>
      obtain ⟨hfirst, hrest⟩ := List.forall_mem_cons.mp hedges
      clear hedges
      simp only
      generalize A.edgeFacts out first = acc at hfirst
      generalize A.edgeFacts out' first = acc' at hfirst
      induction rest generalizing acc acc' with
      | nil => exact hfirst
      | cons e rest ih =>
        obtain ⟨he, hrest⟩ := List.forall_mem_cons.mp hrest
        exact ih hrest _ _ (hA.join hfirst he)

theorem verify_returns {height : Finset ValueId → ℕ} {bound : ℕ} (hA : A.Monotone f r within)
    (hheight : ∀ s t, s ⊆ within → t ⊆ within → r s t → s ≠ t → height s < height t)
    (hbound : ∀ s ⊆ within, height s ≤ bound) : ∃ fuel, (A.verify f fuel).isSome := by
  unfold FactAnalysis.verify
  cases hentry : f.findBlock entry with
  | none => exact ⟨0, rfl⟩
  | some entryBlock =>
    obtain ⟨fuel, hreach⟩ := reach_successors_returns f
    obtain ⟨reachable, hreachable⟩ := Option.isSome_iff_exists.mp hreach
    have hinitial : FactsWithin f within (A.initialFacts f reachable entryBlock) := by
      constructor
      · intro id hid
        rw [lookup_initialFacts, if_pos hid]
        rfl
      · intro id s hs
        rw [lookup_initialFacts] at hs
        split at hs
        · cases hs
          split
          · exact hA.transfer_within _ ∅ (Finset.empty_subset _)
          · split
            · exact hA.initial_within
            · exact Finset.empty_subset _
        · cases hs
    have hadvances : Worklist.Advances r (A.recomputeFacts f reachable)
        (A.initialFacts f reachable entryBlock) := by
      intro id s hs
      by_cases hkeep : FactAnalysis.keeps reachable id = true
      · right
        have hboth : id ≠ entry ∧ id ∈ reachable := by simpa [FactAnalysis.keeps] using hkeep
        rw [lookup_initialFacts, if_neg hboth.1, if_pos hboth.2] at hs
        split at hs
        · rename_i hid
          cases hs
          obtain ⟨block, hblock⟩ := Option.isSome_iff_exists.mp (findBlock_isSome hid)
          refine ⟨_, by rw [FactAnalysis.recomputeFacts, if_pos hkeep, hblock]; rfl, ?_⟩
          exact hA.initial _ (hA.transfer_within _ _ (hinitial.inFacts hA))
        · cases hs
      · exact .inl fun other => if_neg hkeep
    have hstep : ∀ n out s, FactsWithin f within out →
        A.recomputeFacts f reachable n out = some s → FactsWithin f within (out.insert n s) := by
      intro n out s hout hs
      obtain ⟨block, -, -, rfl⟩ := recomputeFacts_eq_some.mp hs
      constructor
      · intro k hk
        by_cases hkn : k = n
        · rw [hkn, AList.lookup_insert]
          rfl
        · rw [AList.lookup_insert_ne hkn]
          exact hout.keyed k hk
      · intro k t ht
        by_cases hkn : k = n
        · rw [hkn, AList.lookup_insert] at ht
          cases ht
          exact hA.transfer_within _ _ (hout.inFacts hA)
        · rw [AList.lookup_insert_ne hkn] at ht
          exact hout.subset k t ht
    have hmono : ∀ n out out' s, FactsWithin f within out → Worklist.Onward r out out' →
        A.recomputeFacts f reachable n out = some s →
        ∃ s', A.recomputeFacts f reachable n out' = some s' ∧ r s s' := by
      intro n out out' s hout honward hs
      obtain ⟨block, hkeep, hblock, rfl⟩ := recomputeFacts_eq_some.mp hs
      exact ⟨_, recomputeFacts_eq_some.mpr ⟨block, hkeep, hblock, rfl⟩,
        hA.transfer _ (inFacts_mono hA hout honward)⟩
    have hnodes : ∀ n out s, A.recomputeFacts f reachable n out = some s →
        n ∈ f.blocks.map (·.id) := by
      intro n out s hs
      obtain ⟨block, -, hblock, -⟩ := recomputeFacts_eq_some.mp hs
      exact List.mem_map.mpr ⟨block, mem_of_findBlock hblock, id_of_findBlock hblock⟩
    obtain ⟨fuel', hdrain⟩ := Worklist.drain_returns_of_monotone hA.refl hA.trans hstep
      (fun out hout => hout.subset) hmono hheight hbound hnodes hinitial hadvances
      (FactAnalysis.initialQueue f reachable) (FactAnalysis.initialQueue f reachable).toFinset
    obtain ⟨out, hout⟩ := Option.isSome_iff_exists.mp hdrain
    have hreach' := Worklist.reach_mono hreachable (Nat.le_add_right fuel fuel')
    have hsettled : A.settled f reachable entryBlock (fuel + fuel') = some out :=
      Worklist.drain_mono hout (Nat.le_add_left fuel' fuel)
    refine ⟨fuel + fuel', ?_⟩
    simp [hreach', hsettled]

end

end Napitia.Verify
