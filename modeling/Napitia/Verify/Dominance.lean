import Napitia.Lib.Assoc
import Napitia.Lib.Dominance
import Napitia.Verify.Observations

/-!
# The verifier's dominance check

A value that is used must have been defined on every way there. The check looks a use's
definition up in the dominators of its block, which are computed over the blocks reachable
from the entry. The order in which a round goes over those blocks is that of a hash set.
-/
namespace Napitia.Verify
open Nir

/-- An operand, with the block and the index it is used at. A terminator's index is behind
every instruction. -/
structure Use where
  value : ValueId
  block : BlockId
  index : ℕ
  deriving DecidableEq, Repr

inductive DominanceCode where
  | useBeforeDefinition
  | nonDominatingDefinition (definition : BlockId)
  deriving DecidableEq, Repr

def DominanceCode.asStr : DominanceCode → String
  | .useBeforeDefinition => "V0017"
  | .nonDominatingDefinition _ => "V0018"

structure DominanceProblem where
  use : Use
  code : DominanceCode
  deriving DecidableEq, Repr

/-- The values an instruction names, the slot a store writes among them. -/
def usedBy : Instruction → List ValueId
  | .value _ _ kind => operandsOf kind
  | .store slot value _ => [slot, value]
  | .drop value => [value]
  | .decomposeVariant value _ _ taken => value :: taken.map (·.2)
  | .storePlace place value => [place.root, value]
  | .endObserve _ => []

def usedByTerminator : Terminator → List ValueId
  | .ret (some value) | .raise value => [value]
  | .condBranch condition _ _ => [condition]
  | .switch scrutinee _ _ => [scrutinee]
  | .invoke _ _ args _ okSlot _ errTargets => args ++ okSlot :: errTargets.map (·.slot)
  | .ret none | .branch _ => []

def usesIn (block : BasicBlock) : List Use :=
  (block.instructions.zipIdx.flatMap fun (instruction, index) =>
    (usedBy instruction).map (⟨·, block.id, index⟩)) ++
    (usedByTerminator block.terminator).map (⟨·, block.id, block.instructions.length⟩)

def uses (function : Function) : List Use := function.blocks.flatMap usesIn

section
variable (function : Function)

/-- Where a value is first defined. -/
def definitionSite (value : ValueId) : Option (BlockId × ℕ) :=
  ((sites function).find? fun (_, _, instruction) =>
    match instruction with
    | .value result _ _ => result = value
    | _ => false).map fun (block, index, _) => (block, index)

def paramValues : List ValueId := function.params.map (·.value)

def blockIds : List BlockId := function.blocks.map (·.id)

def targetsOf (id : BlockId) : List BlockId :=
  match blockById function id with
  | none => []
  | some block => (terminatorEdges block.terminator).map (·.1)

/-- The targets that are blocks of the function. -/
def flowsTo (id : BlockId) : List BlockId := (targetsOf function id).filter (· ∈ blockIds function)

/-- The predecessors of a block among the reachable ones, as they are come to. -/
def reachablePreds (nodes : List BlockId) (id : BlockId) : List BlockId :=
  nodes.flatMap fun source =>
    ((targetsOf function source).filter fun target => target = id ∧ target ∈ nodes).map
      fun _ => source

/-- What dominators start from: a block that is not reachable has itself only. -/
def initialDominators (reachable : List BlockId) : AList fun _ : BlockId => Finset BlockId :=
  (blockIds function).foldl (fun dom id =>
    dom.insert id (if id ∉ reachable then {id} else if id = entry then {entry}
      else reachable.toFinset)) ∅

def computeDominators (order : List BlockId → List BlockId) (fuel : ℕ) :
    Option (AList fun _ : BlockId => Finset BlockId) :=
  if entry ∉ blockIds function then some ∅
  else do
    let reachable ← Worklist.reach (flowsTo function) fuel [entry] [entry]
    let nodes := order reachable
    Dominance.sweeps entry (reachablePreds function nodes) nodes fuel
      (initialDominators function reachable)

def checkUse (dom : AList fun _ : BlockId => Finset BlockId) (use : Use) : Option DominanceCode :=
  if use.value ∈ paramValues function then none
  else
    match definitionSite function use.value with
    | none => none
    | some (definition, index) =>
      if definition = use.block then
        if use.index ≤ index then some .useBeforeDefinition else none
      else if (dom.lookup use.block).any (definition ∈ ·) then none
      else some (.nonDominatingDefinition definition)

def verifyDominance (order : List BlockId → List BlockId) (fuel : ℕ) :
    Option (List DominanceProblem) := do
  let dom ← computeDominators function order fuel
  some ((uses function).filterMap fun use =>
    (checkUse function dom use).map (DominanceProblem.mk use ·))

/-- A way from the entry to a block, by the ids of the blocks it leaves, the last first. -/
abbrev Arrives (id : BlockId) (left : List BlockId) : Prop :=
  Dominance.Walk (flowsTo function) entry (id :: left)

/-- A value has been defined where a way comes to its use: by the call, in a block that the
way has left, or further up in the block of the use. -/
def DefinedBefore (use : Use) (left : List BlockId) : Prop :=
  use.value ∈ paramValues function ∨
    ∃ site, definitionSite function use.value = some site ∧
      (site.1 ∈ left ∨ (site.1 = use.block ∧ site.2 < use.index))

end

section
variable {function : Function} {order : List BlockId → List BlockId} {reachable nodes : List BlockId}

theorem lookup_initialDominators (id : BlockId) :
    (initialDominators function reachable).lookup id =
      if id ∈ blockIds function then
        some (if id ∉ reachable then {id} else if id = entry then {entry} else reachable.toFinset)
      else none := by
  unfold initialDominators
  rw [AList.lookup_foldl_insert, AList.lookup_empty]

theorem mem_reachablePreds {id source : BlockId} :
    source ∈ reachablePreds function nodes id ↔
      source ∈ nodes ∧ id ∈ targetsOf function source ∧ id ∈ nodes := by
  unfold reachablePreds
  simp only [List.mem_flatMap, List.mem_map, List.mem_filter, decide_eq_true_eq]
  constructor
  · rintro ⟨source', hsource, target, ⟨hmem, rfl, hin⟩, rfl⟩
    exact ⟨hsource, hmem, hin⟩
  · rintro ⟨hsource, hmem, hin⟩
    exact ⟨source, hsource, id, ⟨hmem, rfl, hin⟩, rfl⟩

/-- The blocks that were found from the entry. -/
structure Found (function : Function) (reachable : List BlockId) : Prop where
  entry_mem : entry ∈ reachable
  closed : ∀ n ∈ reachable, ∀ m ∈ flowsTo function n, m ∈ reachable
  arrives : ∀ n ∈ reachable, ∃ left, Arrives function n left
  blocks : ∀ n ∈ reachable, n ∈ blockIds function

theorem found_of_reach {fuel : ℕ} (hentry : entry ∈ blockIds function)
    (h : Worklist.reach (flowsTo function) fuel [entry] [entry] = some reachable) :
    Found function reachable := by
  have hclosed := Worklist.reach_closed h fun n hn => .inl hn
  have harrives := Worklist.reach_induction (P := fun n => ∃ left, Arrives function n left) h
    (fun n hn m hm => by
      obtain ⟨left, hleft⟩ := hn
      exact ⟨_, .step hleft hm⟩)
    (by simpa using ⟨[], Dominance.Walk.start⟩) (by simp)
  have hblocks := Worklist.reach_induction (P := fun n => n ∈ blockIds function) h
    (fun n _ m hm => by simpa using (List.mem_filter.mp hm).2) (by simpa using hentry) (by simp)
  exact ⟨hclosed.1 entry List.mem_cons_self, hclosed.2, harrives, hblocks⟩

section
variable (hfound : Found function reachable) (hperm : nodes.Perm reachable)
include hfound

theorem Found.mem_of_arrives {id : BlockId} {left : List BlockId}
    (h : Arrives function id left) : ∀ n ∈ id :: left, n ∈ reachable := by
  induction left generalizing id with
  | nil =>
    obtain ⟨rfl, -⟩ | ⟨_, _, hnil, -⟩ := h.head_cases
    · simpa using hfound.entry_mem
    · cases hnil
  | cons m left ih =>
    obtain ⟨-, hnil⟩ | ⟨_, _, heq, hearlier, hsucc⟩ := h.head_cases
    · cases hnil
    · cases heq
      have hall := ih hearlier
      intro n hn
      rcases List.mem_cons.mp hn with rfl | hn
      · exact hfound.closed m (hall m List.mem_cons_self) n hsucc
      · exact hall n hn

include hperm

theorem Found.preds : ∀ n ∈ nodes, n ≠ entry → reachablePreds function nodes n ≠ [] ∧
    ∀ p ∈ reachablePreds function nodes n, p ∈ nodes ∧ n ∈ flowsTo function p := by
  intro n hn hne
  have hflow : ∀ p ∈ reachablePreds function nodes n, p ∈ nodes ∧ n ∈ flowsTo function p := by
    intro p hp
    obtain ⟨hpn, htarget, -⟩ := mem_reachablePreds.mp hp
    have hblock := hfound.blocks n (hperm.mem_iff.mp hn)
    exact ⟨hpn, List.mem_filter.mpr ⟨htarget, by simpa using hblock⟩⟩
  refine ⟨?_, hflow⟩
  obtain ⟨left, hleft⟩ := hfound.arrives n (hperm.mem_iff.mp hn)
  obtain ⟨heq, -⟩ | ⟨m, earlier, -, hearlier, hsucc⟩ := hleft.head_cases
  · exact absurd heq hne
  · have hm : m ∈ nodes := hperm.mem_iff.mpr (hfound.mem_of_arrives hearlier m List.mem_cons_self)
    exact List.ne_nil_of_mem (mem_reachablePreds.mpr ⟨hm, (List.mem_filter.mp hsucc).1, hn⟩)

theorem Found.descends : Dominance.Descends (flowsTo function) entry (reachablePreds function nodes)
    nodes (initialDominators function reachable) := by
  have hlookup : ∀ n ∈ nodes, (initialDominators function reachable).lookup n =
      some (if n = entry then {entry} else reachable.toFinset) := by
    intro n hn
    have hmem := hperm.mem_iff.mp hn
    rw [lookup_initialDominators, if_pos (hfound.blocks n hmem), if_neg (not_not.mpr hmem)]
  have hwithin : ∀ n ∈ nodes, ∀ s, (initialDominators function reachable).lookup n = some s →
      ∀ d ∈ s, d ∈ reachable := by
    intro n hn s hs d hd
    rw [hlookup n hn] at hs
    cases hs
    split at hd
    · rw [Finset.mem_singleton.mp hd]
      exact hfound.entry_mem
    · exact List.mem_toFinset.mp hd
  constructor
  · intro n hn
    rw [hlookup n hn]
    rfl
  · intro n hn hne new existing hmeet hexisting d hd
    rw [hlookup n hn, if_neg hne] at hexisting
    cases hexisting
    obtain ⟨hps, hmem⟩ := hfound.preds hperm n hn hne
    rw [List.mem_toFinset]
    rcases (Dominance.mem_meet hmeet hps).mp hd with rfl | hall
    · exact hperm.mem_iff.mp hn
    · obtain ⟨p, hp⟩ := List.exists_mem_of_ne_nil _ hps
      have hpn := (hmem p hp).1
      exact hwithin p hpn _ (hlookup p hpn) d (hall p hp _ (hlookup p hpn))
  · intro n hn existing hexisting d hd hdom
    rw [hlookup n hn] at hexisting
    cases hexisting
    split
    · rename_i hentry
      subst hentry
      rw [Dominance.dominates_start hdom]
      exact Finset.mem_singleton_self entry
    · exact List.mem_toFinset.mpr (hperm.mem_iff.mp hd)
  · rw [hlookup entry (hperm.mem_iff.mpr hfound.entry_mem), if_pos rfl]

theorem Found.mem_iff_dominates {fuel : ℕ} {dom : AList fun _ : BlockId => Finset BlockId}
    (hsweeps : Dominance.sweeps entry (reachablePreds function nodes) nodes fuel
      (initialDominators function reachable) = some dom) {id d : BlockId} {left : List BlockId}
    (harrives : Arrives function id left) :
    (dom.lookup id).any (d ∈ ·) = true ↔ Dominance.Dominates (flowsTo function) entry d id := by
  have hpreds := hfound.preds hperm
  obtain ⟨hdescends, hstable⟩ := Dominance.sweeps_stable (hfound.descends hperm) hpreds hsweeps
  have hid : id ∈ nodes := hperm.mem_iff.mpr (hfound.mem_of_arrives harrives id List.mem_cons_self)
  obtain ⟨s, hs⟩ := Option.isSome_iff_exists.mp (hdescends.keyed id hid)
  rw [hs]
  simp only [Option.any_some, decide_eq_true_eq]
  constructor
  · intro hd left' harrives'
    refine (hstable.dominates hdescends hpreds ?_ (hperm.mem_iff.mpr hfound.entry_mem) harrives').2
      s hs hd
    intro n hn m hm
    have hmn := hperm.mem_iff.mpr (hfound.closed n (hperm.mem_iff.mp hn) m hm)
    exact ⟨hmn, mem_reachablePreds.mpr ⟨hn, (List.mem_filter.mp hm).1, hmn⟩⟩
  · intro hdom
    have hd : d ∈ nodes := hperm.mem_iff.mpr (hfound.mem_of_arrives harrives d (hdom left harrives))
    exact hdescends.holds id hid s hs d hd hdom

end

theorem checkUse_eq_none_iff {fuel : ℕ} {dom : AList fun _ : BlockId => Finset BlockId}
    (hfound : Found function reachable) (hperm : nodes.Perm reachable)
    (hsweeps : Dominance.sweeps entry (reachablePreds function nodes) nodes fuel
      (initialDominators function reachable) = some dom) {use : Use} {left : List BlockId}
    (harrives : Arrives function use.block left)
    (hdefined : use.value ∈ paramValues function ∨ (definitionSite function use.value).isSome) :
    checkUse function dom use = none ↔
      ∀ left, Arrives function use.block left → DefinedBefore function use left := by
  unfold checkUse DefinedBefore
  by_cases hparam : use.value ∈ paramValues function
  · simp [hparam]
  · obtain ⟨⟨definition, index⟩, hsite⟩ := Option.isSome_iff_exists.mp (hdefined.resolve_left hparam)
    rw [if_neg hparam, hsite]
    by_cases hblock : definition = use.block
    · -- The way that comes to the block for the first time has not been in it before.
      subst hblock
      simp only [if_true, Option.some.injEq, exists_eq_left', hparam, false_or, true_and]
      obtain ⟨first, hfirst, hnew⟩ := harrives.first
      constructor
      · intro hnone left' _
        right
        by_contra hnot
        rw [if_pos (by omega)] at hnone
        cases hnone
      · intro hall
        have hlt := (hall first hfirst).resolve_left hnew
        rw [if_neg (by omega)]
    · simp only [hblock, if_false, Option.some.injEq, exists_eq_left', hparam, false_or, false_and,
        or_false, ite_eq_left_iff, reduceCtorEq, imp_false, not_not]
      rw [hfound.mem_iff_dominates hperm hsweeps harrives]
      constructor
      · intro hdom left' harrives'
        exact (List.mem_cons.mp (hdom left' harrives')).resolve_left hblock
      · intro hall left' harrives'
        exact List.mem_cons_of_mem _ (hall left' harrives')

end

theorem silent_iff {dom : AList fun _ : BlockId => Finset BlockId} {use : Use}
    (huse : use ∈ uses function) :
    (∀ problem ∈ (uses function).filterMap fun use =>
        (checkUse function dom use).map (DominanceProblem.mk use ·), problem.use ≠ use) ↔
      checkUse function dom use = none := by
  constructor
  · intro hall
    by_contra hsome
    obtain ⟨code, hcode⟩ := Option.ne_none_iff_exists'.mp hsome
    exact hall ⟨use, code⟩ (List.mem_filterMap.mpr ⟨use, huse, by rw [hcode]; rfl⟩) rfl
  · intro hnone problem hproblem
    obtain ⟨use', -, hmap⟩ := List.mem_filterMap.mp hproblem
    obtain ⟨code, hcode, rfl⟩ := Option.map_eq_some_iff.mp hmap
    rintro rfl
    rw [hnone] at hcode
    cases hcode

theorem block_of_use {use : Use} (huse : use ∈ uses function) :
    use.block ∈ blockIds function := by
  obtain ⟨block, hblock, huse⟩ := List.mem_flatMap.mp huse
  have hid : use.block = block.id := by
    rcases List.mem_append.mp huse with huse | huse
    · obtain ⟨⟨instruction, index⟩, -, huse⟩ := List.mem_flatMap.mp huse
      obtain ⟨value, -, rfl⟩ := List.mem_map.mp huse
      rfl
    · obtain ⟨value, -, rfl⟩ := List.mem_map.mp huse
      rfl
  rw [hid]
  exact List.mem_map_of_mem hblock

theorem Arrives.of_no_entry (hentry : entry ∉ blockIds function) {id : BlockId}
    {left : List BlockId} (h : Arrives function id left) : id = entry := by
  induction left generalizing id with
  | nil =>
    obtain ⟨rfl, -⟩ | ⟨_, _, hnil, -⟩ := h.head_cases
    · rfl
    · cases hnil
  | cons m left ih =>
    obtain ⟨-, hnil⟩ | ⟨_, _, heq, hearlier, hsucc⟩ := h.head_cases
    · cases hnil
    · cases heq
      rw [ih hearlier] at hsucc
      have hnone : blockById function entry = none := by
        apply List.find?_eq_none.mpr
        intro block hblock hid
        have hid : block.id = entry := by simpa using hid
        exact hentry (hid ▸ List.mem_map_of_mem (List.mem_reverse.mp hblock))
      unfold flowsTo targetsOf at hsucc
      rw [hnone] at hsucc
      cases hsucc

theorem verifyDominance_returns (function : Function) (order : List BlockId → List BlockId)
    (horder : ∀ l, (order l).Perm l) : ∃ fuel, (verifyDominance function order fuel).isSome := by
  unfold verifyDominance computeDominators
  by_cases hentry : entry ∈ blockIds function
  · have hflow : ∀ n ∈ (blockIds function).toFinset, ∀ m ∈ flowsTo function n,
        m ∈ (blockIds function).toFinset :=
      fun n _ m hm => List.mem_toFinset.mpr (by simpa using (List.mem_filter.mp hm).2)
    have hstart : ∀ n ∈ [entry], n ∈ (blockIds function).toFinset := by simpa using hentry
    obtain ⟨fuel, hreach⟩ := Worklist.reach_returns hflow hstart fun n (hn : n ∈ [entry]) => hn
    obtain ⟨reachable, hreachable⟩ := Option.isSome_iff_exists.mp hreach
    have hfound := found_of_reach hentry hreachable
    have hperm := horder reachable
    have hmore := Worklist.reach_mono hreachable (Nat.le_add_right fuel
      (Dominance.weight (order reachable) (initialDominators function reachable) + 1))
    have hsweeps := Dominance.sweeps_returns (hfound.descends hperm) (hfound.preds hperm)
      (Nat.lt_of_lt_of_le (Nat.lt_succ_self _) (Nat.le_add_left
        (Dominance.weight (order reachable) (initialDominators function reachable) + 1) fuel))
    obtain ⟨dom, hdom⟩ := Option.isSome_iff_exists.mp hsweeps
    refine ⟨fuel +
      (Dominance.weight (order reachable) (initialDominators function reachable) + 1), ?_⟩
    rw [if_neg (not_not.mpr hentry), hmore]
    simp [hdom]
  · exact ⟨0, by simp [hentry]⟩

/-- The problems found leave a use in a reachable block out just where its value has been
defined on every way to it. -/
theorem problems_spare_iff {order : List BlockId → List BlockId} (horder : ∀ l, (order l).Perm l)
    {fuel : ℕ} {problems : List DominanceProblem}
    (hverify : verifyDominance function order fuel = some problems) {use : Use}
    (huse : use ∈ uses function) {left : List BlockId} (harrives : Arrives function use.block left)
    (hdefined : use.value ∈ paramValues function ∨ (definitionSite function use.value).isSome) :
    (∀ problem ∈ problems, problem.use ≠ use) ↔
      ∀ left, Arrives function use.block left → DefinedBefore function use left := by
  obtain ⟨dom, hdom, hverify⟩ := Option.bind_eq_some_iff.mp hverify
  cases hverify
  rw [silent_iff huse]
  unfold computeDominators at hdom
  by_cases hentry : entry ∈ blockIds function
  · rw [if_neg (not_not.mpr hentry)] at hdom
    obtain ⟨reachable, hreach, hsweeps⟩ := Option.bind_eq_some_iff.mp hdom
    exact checkUse_eq_none_iff (found_of_reach hentry hreach) (horder reachable) hsweeps harrives
      hdefined
  · exact absurd (block_of_use huse) (harrives.of_no_entry hentry ▸ hentry)

/-- The check says nothing of a use in a reachable block just where the value has been
defined on every way from the entry to it. -/
theorem dominance_exact (function : Function) (order : List BlockId → List BlockId)
    (horder : ∀ l, (order l).Perm l) :
    (∃ fuel, (verifyDominance function order fuel).isSome) ∧
      ∀ fuel problems, verifyDominance function order fuel = some problems →
        ∀ use ∈ uses function, (∃ left, Arrives function use.block left) →
          use.value ∈ paramValues function ∨ (definitionSite function use.value).isSome →
          ((∀ problem ∈ problems, problem.use ≠ use) ↔
            ∀ left, Arrives function use.block left → DefinedBefore function use left) := by
  refine ⟨verifyDominance_returns function order horder, ?_⟩
  intro fuel problems hverify use huse ⟨left, harrives⟩ hdefined
  exact problems_spare_iff horder hverify huse harrives hdefined

/-- `bb1` defines `%1`, `bb2` does not, and both go on to `bb3`, which returns it. -/
def definesOnOneArm : Function where
  id := ⟨0⟩
  name := ⟨0⟩
  typeParams := []
  requirements := []
  params := [⟨⟨0⟩, .bool, false⟩]
  returnType := .bool
  raises := []
  blocks := [⟨⟨0⟩, [], .condBranch ⟨0⟩ ⟨1⟩ ⟨2⟩⟩,
    ⟨⟨1⟩, [.value ⟨1⟩ .bool (.const (.bool true))], .branch ⟨3⟩⟩, ⟨⟨2⟩, [], .branch ⟨3⟩⟩,
    ⟨⟨3⟩, [], .ret (some ⟨1⟩)⟩]

theorem dominance_exact_oneArm :
    (∀ problem ∈ [DominanceProblem.mk ⟨⟨1⟩, ⟨3⟩, 0⟩ (.nonDominatingDefinition ⟨1⟩)],
        problem.use ≠ ⟨⟨1⟩, ⟨3⟩, 0⟩) ↔
      ∀ left, Arrives definesOnOneArm ⟨3⟩ left →
        DefinedBefore definesOnOneArm ⟨⟨1⟩, ⟨3⟩, 0⟩ left :=
  (dominance_exact definesOnOneArm List.reverse fun l => l.reverse_perm).2 20 _ (by decide)
    ⟨⟨1⟩, ⟨3⟩, 0⟩ (by decide) ⟨[⟨1⟩, ⟨0⟩], .step (.step .start (by decide)) (by decide)⟩
    (by decide)

end Napitia.Verify
