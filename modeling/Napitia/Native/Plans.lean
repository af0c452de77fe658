import Napitia.Native.Interpreted
import Napitia.Native.Soundness

/-!
# What a plan promises

What `validate` has found out, in the module's own terms: the functions `main` calls and the
blocks `bb0` goes on to are all planned and nothing else is. A call of a planned function ends
with a value of the type the function names, or for one of three reasons.
-/
namespace Napitia.Native
open Nir

/-! ### A program of two functions -/

/-- `func add_two(n: i64) -> i64 { n + 2 }` -/
def addTwo : Function where
  id := ⟨1⟩
  name := ⟨1⟩
  typeParams := []
  requirements := []
  params := [⟨⟨0⟩, .i64, false⟩]
  returnType := .i64
  raises := []
  blocks := [⟨⟨0⟩, [.value ⟨1⟩ .i64 (.const (.int 2)), .value ⟨2⟩ .i64 (.add ⟨0⟩ ⟨1⟩)],
    .ret (some ⟨2⟩)⟩]

/-- `func main() -> i64 { var n = add_two(40); n }` -/
def callsAddTwo : Function where
  id := ⟨0⟩
  name := ⟨0⟩
  typeParams := []
  requirements := []
  params := []
  returnType := .i64
  raises := []
  blocks := [⟨⟨0⟩, [.value ⟨0⟩ .i64 .alloc, .value ⟨1⟩ .i64 (.const (.int 40)),
    .value ⟨2⟩ .i64 (.call ⟨1⟩ [] [⟨1⟩] []), .store ⟨0⟩ ⟨2⟩ .observe,
    .value ⟨3⟩ .i64 (.load ⟨0⟩)], .ret (some ⟨3⟩)⟩]

def twoFunctions : Module := { functions := [addTwo, callsAddTwo] }

def twoNames (name : Symbol) : String := if name.index = 0 then "main" else "add_two"

def twoPlan : NativePlan := ⟨⟨0⟩, .int, [⟨0⟩, ⟨1⟩], [(⟨0⟩, [⟨0⟩]), (⟨1⟩, [⟨0⟩])]⟩

theorem twoFunctions_planned : validate twoFunctions ⟨0⟩ twoNames (fun _ => none) (fun _ => "")
    targetTriple [] = .ok twoPlan := rfl

section
variable {m : Module} {v : Validator} {plan : NativePlan} {function : Function} {blocks : Blocks}
  {id target : BlockId}

/-- The blocks of a function that one of its blocks goes on to. -/
def targetsOf (function : Function) (id : BlockId) : List BlockId :=
  match function.findBlock id with
  | none => []
  | some block => (terminatorTargets block.terminator).filter fun target =>
      (function.findBlock target).isSome

theorem declaredTargets_eq (h : v.blocksById function = .ok blocks) :
    declaredTargets blocks = targetsOf function := by
  have hget := get_eq_findBlock h
  funext id
  unfold declaredTargets targetsOf
  rw [hget]
  cases function.findBlock id with
  | none => rfl
  | some block => simp only [hget]

/-- The functions that one function calls from a block it can come to. -/
def Calls (m : Module) (caller callee : ItemId) : Prop :=
  ∃ function id block, m.findFunction caller = some function ∧
    Relation.ReflTransGen (fun a b => b ∈ targetsOf function a) ⟨0⟩ id ∧
    function.findBlock id = some block ∧ (m.findFunction callee).isSome ∧
    (callee ∈ block.instructions.filterMap calleeOf ∨ ∃ typeArgs args evidence okSlot okTarget errors,
      block.terminator = .invoke callee typeArgs args evidence okSlot okTarget errors)

theorem mem_directCallees {callee : ItemId} {reachable : List BlockId} :
    callee ∈ directCallees blocks reachable ↔ ∃ id ∈ reachable, ∃ block, blocks.get id = some block ∧
      (callee ∈ block.instructions.filterMap calleeOf ∨
        ∃ typeArgs args evidence okSlot okTarget errors,
          block.terminator = .invoke callee typeArgs args evidence okSlot okTarget errors) := by
  unfold directCallees
  rw [List.mem_flatMap]
  refine exists_congr fun id => and_congr_right fun _ => ?_
  cases blocks.get id with
  | none => simp
  | some block =>
    simp only [Option.some.injEq, exists_eq_left', List.mem_append]
    refine or_congr_right ?_
    cases block.terminator with
    | invoke => simp [eq_comm]
    | _ => simp

theorem Planned.calls_iff (h : Planned m v plan) {caller callee : ItemId}
    (hcaller : caller ∈ plan.functions) :
    callee ∈ (v.calleesOf caller).filter (fun callee => (v.get callee).isSome) ↔
      Calls m caller callee := by
  obtain ⟨function, blocks, hfind, _, hadmitted⟩ := h.admitted caller hcaller
  have hcallees : v.calleesOf caller = directCallees blocks (reachableBlocks blocks) := by
    unfold Validator.calleesOf
    simp only [h.get_eq, hfind, hadmitted.keyed]
  rw [List.mem_filter, hcallees, mem_directCallees, h.get_eq]
  simp only [(reachableBlocks_spec hadmitted.entered).2, declaredTargets_eq hadmitted.keyed,
    get_eq_findBlock hadmitted.keyed]
  constructor
  · rintro ⟨⟨id, hreach, block, hblock, hcall⟩, hsome⟩
    exact ⟨function, id, block, hfind, hreach, hblock, hsome, hcall⟩
  · rintro ⟨found, id, block, hfound, hreach, hblock, hsome, hcall⟩
    cases hfind.symm.trans hfound
    exact ⟨⟨id, hreach, block, hblock, hcall⟩, hsome⟩

theorem Planned.reached_iff (h : Planned m v plan) (id : ItemId) :
    id ∈ plan.functions ↔ Relation.ReflTransGen (Calls m) plan.entry id := by
  constructor
  · intro hid
    have hpath := (h.mem_iff id).mp hid
    induction hpath with
    | refl => exact .refl
    | @tail b c hpath hedge ih =>
      have hb := (h.mem_iff b).mpr hpath
      exact (ih hb).tail ((h.calls_iff hb).mp hedge)
  · intro hpath
    induction hpath with
    | refl => exact (h.mem_iff _).mpr .refl
    | @tail b c _ hcall ih =>
      exact (h.mem_iff c).mpr (((h.mem_iff b).mp ih).tail ((h.calls_iff ih).mpr hcall))

theorem Planned.entry_only (h : Planned m v plan) : ∃ f, m.findFunction plan.entry = some f ∧
    (∀ g ∈ m.functions, v.resolve g.name = "main" ↔ g = f) ∧
    scalarOf f.returnType = some plan.entryResult := by
  obtain ⟨f, hfind, hname, hresult⟩ := h.entry_named
  obtain ⟨hmem, hid⟩ := (find?_key_iff h.unique).mp hfind
  refine ⟨f, hfind, fun g hg => ⟨fun hnamed => ?_, fun hsame => hsame ▸ hname⟩, hresult⟩
  exact List.inj_on_of_nodup_map h.unique hg hmem ((h.only g hg hnamed).trans hid.symm)

variable {fpu : FloatUnit} {source : Hir.Declarations.SourceId} {resolve : Symbol → String} {registry : ItemRegistry}
  {displayTy : Ty → String} {name : String} {imports : List Lexer.Span}

/-- A plan is what the one function named `main` can come to: the functions in ascending order, and
of each of them the blocks, each once. -/
theorem plan_exact (h : validate m source resolve registry displayTy name imports = .ok plan) :
    (∃ f, m.findFunction plan.entry = some f ∧
      (∀ g ∈ m.functions, resolve g.name = "main" ↔ g = f) ∧
      scalarOf f.returnType = some plan.entryResult) ∧
    plan.functions.Pairwise (fun a b => a.index < b.index) ∧
    (∀ id, id ∈ plan.functions ↔ Relation.ReflTransGen (Calls m) plan.entry id) ∧
    ∀ id ∈ plan.functions, ∃ function reachable, m.findFunction id = some function ∧
      plan.reachableBlocks id = some reachable ∧ reachable.Nodup ∧
      ∀ b, b ∈ reachable ↔
        Relation.ReflTransGen (fun a b => b ∈ targetsOf function a) ⟨0⟩ b := by
  have hplanned := planned_of_validate h
  refine ⟨hplanned.entry_only, hplanned.sorted, hplanned.reached_iff, fun id hid => ?_⟩
  obtain ⟨function, blocks, hfind, hreachable, hadmitted⟩ := hplanned.admitted id hid
  obtain ⟨hnodup, hmem⟩ := reachableBlocks_spec hadmitted.entered
  rw [declaredTargets_eq hadmitted.keyed] at hmem
  exact ⟨function, reachableBlocks blocks, hfind, hreachable, hnodup, hmem⟩

theorem plan_exact_twoFunctions : (∀ g ∈ twoFunctions.functions,
      twoNames g.name = "main" ↔ g = callsAddTwo) ∧
    Relation.ReflTransGen (Calls twoFunctions) ⟨0⟩ ⟨1⟩ ∧
    ∀ b, b ∈ [(⟨0⟩ : BlockId)] ↔
      Relation.ReflTransGen (fun a b => b ∈ targetsOf addTwo a) ⟨0⟩ b := by
  obtain ⟨⟨f, hfind, honly, _⟩, _, hcalls, hblocks⟩ := plan_exact twoFunctions_planned
  cases hfind
  obtain ⟨function, reachable, hfunction, hreachable, _, hreached⟩ := hblocks ⟨1⟩ (by decide)
  cases hfunction
  cases hreachable
  exact ⟨honly, (hcalls ⟨1⟩).mp (by decide), hreached⟩

/-! ### Calls of what is planned -/

theorem Planned.closed (h : Planned m v plan) {id callee : ItemId} {isEntry : Bool} (hid : id ∈ plan.functions) (hget : v.get id = some function)
    (hadmitted : Admitted v isEntry function blocks)
    (hcallee : callee ∈ directCallees blocks (reachableBlocks blocks))
    (hsome : (v.get callee).isSome) : callee ∈ plan.functions := by
  rw [h.mem_iff] at hid ⊢
  refine hid.tail (List.mem_filter.mpr ⟨?_, hsome⟩)
  unfold Validator.calleesOf
  simp only [hget, hadmitted.keyed]
  exact hcallee

theorem Planned.safe (h : Planned m v plan) (hverified : ∀ id ∈ plan.functions, ∀ function,
    m.findFunction id = some function → Verified function) (n depth : ℕ) :
    SafeCalls v plan.functions (Reference.runFunction m n depth) := by
  refine runFunction_safe h.get_eq (fun id hid function hget => ?_) n depth
  have ⟨found, blocks, hfound, _, hadmitted⟩ := h.admitted id hid
  have hmine := (h.get_eq id).symm.trans hget
  cases hmine.symm.trans hfound
  exact ⟨_, blocks, hadmitted, hverified id hid function hmine,
    fun callee hcallee hsome => h.closed hid hget hadmitted hcallee hsome⟩

/-- In a verified program, a call of a planned function with data for its parameters leaves the
interpreter as it was and hands over a value of the result's type, where it is not an overflow, a
lack of fuel or the depth of the calls that ends it. -/
theorem planned_call_ends
    (hplan : validate m source resolve registry displayTy name imports = .ok plan)
    (hverified : ∀ id ∈ plan.functions, ∀ function, m.findFunction id = some function →
      Verified function)
    {id : ItemId} {function : Function} (hid : id ∈ plan.functions)
    (hfind : m.findFunction id = some function) {ds : List Datum} (hmatch : Matches function ds)
    (n : ℕ) (i : Interpreter.InterpreterState) :
    (∃ d : Datum, scalarOf function.returnType = some d.scalar ∧
      Interpreter.callFunction m fpu n ⟨function, [], ds.map Datum.value, []⟩ i =
        .ok (.returned d.value) i) ∨
    ∃ stop i', Interpreter.callFunction m fpu n ⟨function, [], ds.map Datum.value, []⟩ i =
        .error stop i' ∧
      (stop = .outOfFuel ∨ stop = .failed (Interpreter.invalid Reference.tooDeepMessage) ∨
        ∃ op, stop = .failed (.arithmetic (.overflow op))) := by
  have hplanned := planned_of_validate hplan
  have hsafe := hplanned.safe hverified n i.callDepth id hid function ds
    ((hplanned.get_eq id).trans hfind) hmatch
  have htells := Reference.callFunction_tells m fpu n i function ds
  change Reference.Tells _ (Reference.runFunction m n i.callDepth function ds)
    (Interpreter.callFunction m fpu n ⟨function, [], ds.map Datum.value, []⟩) _ at htells
  cases hrun : Reference.runFunction m n i.callDepth function ds with
  | ok d =>
    rw [hrun] at htells hsafe
    obtain ⟨outcome, i', hok, houtcome, hi⟩ := htells
    cases houtcome
    cases hi
    exact .inl ⟨d, hsafe, hok⟩
  | error halt =>
    rw [hrun] at htells hsafe
    cases halt with
    | stuck => exact absurd rfl hsafe
    | overflow op =>
      obtain ⟨i', hstop⟩ := htells _ rfl
      exact .inr ⟨_, i', hstop, .inr (.inr ⟨op, rfl⟩)⟩
    | outOfFuel =>
      obtain ⟨i', hstop⟩ := htells _ rfl
      exact .inr ⟨_, i', hstop, .inl rfl⟩
    | tooDeep =>
      obtain ⟨i', hstop⟩ := htells _ rfl
      exact .inr ⟨_, i', hstop, .inr (.inl rfl)⟩

end

theorem twoFunctions_verified : ∀ id ∈ twoPlan.functions, ∀ function,
    twoFunctions.findFunction id = some function → Verified function := by
  intro id hid function hfind
  have hid : id = ⟨0⟩ ∨ id = ⟨1⟩ := by simpa [twoPlan] using hid
  have hfunction : function = callsAddTwo ∨ function = addTwo := by
    rcases hid with rfl | rfl
    · exact .inl (Option.some.inj hfind).symm
    · exact .inr (Option.some.inj hfind).symm
  rcases hfunction with rfl | rfl
  · exact ⟨by simp [callsAddTwo]; decide, fun order => order, 10, fun _ => .refl _, rfl⟩
  · exact ⟨by simp [addTwo]; decide, fun order => order, 10, fun _ => .refl _, rfl⟩

theorem planned_call_ends_addTwo : (∃ d : Datum, scalarOf .i64 = some d.scalar ∧
      Interpreter.callFunction twoFunctions idleUnit 10 ⟨addTwo, [], [.int 40], []⟩ {} =
        .ok (.returned d.value) {}) ∨
    ∃ stop i', Interpreter.callFunction twoFunctions idleUnit 10 ⟨addTwo, [], [.int 40], []⟩ {} =
        .error stop i' ∧
      (stop = .outOfFuel ∨ stop = .failed (Interpreter.invalid Reference.tooDeepMessage) ∨
        ∃ op, stop = .failed (.arithmetic (.overflow op))) :=
  planned_call_ends twoFunctions_planned twoFunctions_verified
    (show ⟨1⟩ ∈ twoPlan.functions by decide) rfl
    (show Matches addTwo [.int 40] from .cons rfl .nil) 10 {}

end Napitia.Native
