import Napitia.Native.Reference

/-!
# The interpreter runs the subset as the reference does

A frame of the interpreter holds the environment's data and owns nothing, so none of its
ownership questions has more than one answer. What it is asked about a datum comes first, then
one instruction, a block, and a call by induction on the fuel of both.
-/
namespace Napitia.Native
open Nir

namespace Datum
variable {m : Module} {t : Interpreter.ResourceTable} (d : Datum)

theorem validateGraph : Interpreter.validateOwnedGraph m t d.value = .ok () := by
  cases d <;> rfl

theorem planTransfer_run : (Interpreter.planTransfer m t d.value).run {} = .ok (d.value, {}) := by
  cases d <;> rfl

theorem toObservingView :
    Interpreter.toObservingView t Limits.maxGenericDepth d.value = .ok d.value := by
  cases d <;> rfl

theorem ownsLive_false (exiting : List Interpreter.ResourceId) :
    Interpreter.ownsLive t exiting d.value = false := by
  cases d <;> rfl

section
variable {d} {ty : Ty} (h : scalarOf ty = some d.scalar)
include h

theorem matchesDeclared : Interpreter.argumentMatchesDeclared t d.value ty = .ok true := by
  rw [scalarOf_eq_some h]
  cases d <;> rfl

theorem validateArgument : Interpreter.validateArgument m t d.value ty = .ok () := by
  have hgraph := d.validateGraph (m := m) (t := t)
  unfold Interpreter.validateOwnedGraph at hgraph
  unfold Interpreter.validateArgument
  rw [hgraph]
  show (Interpreter.argumentMatchesDeclared t d.value ty >>= fun b => _) = _
  rw [matchesDeclared h]
  rfl

end
end Datum

theorem substitute_scalar {ty : Ty} {scalar : Scalar} (h : scalarOf ty = some scalar) :
    substitute ty ∅ = ty := by
  rw [scalarOf_eq_some h]
  cases scalar <;> rfl

theorem executable_scalar {ty : Ty} {scalar : Scalar} (h : scalarOf ty = some scalar) :
    Interpreter.unexecutableNumericName ty = none := by
  rw [scalarOf_eq_some h]
  cases scalar <;> rfl

namespace Reference
open Interpreter

/-- What the interpreter says where calls nest too deeply. -/
def tooDeepMessage : String :=
  "call depth exceeded " ++ toString Limits.maxCallDepth ++
    " frames: a recursion this execution never unwound"

def Halt.stop : Halt → Option Stop
  | .overflow op => some (.failed (.arithmetic (.overflow op)))
  | .tooDeep => some (.failed (invalid tooDeepMessage))
  | .outOfFuel => some .outOfFuel
  | .stuck => none

/-- An action that ends as a run of the reference does, in a state that goes with its result. -/
def Tells {σ α β : Type} (P : α → β → σ → Prop) (r : Except Halt α) (x : EStateM Stop σ β)
    (s : σ) : Prop :=
  match r with
  | .ok a => ∃ b s', x s = .ok b s' ∧ P a b s'
  | .error halt => ∀ stop, halt.stop = some stop → ∃ s', x s = .error stop s'

section
variable {σ α β γ δ : Type} {P : α → β → σ → Prop} {Q : γ → δ → σ → Prop} {r : Except Halt α}
  {k : α → Except Halt γ} {x : EStateM Stop σ β} {f : β → EStateM Stop σ δ} {s : σ}

theorem Tells.bind (h : Tells P r x s)
    (hk : ∀ a b s', P a b s' → Tells Q (k a) (f b) s') : Tells Q (r >>= k) (x >>= f) s := by
  cases r with
  | ok a =>
    obtain ⟨b, s', hx, hp⟩ := h
    have hnext := hk a b s' hp
    unfold Tells at hnext ⊢
    rw [EStateM.bind_of_ok hx]
    exact hnext
  | error halt =>
    intro stop hstop
    have ⟨s', hx⟩ := h stop hstop
    exact ⟨s', EStateM.bind_of_error hx⟩

theorem Tells.congr {y : EStateM Stop σ β} (heq : y s = x s) (h : Tells P r x s) :
    Tells P r y s := by
  unfold Tells at h ⊢
  rw [heq]
  exact h

theorem Tells.stuck {y : EStateM Stop σ δ} : Tells Q (.error .stuck) y s := by
  intro stop hstop
  cases hstop

theorem Tells.map {Q : α → δ → σ → Prop} (h : Tells P r x s)
    (hk : ∀ a b s', P a b s' → ∃ c u, f b s' = .ok c u ∧ Q a c u) : Tells Q r (x >>= f) s := by
  cases r with
  | ok a =>
    obtain ⟨b, s', hx, hp⟩ := h
    have ⟨c, u, hf, hq⟩ := hk a b s' hp
    exact ⟨c, u, (EStateM.bind_of_ok hx).trans hf, hq⟩
  | error halt =>
    intro stop hstop
    have ⟨s', hx⟩ := h stop hstop
    exact ⟨s', EStateM.bind_of_error hx⟩

theorem Tells.after {b : β} {s' : σ} {g : Except Halt γ} (hx : x s = .ok b s')
    (h : Tells Q g (f b) s') : Tells Q g (x >>= f) s := by
  unfold Tells at h ⊢
  rw [EStateM.bind_of_ok hx]
  exact h

end

/-- A frame that holds an environment, and nothing that is not a datum. -/
structure Follows (i : InterpreterState) (env : Env) (s : FrameState) :
    Prop where
  reads : ∀ id d, env id = some d → s.values.lookup id = some d.value
  data : ∀ id v, s.values.lookup id = some v → ∃ d : Datum, v = d.value
  interpreter : s.interpreter = i
  leases : s.activeLeases = []

section
variable {m : Module} {fpu : FloatUnit} {i : InterpreterState} {env : Env}
  {s : FrameState} {values : Values}

theorem read_of_get (hreads : ∀ id d, env id = some d → values.lookup id = some d.value)
    {id : ValueId} {d : Datum} (h : env.get id = .ok d) : values.read id = .ok d.value := by
  unfold Env.get at h
  split at h <;> cases h
  rename_i hd
  rw [Values.read, hreads id d hd]
  rfl

theorem mapM_read_of_get (hreads : ∀ id d, env id = some d → values.lookup id = some d.value)
    {ids : List ValueId} {ds : List Datum} (h : ids.mapM env.get = .ok ds) :
    ids.mapM values.read = .ok (ds.map Datum.value) := by
  induction ids generalizing ds with
  | nil =>
    cases h
    rfl
  | cons id ids ih =>
    rw [List.mapM_cons] at h ⊢
    obtain ⟨d, hd, h⟩ := Except.bind_eq_ok.mp h
    obtain ⟨rest, hrest, h⟩ := Except.bind_eq_ok.mp h
    cases h
    rw [read_of_get hreads hd, ih hrest]
    rfl

theorem Follows.insert (h : Follows i env s) (id : ValueId) (d : Datum) :
    Follows i (Function.update env id (some d)) (s.insert id d.value) := by
  constructor
  · intro other e he
    by_cases heq : other = id
    · subst heq
      rw [Function.update_self] at he
      cases he
      exact AList.lookup_insert _
    · rw [Function.update_of_ne heq] at he
      exact (AList.lookup_insert_ne heq).trans (h.reads other e he)
  · intro other v hv
    by_cases heq : other = id
    · subst heq
      rw [show (s.insert other d.value).values.lookup other = some d.value from
        AList.lookup_insert _] at hv
      exact ⟨d, (Option.some.inj hv).symm⟩
    · exact h.data other v ((AList.lookup_insert_ne heq).symm.trans hv)
  · exact h.interpreter
  · exact h.leases

theorem Follows.alloc (h : Follows i env s) (id : ValueId) :
    Follows i (Function.update env id none) (s.insert id .unit) := by
  have hinsert := h.insert id .unit
  constructor
  · intro other e he
    by_cases heq : other = id
    · subst heq
      rw [Function.update_self] at he
      cases he
    · rw [Function.update_of_ne heq] at he
      exact hinsert.reads other e ((Function.update_of_ne heq _ _).trans he)
  · exact hinsert.data
  · exact h.interpreter
  · exact h.leases

theorem Follows.nothing_leaks (h : Follows i env s) (t : ResourceTable)
    (observing : List ValueId) (exiting : List ResourceId) :
    leakedResource t s.values observing exiting = none := by
  unfold leakedResource
  rw [Option.map_eq_none_iff, List.find?_eq_none]
  intro e he
  have hmem := (List.mem_filter.mp ((List.mem_insertionSort _).mp he)).1
  obtain ⟨d, hd⟩ := h.data e.1 e.2 (AList.mem_lookup_iff.mpr hmem)
  rw [hd, Datum.ownsLive_false]
  exact Bool.false_ne_true

variable {call : Function → List Datum → Except Halt Datum} {nested : Call}

/-- The calls of a frame do as the reference's. -/
abbrev CallsAlike (i : InterpreterState)
    (call : Function → List Datum → Except Halt Datum) (nested : Call) : Prop :=
  ∀ function ds, Tells (fun d outcome s' => outcome = .returned d.value ∧ s' = i)
    (call function ds) (nested ⟨function, [], ds.map Datum.value, []⟩) i

variable {ctx : FrameContext}

/-- One value computed by both. -/
theorem evalKind_tells (hcall : CallsAlike i call nested)
    (hreads : ∀ id d, env id = some d → values.lookup id = some d.value) (kind : ValueKind) :
    Tells (fun d v s' => v = Datum.value d ∧ s' = i) (evalKind m call env kind)
      (eval m fpu nested ctx values kind) i := by
  have hmeaning : Tells (fun d v s' => v = Datum.value d ∧ s' = i) (told (meaning env kind))
      (eval m fpu nested ctx values kind) i := by
    cases hmeant : meaning env kind with
    | none => exact .stuck
    | some meant =>
      have heval : eval m fpu nested ctx values kind = ask meant.told :=
        eval_of_meaning hreads hmeant
      cases meant with
      | ok d => exact ⟨d.value, i, congrFun heval i, rfl, rfl⟩
      | error failure =>
        cases failure with
        | overflow op =>
          intro stop hstop
          cases hstop
          exact ⟨i, congrFun heval i⟩
        | _ => exact .stuck
  cases kind with
  | call callee typeArgs args evidence =>
    rw [evalKind]
    split
    · rename_i hplain
      simp only [Bool.and_eq_true, List.isEmpty_iff] at hplain
      obtain ⟨rfl, rfl⟩ := hplain
      cases hargs : args.mapM env.get with
      | error halt =>
        rw [mapM_get_halts hargs]
        exact .stuck
      | ok ds =>
        cases hfind : m.findFunction callee with
        | none => exact .stuck
        | some function =>
          have hrequest : requestCall m ctx values callee [] args [] =
              .ok ⟨function, [], ds.map Datum.value, []⟩ := by
            unfold requestCall resolveTypeArgs
            rw [mapM_read_of_get hreads hargs, hfind]
            rfl
          refine Tells.after (b := ⟨function, [], ds.map Datum.value, []⟩) (?_ : _ = EStateM.Result.ok _ i)
            ?_
          · rw [hrequest]
            rfl
          · refine (hcall function ds).map fun d outcome s' h => ?_
            rw [h.1]
            exact ⟨d.value, s', rfl, rfl, h.2⟩
    · exact .stuck
  | _ => exact hmeaning

/-- A frame that goes on as the reference's environment does. -/
abbrev Onward (i : InterpreterState) :
    Env → Unit → FrameState → Prop := fun env _ s => Follows i env s

theorem inInterpreter_tells {r : Except Halt Datum}
    {x : Run InterpreterState Value}
    (hx : Tells (fun d v s' => v = Datum.value d ∧ s' = s.interpreter) r x s.interpreter) :
    Tells (fun d v s' => v = Datum.value d ∧ s' = s) r (inInterpreter x) s := by
  cases r with
  | ok d =>
    have ⟨v, i', hv, heq, hi⟩ := hx
    exact ⟨v, s, EStateM.zoom_eq_ok.mpr ⟨i', hv, by rw [hi]⟩, heq, rfl⟩
  | error halt =>
    intro stop hstop
    have ⟨i', hi⟩ := hx stop hstop
    refine ⟨{ s with interpreter := i' }, ?_⟩
    simp only [inInterpreter, EStateM.zoom, hi]

theorem execStore_tells (h : Follows i env s) (slot value : ValueId) :
    Tells (Onward i) (instruction m call env (.store slot value .observe))
      (execInstruction m fpu nested ctx (.store slot value .observe)) s := by
  show Tells _ (env.get value >>= fun d => .ok (Function.update env slot (some d))) _ s
  cases hd : env.get value with
  | error halt =>
    rw [get_halts hd]
    exact .stuck
  | ok d =>
    have hread := read_of_get h.reads hd
    have hslot : checkSlot "a store" s.resources s.values [] slot = .ok () := by
      unfold checkSlot
      split
      · rename_i existing hexisting
        have ⟨e, he⟩ := h.data slot existing hexisting
        rw [he, Datum.ownsLive_false]
        rfl
      · rfl
    refine ⟨(), s.insert slot d.value, ?_, h.insert slot d⟩
    have hstore : execStore m slot value .observe s = .ok () (s.insert slot d.value) := by
      unfold execStore
      rw [EStateM.bind_of_ok (EStateM.get_apply s), hread]
      show ((liftExcept (checkSlot "a store" s.resources s.values [] slot) :
        Op FrameState Unit) >>= _) s = _
      rw [hslot]
      show ((liftExcept (toObserverIfResource s.resources d.value) :
        Op FrameState Value) >>= _) s = _
      unfold toObserverIfResource
      rw [d.toObservingView]
      rfl
    exact EStateM.adaptExcept_eq_ok.mpr hstore

/-- One instruction run by both. -/
theorem execValue_tells (hcall : CallsAlike i call nested) (hsubst : ctx.subst = ∅)
    (h : Follows i env s) (result : ValueId) (ty : Ty) (kind : ValueKind) :
    Tells (Onward i) (instruction m call env (.value result ty kind))
      (execInstruction m fpu nested ctx (.value result ty kind)) s := by
  cases hscalar : scalarOf ty with
  | none =>
    simp only [instruction, hscalar]
    exact .stuck
  | some scalar =>
    -- Every kind but an `alloc` is evaluated, and then held against its declared type.
    have hexec : execInstruction m fpu nested ctx (.value result ty kind) s =
        (computeValue m fpu nested ctx ty kind >>= fun value =>
          checkComputed result ty kind value >>= fun _ =>
            modify fun s => s.insert result value) s := by
      show execValue m fpu nested ctx result ty kind s = _
      unfold execValue
      rw [show substitute ty ctx.subst = ty by rw [hsubst, substitute_scalar hscalar],
        executable_scalar hscalar]
      rfl
    have hrest : Tells (Onward i) (evalKind m call env kind >>= fun d => do
          expect ty d
          return Function.update env result (some d))
        (inInterpreter (eval m fpu nested ctx s.values kind) >>=
          fun value => checkComputed result ty kind value >>= fun _ =>
            modify fun s => s.insert result value) s := by
      have hvalue : Tells _ (evalKind m call env kind) (eval m fpu nested ctx s.values kind) i :=
        evalKind_tells hcall h.reads kind
      rw [← h.interpreter] at hvalue
      refine (inInterpreter_tells hvalue).bind fun d v s' hv => ?_
      obtain ⟨rfl, rfl⟩ := hv
      cases hexpect : expect ty d with
      | error halt =>
        rw [expect_halts hexpect]
        exact .stuck
      | ok =>
        have hmatch := Datum.matchesDeclared (t := s'.resources) (expect_eq_ok.mp hexpect)
        have hcheck : checkComputed result ty kind d.value s' = .ok () s' := by
          unfold checkComputed
          split
          · rfl
          · show ((ask (argumentMatchesDeclared s'.resources d.value ty) :
              Run FrameState Bool) >>= _) s' = _
            rw [hmatch]
            rfl
        exact ⟨(), s'.insert result d.value, EStateM.bind_of_ok hcheck, h.insert result d⟩
    cases kind with
    | alloc =>
      simp only [instruction, hscalar]
      exact ⟨(), s.insert result .unit, hexec.trans rfl, h.alloc result⟩
    | placeRead | observePlace =>
      simp only [instruction, hscalar]
      exact .stuck
    | _ =>
      simp only [instruction, hscalar]
      exact .congr hexec hrest

theorem instruction_tells (hcall : CallsAlike i call nested) (hsubst : ctx.subst = ∅)
    (h : Follows i env s) (inst : Instruction) :
    Tells (Onward i) (instruction m call env inst)
      (execInstruction m fpu nested ctx inst) s := by
  cases inst with
  | value result ty kind => exact execValue_tells hcall hsubst h result ty kind
  | store slot value mode =>
    cases mode with
    | observe => exact execStore_tells h slot value
    | transfer => exact .stuck
  | _ => exact .stuck

theorem instructions_tells (hcall : CallsAlike i call nested) (hsubst : ctx.subst = ∅)
    (insts : List Instruction) (h : Follows i env s) :
    Tells (Onward i) (insts.foldlM (instruction m call) env)
      (insts.forM (execInstruction m fpu nested ctx)) s := by
  induction insts generalizing env s with
  | nil => exact ⟨(), s, rfl, h⟩
  | cons inst insts ih =>
    rw [List.foldlM_cons]
    exact (instruction_tells hcall hsubst h inst).bind fun env' _ s' h' => ih h'

def Next.shown : Next → Interpreter.Next
  | .goto block => .goto block
  | .exit d => .exit (.returned d.value)

theorem refuseOpen_ok (h : Follows i env s) : refuseOpenObservation s = .ok () s := by
  unfold refuseOpenObservation
  rw [EStateM.bind_of_ok (EStateM.get_apply s), h.leases]
  rfl

theorem exitReturn_some (hsubst : ctx.subst = ∅) (h : Follows i env s) {id : ValueId} {d : Datum}
    (hd : env.get id = .ok d) (hty : scalarOf ctx.function.returnType = some d.scalar) :
    exitReturn m ctx (some id) s = .ok d.value s := by
  have htransfer : exitTransfer m ctx "returned" d.value s = .ok d.value s := by
    unfold exitTransfer
    rw [EStateM.bind_of_ok (EStateM.get_apply s), d.planTransfer_run]
    refine Eq.trans (EStateM.bind_of_ok rfl) ?_
    refine Eq.trans (EStateM.bind_of_ok (EStateM.get_apply s)) ?_
    dsimp only
    rw [h.nothing_leaks]
    rfl
  unfold exitReturn
  show ((liftExcept (s.values.read id) : Op _ _) >>= _) s = _
  rw [read_of_get h.reads hd]
  show ((liftExcept (validateArgument m s.resources d.value
    (substitute ctx.function.returnType ctx.subst)) : Op _ _) >>= _) s = _
  rw [hsubst, substitute_scalar hty, Datum.validateArgument hty]
  exact htransfer

/-- One end of a block run by both. -/
theorem terminator_tells (hsubst : ctx.subst = ∅) (h : Follows i env s) (t : Terminator) :
    Tells (fun next next' s' => next' = Next.shown next ∧ s' = s)
      (terminator ctx.function.returnType env t)
      (execTerminator m nested ctx t) s := by
  have hleave : ∀ (id : Option ValueId) (d : Datum),
      exitReturn m ctx id s = .ok d.value s →
      execTerminator m nested ctx (.ret id) s =
        .ok (.exit (.returned d.value)) s := by
    intro id d hexit
    have hopen : perform refuseOpenObservation s = .ok () s :=
      EStateM.adaptExcept_eq_ok.mpr (refuseOpen_ok h)
    have hperform : perform (exitReturn m ctx id) s = .ok d.value s :=
      EStateM.adaptExcept_eq_ok.mpr hexit
    show (perform refuseOpenObservation >>= fun _ =>
      perform (exitReturn m ctx id) >>= fun v =>
        pure (Interpreter.Next.exit (.returned v))) s = _
    rw [EStateM.bind_of_ok hopen, EStateM.bind_of_ok hperform]
    rfl
  cases t with
  | branch target => exact ⟨_, s, rfl, rfl, rfl⟩
  | ret value =>
    cases value with
    | none =>
      rw [terminator]
      cases hexpect : expect ctx.function.returnType .unit with
      | error halt =>
        rw [expect_halts hexpect]
        exact .stuck
      | ok =>
        refine ⟨_, s, hleave none .unit ?_, rfl, rfl⟩
        unfold exitReturn
        refine Eq.trans (EStateM.bind_of_ok (EStateM.get_apply s)) ?_
        refine Eq.trans (EStateM.bind_of_ok (EStateM.get_apply s)) ?_
        rw [h.nothing_leaks]
        rfl
    | some id =>
      rw [terminator]
      cases hd : env.get id with
      | error halt =>
        rw [get_halts hd]
        exact .stuck
      | ok d =>
        cases hexpect : expect ctx.function.returnType d with
        | error halt =>
          simp only [hexpect, Bind.bind, Except.bind]
          rw [expect_halts hexpect]
          exact .stuck
        | ok =>
          simp only [hexpect, Bind.bind, Except.bind]
          exact ⟨_, s, hleave (some id) d (exitReturn_some hsubst h hd (expect_eq_ok.mp hexpect)),
            rfl, rfl⟩
  | condBranch condition thenBlock elseBlock =>
    rw [terminator]
    cases hd : env.get condition with
    | error halt =>
      rw [get_halts hd]
      exact .stuck
    | ok d =>
      cases d with
      | bool b =>
        refine ⟨_, s, ?_, rfl, rfl⟩
        show ((ask (s.values.read condition) : Run _ _) >>= _) s = _
        rw [read_of_get h.reads hd]
        cases b <;> rfl
      | _ => exact .stuck
  | _ => exact .stuck

/-- The blocks of a frame run by both, by induction on the fuel. -/
theorem runBlocks_tells (hcall : CallsAlike i call nested) (hsubst : ctx.subst = ∅) {n : ℕ}
    {id : BlockId} (h : Follows i env s) :
    Tells (fun d outcome s' => outcome = .returned d.value ∧ s'.interpreter = i)
      (runBlocks m call ctx.function n id env)
      (Interpreter.runBlocks m fpu nested ctx n id) s := by
  induction n generalizing id env s with
  | zero =>
    intro stop hstop
    cases hstop
    exact ⟨s, rfl⟩
  | succ n ih =>
    unfold runBlocks Interpreter.runBlocks
    cases hblock : ctx.function.findBlock id with
    | none => exact .stuck
    | some block =>
      unfold runBlock execBlock
      simp only [bind_assoc]
      refine (instructions_tells hcall hsubst block.instructions h).bind fun env' _ s' h' => ?_
      refine (terminator_tells hsubst h' block.terminator).bind fun next next' s'' hnext => ?_
      obtain ⟨rfl, rfl⟩ := hnext
      cases next with
      | goto target => exact ih h'
      | exit d => exact ⟨_, s'', rfl, rfl, h'.interpreter⟩

/-- What a call is entered with: each parameter's datum. -/
def entered (params : List Param) (ds : List Datum) : List (ValueId × Value) :=
  (params.zip ds).map fun p => (p.1.value, p.2.value)

theorem bindParameter_run {t : ResourceTable} {param : Param} {d : Datum}
    (hty : scalarOf param.ty = some d.scalar) (htake : param.take = false) :
    (bindParameter m t ∅ param d.value).run {} = .ok ((param.value, d.value), {}) := by
  have hscalar := scalarOf_eq_some hty
  obtain ⟨value, ty, take⟩ := param
  cases htake
  cases d <;> cases hscalar <;> rfl

theorem bindAll_tells {t : ResourceTable} {params : List Param} {ds : List Datum}
    {env env' : Env} (hbind : bindAll params ds env = .ok env') :
    params.length = ds.length ∧ ((params.zip (ds.map Datum.value)).mapM fun p =>
      bindParameter m t ∅ p.1 p.2).run {} = .ok (entered params ds, {}) ∧
    ∀ {s : FrameState}, Follows i env s → Follows i env'
      { s with values :=
          (entered params ds).foldl (fun values b => values.insert b.1 b.2) s.values } := by
  induction params generalizing ds env with
  | nil =>
    cases ds with
    | cons => cases hbind
    | nil =>
      cases hbind
      exact ⟨rfl, rfl, fun h => h⟩
  | cons param params ih =>
    cases ds with
    | nil => cases hbind
    | cons d ds =>
      rw [bindAll] at hbind
      obtain ⟨_, hexpect, hbind⟩ := Except.bind_eq_ok.mp hbind
      split at hbind
      · cases hbind
      rename_i htake
      obtain ⟨hlength, hrun, hfollows⟩ := ih hbind
      have hone := bindParameter_run (m := m) (t := t) (expect_eq_ok.mp hexpect)
        (Bool.eq_false_iff.mpr htake)
      refine ⟨congrArg Nat.succ hlength, ?_, fun h => hfollows (h.insert param.value d)⟩
      rw [List.map_cons, List.zip_cons_cons, List.mapM_cons]
      exact StateT.run_bind_eq_ok.mpr ⟨_, _, hone, StateT.run_bind_eq_ok.mpr ⟨_, _, hrun, rfl⟩⟩

end

/-- What the frame of a plain function reads. -/
def contextOf (function : Function) : FrameContext :=
  ⟨function, [], ∅, (function.params.filter fun p => !p.take).map (·.value),
    loadOriginOf function⟩

theorem bindParameters_ok {m : Module} {function : Function} {ds : List Datum} {env : Env}
    {i : InterpreterState} (htype : function.typeParams = [])
    (hrequirements : function.requirements = []) (hentry : (function.findBlock ⟨0⟩).isSome)
    (hbind : bindAll function.params ds (fun _ => none) = .ok env) :
    ∃ values, Interpreter.bindParameters m ⟨function, [], ds.map Datum.value, []⟩ i =
      .ok (contextOf function, values) i ∧ Follows i env ⟨i, values, []⟩ := by
  obtain ⟨hlength, hrun, hfollows⟩ := bindAll_tells (m := m) (t := i.resources) hbind
  refine ⟨(entered function.params ds).foldl (fun values b => values.insert b.1 b.2) ∅, ?_, ?_⟩
  · unfold Interpreter.bindParameters
    simp only [hlength, List.length_map, hrequirements, htype, List.length_nil, ne_eq,
      not_true_eq_false, if_false, List.map_nil]
    show ((liftExcept (((function.params.zip (ds.map Datum.value)).mapM fun p =>
      bindParameter m i.resources ∅ p.1 p.2).run {}) : Op _ _) >>= _) i = _
    rw [hrun]
    show (if (function.findBlock ⟨0⟩).isNone = true then _ else _ : Op
      InterpreterState (FrameContext × Values)) i = _
    rw [if_neg (by simpa using Option.isSome_iff_ne_none.mp hentry)]
    rfl
  · refine hfollows (s := ⟨i, ∅, []⟩) ⟨?_, ?_, rfl, rfl⟩
    · intro id d hd
      cases hd
    · intro id v hv
      cases (AList.lookup_empty id).symm.trans hv

theorem callFunction_succ {m : Module} {fpu : FloatUnit} (n : ℕ)
    (request : CallRequest) (i : InterpreterState) :
    callFunction m fpu (n + 1) request i =
      if Limits.maxCallDepth ≤ i.callDepth then
        .error (.failed (invalid tooDeepMessage)) i
      else
        match callFunctionInFrame m fpu n (callFunction m fpu n) request
          i.enter with
        | .ok outcome s' => .ok outcome s'.leave
        | .error e s' => .error e (s'.abandon i.resources.leaseMark).leave :=
  ite_apply (i.callDepth ≥ Limits.maxCallDepth) _ _ i

/-- What a frame comes to, told of the interpreter around it. -/
def onInterpreter {α : Type} : EStateM.Result Stop FrameState α →
    EStateM.Result Stop InterpreterState α
  | .ok outcome s => .ok outcome s.interpreter
  | .error stop s => .error stop s.interpreter

/-- A call of the interpreter ends as the reference's does, and leaves the interpreter as it
was. -/
theorem callFunction_tells (m : Module) (fpu : FloatUnit) (n : ℕ) (i : InterpreterState) :
    CallsAlike i (runFunction m n i.callDepth) (callFunction m fpu n) := by
  induction n generalizing i with
  | zero =>
    intro function ds stop hstop
    cases hstop
    exact ⟨i, rfl⟩
  | succ n ih =>
    intro function ds
    unfold Tells
    rw [callFunction_succ, runFunction]
    by_cases hdeep : Limits.maxCallDepth ≤ i.callDepth
    · rw [if_pos hdeep, if_pos hdeep]
      intro stop hstop
      cases hstop
      exact ⟨i, rfl⟩
    rw [if_neg hdeep, if_neg hdeep]
    by_cases hplain : (function.typeParams.isEmpty && function.requirements.isEmpty &&
        (function.findBlock ⟨0⟩).isSome) = true
    · rw [if_pos hplain]
      simp only [Bool.and_eq_true, List.isEmpty_iff] at hplain
      cases hbind : bindAll function.params ds fun _ => none with
      | error halt =>
        rw [bindAll_halts hbind]
        intro stop hstop
        cases hstop
      | ok env =>
        obtain ⟨values, hvalues, hfollows⟩ := bindParameters_ok (m := m) (i := i.enter)
          hplain.1.1 hplain.1.2 hplain.2 hbind
        have hsubst : (contextOf function).subst = ∅ := rfl
        have hblocks : Tells _ (runBlocks m (runFunction m n (i.callDepth + 1)) function n ⟨0⟩ env)
            (Interpreter.runBlocks m fpu (callFunction m fpu n) (contextOf function) n ⟨0⟩) _ :=
          runBlocks_tells (ih i.enter) hsubst hfollows
        have hframe : callFunctionInFrame m fpu n (callFunction m fpu n)
            ⟨function, [], ds.map Datum.value, []⟩ i.enter =
            onInterpreter (Interpreter.runBlocks m fpu (callFunction m fpu n)
              (contextOf function) n ⟨0⟩ ⟨i.enter, values, []⟩) := by
          have hperform : perform (Interpreter.bindParameters m
              ⟨function, [], ds.map Datum.value, []⟩) i.enter =
              .ok (contextOf function, values) i.enter := EStateM.adaptExcept_eq_ok.mpr hvalues
          unfold callFunctionInFrame
          refine Eq.trans (EStateM.bind_of_ok hperform) ?_
          dsimp only
          cases Interpreter.runBlocks m fpu (callFunction m fpu n) (contextOf function) n ⟨0⟩
            ⟨i.enter, values, []⟩ <;> rfl
        rw [hframe]
        simp only [Bind.bind, Except.bind]
        cases hr : runBlocks m (runFunction m n (i.callDepth + 1)) function n ⟨0⟩ env with
        | ok d =>
          rw [hr] at hblocks
          obtain ⟨outcome, s', hrun, houtcome, hinterpreter⟩ := hblocks
          refine ⟨outcome, i, ?_, houtcome, rfl⟩
          rw [hrun]
          show EStateM.Result.ok outcome s'.interpreter.leave = _
          rw [hinterpreter]
          rfl
        | error halt =>
          rw [hr] at hblocks
          intro stop hstop
          obtain ⟨s', hrun⟩ := hblocks stop hstop
          rw [hrun]
          exact ⟨_, rfl⟩
    · rw [if_neg hplain]
      intro stop hstop
      cases hstop

end Reference
end Napitia.Native
