import Napitia.Native.Meaning

/-!
# A program of the native subset, run on its own

What is left of a run where no value owns anything: an environment, blocks and calls. The
interpreter and the emitted code are both compared with this, so that neither comparison has to
know of the other's machine. Fuel is counted as the interpreter's is. A run is stuck where it
leaves the subset.
-/
namespace Napitia.Native.Reference
open Nir

inductive Halt where
  | overflow (op : Numeric.IntOp)
  | tooDeep
  | outOfFuel
  | stuck
  deriving DecidableEq, Repr

/-- What the values of a frame are, and what its slots have been given. -/
abbrev Env := ValueId → Option Datum

def Env.get (env : Env) (id : ValueId) : Except Halt Datum :=
  match env id with
  | some d => .ok d
  | none => .error .stuck

def told : Option Meant → Except Halt Datum
  | some (.ok d) => .ok d
  | some (.error (.overflow op)) => .error (.overflow op)
  | _ => .error .stuck

def expect (ty : Ty) (d : Datum) : Except Halt Unit :=
  if scalarOf ty = some d.scalar then .ok () else .error .stuck

inductive Next where
  | goto (block : BlockId)
  | exit (d : Datum)

section
variable (m : Module) (call : Function → List Datum → Except Halt Datum)

def evalKind (env : Env) : ValueKind → Except Halt Datum
  | .call callee typeArgs args evidence =>
    if typeArgs.isEmpty && evidence.isEmpty then do
      let ds ← args.mapM env.get
      match m.findFunction callee with
      | some function => call function ds
      | none => .error .stuck
    else .error .stuck
  | kind => told (meaning env kind)

/-- A slot that is allocated has not been given anything yet, whatever it held before. -/
def instruction (env : Env) : Instruction → Except Halt Env
  | .value result ty kind =>
    match scalarOf ty, kind with
    | none, _ => .error .stuck
    | some _, .alloc => .ok (Function.update env result none)
    | some _, kind => do
      let d ← evalKind m call env kind
      expect ty d
      return Function.update env result (some d)
  | .store slot value .observe => do return Function.update env slot (some (← env.get value))
  | _ => .error .stuck

def terminator (returnType : Ty) (env : Env) : Terminator → Except Halt Next
  | .ret none => do
    expect returnType .unit
    return .exit .unit
  | .ret (some id) => do
    let d ← env.get id
    expect returnType d
    return .exit d
  | .branch target => .ok (.goto target)
  | .condBranch condition thenBlock elseBlock => do
    match ← env.get condition with
    | .bool b => return .goto (if b then thenBlock else elseBlock)
    | _ => .error .stuck
  | _ => .error .stuck

def runBlock (returnType : Ty) (env : Env) (block : BasicBlock) : Except Halt (Env × Next) := do
  let env ← block.instructions.foldlM (instruction m call) env
  return (env, ← terminator returnType env block.terminator)

def runBlocks (function : Function) : ℕ → BlockId → Env → Except Halt Datum
  | 0, _, _ => .error .outOfFuel
  | n + 1, id, env =>
    match function.findBlock id with
    | none => .error .stuck
    | some block => do
      match ← runBlock m call function.returnType env block with
      | (env, .goto next) => runBlocks function n next env
      | (_, .exit d) => return d

end

def bindAll : List Param → List Datum → Env → Except Halt Env
  | [], [], env => .ok env
  | param :: params, d :: ds, env => do
    expect param.ty d
    if param.take then .error .stuck
    else bindAll params ds (Function.update env param.value (some d))
  | _, _, _ => .error .stuck

def runFunction (m : Module) : ℕ → ℕ → Function → List Datum → Except Halt Datum
  | 0, _, _, _ => .error .outOfFuel
  | n + 1, depth, function, args =>
    if Limits.maxCallDepth ≤ depth then .error .tooDeep
    else if function.typeParams.isEmpty && function.requirements.isEmpty &&
        (function.findBlock ⟨0⟩).isSome then do
      let env ← bindAll function.params args fun _ => none
      runBlocks m (runFunction m n (depth + 1)) function n ⟨0⟩ env
    else .error .stuck

/-! ### Where a run only gets stuck -/

section
variable {env : Env}

theorem get_halts {id : ValueId} {halt : Halt} (h : env.get id = .error halt) : halt = .stuck := by
  unfold Env.get at h
  split at h <;> cases h
  rfl

theorem mapM_get_halts {ids : List ValueId} {halt : Halt} (h : ids.mapM env.get = .error halt) :
    halt = .stuck := by
  induction ids with
  | nil => cases h
  | cons id ids ih =>
    rw [List.mapM_cons] at h
    cases hid : env.get id with
    | error other =>
      rw [hid] at h
      cases h
      exact get_halts hid
    | ok d =>
      rw [hid] at h
      cases hids : ids.mapM env.get with
      | error other =>
        rw [show (ids.mapM env.get : Except Halt _) = .error other from hids] at h
        cases h
        exact ih hids
      | ok ds =>
        rw [show (ids.mapM env.get : Except Halt _) = .ok ds from hids] at h
        cases h

theorem expect_eq_ok {ty : Ty} {d : Datum} : expect ty d = .ok () ↔ scalarOf ty = some d.scalar := by
  unfold expect
  split <;> simp_all

theorem expect_halts {ty : Ty} {d : Datum} {halt : Halt} (h : expect ty d = .error halt) :
    halt = .stuck := by
  unfold expect at h
  split at h <;> cases h
  rfl

theorem bindAll_halts {params : List Param} {ds : List Datum} {env : Env} {halt : Halt}
    (h : bindAll params ds env = .error halt) : halt = .stuck := by
  induction params generalizing ds env with
  | nil => cases ds <;> cases h; rfl
  | cons param params ih =>
    cases ds with
    | nil => cases h; rfl
    | cons d ds =>
      rw [bindAll] at h
      cases hexpect : expect param.ty d with
      | error other =>
        rw [hexpect] at h
        cases h
        exact expect_halts hexpect
      | ok =>
        rw [hexpect] at h
        change (if param.take = true then _ else _) = _ at h
        split at h
        · cases h
          rfl
        · exact ih h

end
end Napitia.Native.Reference
