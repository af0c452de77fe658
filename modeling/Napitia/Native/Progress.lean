import Napitia.Native.Admission
import Napitia.Native.Reference
import Napitia.Verify.Dominance

/-!
# An accepted program stays in the subset

What the capability check knows of a place in a function holds of every environment the place
is come to with: each value it takes for defined is there, with the scalar of its type, and so
is what has been stored. So no operation is ever without a meaning. That a slot is not stored
to ahead of its own allocation is the verifier's to say.
-/
namespace Napitia.Native
open Nir
open Reference (Halt Env Next)

namespace Reference
variable {α β : Type} {r : Except Halt α} {f : α → Except Halt β} {P P' : α → Prop} {Q : β → Prop}

/-- A run that does not leave the subset, and what its result is like. -/
def Safe (r : Except Halt α) (P : α → Prop) : Prop :=
  match r with
  | .ok a => P a
  | .error halt => halt ≠ .stuck

theorem Safe.bind (h : Safe r P) (hf : ∀ a, P a → Safe (f a) Q) : Safe (r >>= f) Q := by
  cases r with
  | ok a => exact hf a h
  | error halt => exact h

theorem Safe.mono (h : Safe r P) (himp : ∀ a, P a → P' a) : Safe r P' := by
  cases r with
  | ok a => exact himp a h
  | error halt => exact h

end Reference
open Reference (Safe)

section
variable {v : Validator} {function : Function} {block : BlockId} {types : List (ValueId × Ty)}
  {slots live stored : Finset ValueId} {env : Env} {a b value result : ValueId}
  {scalar resultScalar : Scalar}

/-- What is known of an environment: the scalars of what it has, that it has what is defined,
and that it has what is stored. -/
structure Fits (types : List (ValueId × Ty)) (slots live stored : Finset ValueId) (env : Env) :
    Prop where
  typed : ∀ id d, env id = some d → (types.lookup id).bind scalarOf = some d.scalar
  defined : ∀ id ∈ live, id ∉ slots → (env id).isSome
  given : ∀ id ∈ stored, (env id).isSome

section
variable (h : Fits types slots live stored env)
include h

theorem Fits.operand (hoperand : v.operand function block types slots live value = .ok scalar) :
    ∃ d, env value = some d ∧ d.scalar = scalar := by
  unfold Validator.operand at hoperand
  simp only [Except.guard_eq_ok] at hoperand
  obtain ⟨hslot, hlive, hoperand⟩ := hoperand
  have ⟨d, hd⟩ := Option.isSome_iff_exists.mp (h.defined value (not_not.mp hlive) hslot)
  have htyped := h.typed value d hd
  refine ⟨d, hd, ?_⟩
  cases hty : types.lookup value with
  | none =>
    rw [hty] at htyped
    cases htyped
  | some ty =>
    rw [hty] at htyped hoperand
    simp only [Option.bind_some] at htyped
    simp only [htyped] at hoperand
    cases hoperand
    rfl

theorem Fits.binaryInt
    (hcheck : v.binaryInt function block types slots live result resultScalar a b = .ok ()) :
    resultScalar = .int ∧ ∃ x y, env a = some (.int x) ∧ env b = some (.int y) := by
  unfold Validator.binaryInt at hcheck
  obtain ⟨left, hleft, hcheck⟩ := Except.bind_eq_ok.mp hcheck
  obtain ⟨right, hright, hcheck⟩ := Except.bind_eq_ok.mp hcheck
  rw [refuse_eq_ok] at hcheck
  have ⟨x, hx, hxs⟩ := h.operand hleft
  have ⟨y, hy, hys⟩ := h.operand hright
  simp only [ne_eq, not_or, not_not] at hcheck
  cases x <;> cases y <;> simp_all [Datum.scalar]

theorem Fits.compare
    (hcheck : v.checkCompare function block types slots live result resultScalar a b = .ok scalar) :
    resultScalar = .bool ∧ ∃ x y, env a = some x ∧ env b = some y ∧ x.scalar = scalar ∧
      y.scalar = scalar := by
  unfold Validator.checkCompare at hcheck
  obtain ⟨left, hleft, hcheck⟩ := Except.bind_eq_ok.mp hcheck
  obtain ⟨right, hright, hcheck⟩ := Except.bind_eq_ok.mp hcheck
  rw [Except.guard_eq_ok] at hcheck
  have ⟨x, hx, hxs⟩ := h.operand hleft
  have ⟨y, hy, hys⟩ := h.operand hright
  have hpure := hcheck.2
  cases hpure
  simp only [ne_eq, not_or, not_not] at hcheck
  exact ⟨hcheck.1.2, x, y, hx, hy, hxs, hys.trans hcheck.1.1.symm⟩

end

theorem told_safe {meant : Meant} (hmeant : ∀ d, meant = .ok d → d.scalar = scalar)
    (hfails : ∀ f, meant = .error f → ∃ op, f = .overflow op) :
    Safe (Reference.told (some meant)) (fun d => d.scalar = scalar) := by
  cases meant with
  | ok d => exact hmeant d rfl
  | error f =>
    obtain ⟨op, rfl⟩ := hfails f rfl
    exact nofun

theorem told_ints {op : Numeric.I64 → Numeric.I64 → Except Numeric.ArithFailure Numeric.I64}
    {x y : Numeric.I64} (hfails : ∀ f, op x y = .error f → ∃ o, f = .overflow o) :
    Safe (Reference.told (meantInts op (.int x) (.int y))) (fun d => d.scalar = .int) := by
  refine told_safe (fun d hd => ?_) fun f hf => hfails f ?_
  · cases hop : op x y <;> rw [hop] at hd <;> cases hd
    rfl
  · cases hop : op x y <;> rw [hop] at hf <;> cases hf
    rfl

/-! ### Operations -/

def Matches (function : Function) (ds : List Datum) : Prop :=
  List.Forall₂ (fun param d => scalarOf param.ty = some d.scalar) function.params ds

/-- Calls of some functions, with data for their parameters, do not leave the subset. -/
def SafeCalls (v : Validator) (functions : List ItemId)
    (call : Function → List Datum → Except Halt Datum) : Prop :=
  ∀ id ∈ functions, ∀ f ds, v.get id = some f → Matches f ds →
    Safe (call f ds) (fun d => scalarOf f.returnType = some d.scalar)

section
variable {m : Module} {call : Function → List Datum → Except Halt Datum} {functions : List ItemId}

theorem Fits.arguments (h : Fits types slots live stored env) {name : String} {index : ℕ}
    {args : List ValueId} {params : List Param} (hlength : args.length = params.length)
    (hcheck : v.checkArguments function block types slots live name index (args.zip params) =
      .ok ()) : ∃ ds, args.mapM env.get = .ok ds ∧
        List.Forall₂ (fun param d => scalarOf param.ty = some d.scalar) params ds := by
  induction args generalizing params index with
  | nil =>
    cases List.length_eq_zero_iff.mp hlength.symm
    exact ⟨[], rfl, .nil⟩
  | cons arg args ih =>
    cases params with
    | nil => cases hlength
    | cons param params =>
      rw [List.zip_cons_cons, Validator.checkArguments] at hcheck
      obtain ⟨actual, hoperand, hcheck⟩ := Except.bind_eq_ok.mp hcheck
      rw [Except.guard_eq_ok] at hcheck
      have ⟨d, hd, hscalar⟩ := h.operand hoperand
      have ⟨ds, hds, hmatch⟩ := ih (Nat.succ.inj hlength) hcheck.2
      refine ⟨d :: ds, ?_, .cons ?_ hmatch⟩
      · rw [List.mapM_cons, Env.get, hd, hds]
        rfl
      · rw [hscalar]
        exact (not_not.mp hcheck.1).symm

theorem Fits.calls (h : Fits types slots live stored env) {callee : ItemId} {typeArgs : List Ty}
    {args : List ValueId} {evidence : List Evidence} (hget : ∀ id, v.get id = m.findFunction id)
    (hcalls : SafeCalls v functions call) (hin : (v.get callee).isSome → callee ∈ functions)
    (hcheck : v.checkCall function block types slots live result resultScalar callee typeArgs args
      evidence = .ok ()) :
    Safe (Reference.evalKind m call env (.call callee typeArgs args evidence))
      (fun d => d.scalar = resultScalar) := by
  unfold Validator.checkCall at hcheck
  simp only [Except.guard_eq_ok] at hcheck
  obtain ⟨htypes, hevidence, hcheck⟩ := hcheck
  simp only [Bool.not_eq_true', Bool.not_eq_false] at htypes hevidence
  cases htarget : v.get callee with
  | none =>
    rw [htarget] at hcheck
    cases hcheck
  | some target =>
    simp only [htarget, Except.guard_eq_ok] at hcheck
    obtain ⟨hlength, hcheck⟩ := hcheck
    obtain ⟨_, hargs, hreturned⟩ := Except.bind_eq_ok.mp hcheck
    have ⟨ds, hds, hmatch⟩ := h.arguments (not_not.mp hlength) hargs
    have hsafe := hcalls callee (hin (by rw [htarget]; rfl)) target ds htarget hmatch
    have heval : Reference.evalKind m call env (.call callee typeArgs args evidence) =
        call target ds := by
      simp only [Reference.evalKind, htypes, hevidence, Bool.and_self, if_true, hds, ← hget, htarget]
      rfl
    rw [heval]
    refine hsafe.mono fun d hd => ?_
    have hsame := not_not.mp (refuse_eq_ok.mp hreturned)
    exact Option.some.inj (hd.symm.trans hsame)

/-- A value that was checked is safe to compute, and of its scalar. -/
theorem Fits.evalKind (h : Fits types slots live stored env) {ty : Ty} {kind : ValueKind}
    (hty : scalarOf ty = some resultScalar) (halloc : kind ≠ .alloc)
    (hget : ∀ id, v.get id = m.findFunction id) (hcalls : SafeCalls v functions call)
    (hin : ∀ callee typeArgs args evidence, kind = .call callee typeArgs args evidence →
      (v.get callee).isSome → callee ∈ functions)
    (hload : ∀ slot, kind = .load slot → slot ∈ stored)
    (hconst : ∀ i, kind = .const (.int i) → ty = .i64 → Numeric.i64.contains i)
    (hcheck : v.checkValue function block types slots live result ty kind = .ok ()) :
    Safe (Reference.evalKind m call env kind) (fun d => d.scalar = resultScalar) := by
  unfold Validator.checkValue at hcheck
  simp only [hty] at hcheck
  cases kind
  case alloc => exact absurd rfl halloc
  case call callee typeArgs args evidence =>
    exact h.calls hget hcalls (hin callee typeArgs args evidence rfl) hcheck
  case const c =>
    cases c with
    | int i =>
      have hscalar : resultScalar = .int := by
        by_contra hne
        simp only [Validator.checkConst, if_neg hne] at hcheck
        cases hcheck
      subst hscalar
      have hcontains := hconst i rfl (scalarOf_eq_some hty)
      simp only [Reference.evalKind, meaning, meantConst, if_pos hcontains]
      rfl
    | bool | unit =>
      simp only [Validator.checkConst] at hcheck
      split at hcheck
      · rename_i hscalar
        subst hscalar
        rfl
      · cases hcheck
    | float | char | str => cases hcheck
  case load slot =>
    rw [Except.guard_eq_ok, refuse_eq_ok] at hcheck
    obtain ⟨d, hd⟩ := Option.isSome_iff_exists.mp (h.given slot (hload slot rfl))
    have htyped := (h.typed slot d hd).symm.trans (not_not.mp hcheck.2)
    simp only [Reference.evalKind, meaning, hd]
    exact Option.some.inj htyped
  case neg a =>
    obtain ⟨operand, hoperand, hcheck⟩ := Except.bind_eq_ok.mp hcheck
    obtain ⟨x, hx, hxs⟩ := h.operand hoperand
    have hscalars := refuse_eq_ok.mp hcheck
    simp only [ne_eq, not_or, not_not] at hscalars
    obtain ⟨rfl, rfl⟩ := hscalars
    cases x <;> cases hxs
    simp only [Reference.evalKind, meaning, hx]
    refine told_safe (fun d hd => ?_) fun f hf => ?_
    · unfold Numeric.neg at hd
      split at hd <;> cases hd
      rfl
    · unfold Numeric.neg at hf
      split at hf <;> cases hf
      exact ⟨_, rfl⟩
  case not a =>
    obtain ⟨operand, hoperand, hcheck⟩ := Except.bind_eq_ok.mp hcheck
    obtain ⟨x, hx, hxs⟩ := h.operand hoperand
    have hscalars := refuse_eq_ok.mp hcheck
    simp only [ne_eq, not_or, not_not] at hscalars
    simp only [Reference.evalKind, meaning, hx]
    obtain ⟨rfl, hunit⟩ := hscalars
    subst hxs
    cases x
    case int | bool => rfl
    case unit => exact absurd rfl hunit
  case add a b | sub a b | mul a b =>
    obtain ⟨rfl, x, y, hx, hy⟩ := h.binaryInt hcheck
    simp only [Reference.evalKind, meaning, hx, hy, Option.bind_eq_bind, Option.bind_some]
    refine told_ints fun f hf => ?_
    simp only [Numeric.add, Numeric.sub, Numeric.mul] at hf
    split at hf <;> cases hf
    exact ⟨_, rfl⟩
  case and a b | or a b | xor a b =>
    obtain ⟨rfl, x, y, hx, hy⟩ := h.binaryInt hcheck
    simp only [Reference.evalKind, meaning, hx, hy, Option.bind_eq_bind, Option.bind_some]
    exact told_ints fun f hf => by cases hf
  case eq a b | ne a b =>
    obtain ⟨operand, hcompare, -⟩ := Except.bind_eq_ok.mp hcheck
    obtain ⟨rfl, x, y, hx, hy, rfl, hys⟩ := h.compare hcompare
    simp only [Reference.evalKind, meaning, hx, hy, Option.bind_eq_bind, Option.bind_some]
    cases x <;> cases y <;> first | rfl | cases hys
  case lt a b | le a b | gt a b | ge a b =>
    obtain ⟨operand, hcompare, hordered⟩ := Except.bind_eq_ok.mp hcheck
    obtain ⟨rfl, x, y, hx, hy, rfl, hys⟩ := h.compare hcompare
    have hunit := refuse_eq_ok.mp hordered
    simp only [Reference.evalKind, meaning, hx, hy, Option.bind_eq_bind, Option.bind_some]
    cases x <;> cases y <;> first | rfl | exact absurd rfl hunit | cases hys
  all_goals cases hcheck

/-! ### Instructions and blocks -/

def liveAfter (live : Finset ValueId) : Instruction → Finset ValueId
  | .value result _ _ => insert result live
  | _ => live

def storedAfter (stored : Finset ValueId) : Instruction → Finset ValueId
  | .store slot _ _ => insert slot stored
  | _ => stored

/-- What is known of an instruction from where it stands. -/
structure Sited (v : Validator) (functions : List ItemId) (types : List (ValueId × Ty))
    (slots stored : Finset ValueId) (inst : Instruction) : Prop where
  defined : ∀ result ty kind, inst = .value result ty kind → types.lookup result = some ty
  loads : ∀ result ty slot, inst = .value result ty (.load slot) → slot ∈ stored
  allocs : ∀ result ty, inst = .value result ty .alloc → result ∈ slots ∧ result ∉ stored
  consts : ∀ result i, inst = .value result .i64 (.const (.int i)) → Numeric.i64.contains i
  calls : ∀ callee, calleeOf inst = some callee → (v.get callee).isSome → callee ∈ functions

theorem Fits.update (h : Fits types slots live stored env) {id : ValueId} {d : Datum}
    (hty : (types.lookup id).bind scalarOf = some d.scalar) :
    Fits types slots (insert id live) (insert id stored) (Function.update env id (some d)) := by
  constructor
  · intro other e he
    rw [Function.update_apply] at he
    split at he
    · rename_i heq
      cases he
      rw [heq]
      exact hty
    · exact h.typed other e he
  · intro other hother hslot
    rw [Function.update_apply]
    split
    · rfl
    · rename_i hne
      exact h.defined other (Finset.mem_of_mem_insert_of_ne hother hne) hslot
  · intro other hother
    rw [Function.update_apply]
    split
    · rfl
    · rename_i hne
      exact h.given other (Finset.mem_of_mem_insert_of_ne hother hne)

theorem Fits.weaken (h : Fits types slots live stored env) {live' stored' : Finset ValueId}
    (hlive : live' ⊆ live) (hstored : stored' ⊆ stored) : Fits types slots live' stored' env :=
  ⟨h.typed, fun id hid => h.defined id (hlive hid), fun id hid => h.given id (hstored hid)⟩

/-- An instruction that was checked is safe to run, and what is behind it fits. -/
theorem Fits.instruction (h : Fits types slots live stored env) {inst : Instruction}
    (hget : ∀ id, v.get id = m.findFunction id) (hcalls : SafeCalls v functions call)
    (hsited : Sited v functions types slots stored inst)
    (hcheck : v.checkInstruction function block types slots live inst = .ok ()) :
    Safe (Reference.instruction m call env inst)
      (Fits types slots (liveAfter live inst) (storedAfter stored inst)) := by
  cases inst with
  | value result ty kind =>
    have hdefined := hsited.defined result ty kind rfl
    cases hty : scalarOf ty with
    | none =>
      simp only [Validator.checkInstruction, Validator.checkValue, hty] at hcheck
      cases hcheck
    | some resultScalar =>
      by_cases halloc : kind = .alloc
      · subst halloc
        have ⟨hslot, hnew⟩ := hsited.allocs result ty rfl
        simp only [Reference.instruction, hty]
        -- The slot is emptied, and nothing that counts as stored is.
        constructor
        · intro id d hd
          rw [Function.update_apply] at hd
          split at hd
          · cases hd
          · exact h.typed id d hd
        · intro id hid hnot
          have hne : id ≠ result := fun heq => hnot (heq ▸ hslot)
          rw [Function.update_of_ne hne]
          exact h.defined id (Finset.mem_of_mem_insert_of_ne hid hne) hnot
        · intro id hid
          have hne : id ≠ result := fun heq => hnew (heq ▸ hid)
          rw [Function.update_of_ne hne]
          exact h.given id hid
      · have hkind := h.evalKind hty halloc hget hcalls
          (fun callee typeArgs args evidence heq => hsited.calls callee (by rw [heq]; rfl))
          (fun slot heq => hsited.loads result ty slot (by rw [heq]))
          (fun i heq hi => hsited.consts result i (by rw [heq, hi])) hcheck
        have heval : Reference.instruction m call env (.value result ty kind) = (do
            let d ← Reference.evalKind m call env kind
            Reference.expect ty d
            return Function.update env result (some d)) := by
          cases kind <;> first | exact absurd rfl halloc | simp only [Reference.instruction, hty]
        rw [heval]
        refine hkind.bind fun d hd => ?_
        have hexpect : Reference.expect ty d = .ok () := Reference.expect_eq_ok.mpr (by rw [hty, hd])
        rw [hexpect]
        exact (h.update (by rw [hdefined, Option.bind_some, hty, hd])).weaken subset_rfl
          (Finset.subset_insert _ _)
  | store slot value mode =>
    simp only [Validator.checkInstruction, Validator.checkStore, Except.guard_eq_ok] at hcheck
    obtain ⟨hmode, -, hcheck⟩ := hcheck
    obtain ⟨scalar, hoperand, hcheck⟩ := Except.bind_eq_ok.mp hcheck
    have hslot := not_not.mp (refuse_eq_ok.mp hcheck)
    have ⟨d, hd, hscalar⟩ := h.operand hoperand
    cases not_not.mp hmode
    simp only [Reference.instruction, Env.get, hd]
    exact (h.update (by rw [hslot, hscalar])).weaken (Finset.subset_insert _ _) subset_rfl
  | _ => cases hcheck

/-- Where a block can go, and what it can return. -/
def Leads (function : Function) (blocks : Blocks) (term : Terminator) : Next → Prop
  | .goto target => target ∈ terminatorTargets term ∧ (blocks.get target).isSome
  | .exit d => scalarOf function.returnType = some d.scalar

theorem checkTarget_ok {blocks : Blocks} {target : BlockId}
    (h : v.checkTarget function block blocks target = .ok ()) : (blocks.get target).isSome := by
  unfold Validator.checkTarget at h
  split at h
  · assumption
  · cases h

/-- An end that was checked is safe to run, and leads where it says. -/
theorem Fits.terminator (h : Fits types slots live stored env) {blocks : Blocks}
    {term : Terminator}
    (hcheck : v.checkTerminator function block types slots live blocks term = .ok ()) :
    Safe (Reference.terminator function.returnType env term) (Leads function blocks term) := by
  cases term with
  | ret value =>
    cases value with
    | none =>
      have hunit := not_not.mp (refuse_eq_ok.mp hcheck)
      have hexpect : Reference.expect function.returnType .unit = .ok () :=
        Reference.expect_eq_ok.mpr hunit
      simp only [Reference.terminator, hexpect]
      exact hunit
    | some id =>
      obtain ⟨actual, hoperand, hcheck⟩ := Except.bind_eq_ok.mp hcheck
      have hsame := not_not.mp (refuse_eq_ok.mp hcheck)
      have ⟨d, hd, hscalar⟩ := h.operand hoperand
      rw [← hscalar] at hsame
      simp only [Reference.terminator, Env.get, hd, Bind.bind, Except.bind,
        Reference.expect_eq_ok.mpr hsame.symm]
      exact hsame.symm
  | branch target => exact ⟨List.mem_singleton_self _, checkTarget_ok hcheck⟩
  | condBranch condition thenBlock elseBlock =>
    obtain ⟨scalar, hoperand, hcheck⟩ := Except.bind_eq_ok.mp hcheck
    rw [Except.guard_eq_ok] at hcheck
    obtain ⟨hbool, hcheck⟩ := hcheck
    obtain ⟨_, hthen, helse⟩ := Except.bind_eq_ok.mp hcheck
    have ⟨d, hd, hscalar⟩ := h.operand hoperand
    rw [not_not.mp hbool] at hscalar
    cases d <;> cases hscalar
    rename_i b
    simp only [Reference.terminator, Env.get, hd]
    cases b with
    | false => exact ⟨by simp [terminatorTargets], checkTarget_ok helse⟩
    | true => exact ⟨by simp [terminatorTargets], checkTarget_ok hthen⟩
  | _ => cases hcheck

/-- A block that was checked is safe to run. -/
theorem Fits.steps (hget : ∀ id, v.get id = m.findFunction id) (hcalls : SafeCalls v functions call)
    {blocks : Blocks} {term : Terminator} {insts : List Instruction}
    (h : Fits types slots live stored env)
    (hsited : ∀ p inst q, insts = p ++ inst :: q →
      Sited v functions types slots (p.foldl storedAfter stored) inst)
    (hsteps : v.checkSteps function blocks types slots block term insts live = .ok ()) :
    Safe (do
        let env ← insts.foldlM (Reference.instruction m call) env
        return (env, ← Reference.terminator function.returnType env term))
      fun (env', next) => Fits types slots (insts.foldl liveAfter live)
        (insts.foldl storedAfter stored) env' ∧ Leads function blocks term next := by
  induction insts generalizing live stored env with
  | nil =>
    have hterm := h.terminator hsteps
    exact hterm.bind fun next hnext => ⟨h, hnext⟩
  | cons inst insts ih =>
    obtain ⟨_, hcheck, hsteps⟩ := Except.bind_eq_ok.mp hsteps
    have hrest : v.checkSteps function blocks types slots block term insts (liveAfter live inst) =
        .ok () := by
      cases inst <;> exact hsteps
    rw [List.foldlM_cons, bind_assoc]
    refine (h.instruction hget hcalls (hsited [] inst insts rfl) hcheck).bind fun env' h' => ?_
    exact ih h' (fun p other q heq => hsited (inst :: p) other q (by rw [heq]; rfl)) hrest

end
end
end Napitia.Native
