import Mathlib.Logic.Relation
import Napitia.Interpreter.Logic

/-!
# Where a frame goes

The points one frame passes through on its own: `Leads` follows the instructions
of a block and the jumps between blocks, and every point it leads to from a point
a call comes to is one the call comes to. A piece of straight code is either run
to its end or never left.
-/
namespace Napitia.Interpreter
open Nir EStateM

section
variable (m : Module) (fpu : FloatUnit)

/-- One step of a frame, from one of its points to the next. -/
inductive Advances : Point → Point → Prop
  | instruction {n : ℕ} {ctx : FrameContext} {s s' : FrameState} {i : Instruction}
      {rest : List Instruction} {t : Terminator} :
      execInstruction m fpu (callFunction m fpu n) ctx i s = .ok ⟨⟩ s' →
      Advances ⟨ctx, s, i :: rest, t⟩ ⟨ctx, s', rest, t⟩
  | jump {n : ℕ} {ctx : FrameContext} {s s' : FrameState} {t : Terminator} {next : BlockId}
      {block : BasicBlock} :
      execTerminator m (callFunction m fpu n) ctx t s = .ok (.goto next) s' →
      ctx.function.findBlock next = some block →
      Advances ⟨ctx, s, [], t⟩ ⟨ctx, s', block.instructions, block.terminator⟩

/-- The frame goes from one point to another. -/
def Leads : Point → Point → Prop := Relation.ReflTransGen (Advances m fpu)

end

section
variable {m : Module} {fpu : FloatUnit} {ctx : FrameContext} {s s' : FrameState}
  {rest : List Instruction} {t : Terminator}

theorem Leads.refl (p : Point) : Leads m fpu p p := Relation.ReflTransGen.refl

theorem Leads.trans {p q r : Point} (hpq : Leads m fpu p q) (hqr : Leads m fpu q r) :
    Leads m fpu p r := Relation.ReflTransGen.trans hpq hqr

theorem leads_instruction {i : Instruction} {n : ℕ}
    (h : execInstruction m fpu (callFunction m fpu n) ctx i s = .ok ⟨⟩ s') :
    Leads m fpu ⟨ctx, s, i :: rest, t⟩ ⟨ctx, s', rest, t⟩ :=
  .single (.instruction h)

theorem leads_jump {n : ℕ} {next : BlockId} {block : BasicBlock}
    (h : execTerminator m (callFunction m fpu n) ctx t s = .ok (.goto next) s')
    (hblock : ctx.function.findBlock next = some block) :
    Leads m fpu ⟨ctx, s, [], t⟩ ⟨ctx, s', block.instructions, block.terminator⟩ :=
  .single (.jump h hblock)

/-! ### Straight code -/

/-- An instruction that makes no call is one operation on the frame. -/
def Performs (ctx : FrameContext) (m : Module) (fpu : FloatUnit) (i : Instruction)
    (x : Op FrameState Unit) : Prop :=
  ∀ call, execInstruction m fpu call ctx i = perform x

theorem leads_straight {is : List Instruction} {ops : Instruction → Op FrameState Unit}
    (hops : ∀ i ∈ is, Performs ctx m fpu i (ops i)) (h : is.forM ops s = .ok ⟨⟩ s') :
    Leads m fpu ⟨ctx, s, is ++ rest, t⟩ ⟨ctx, s', rest, t⟩ := by
  induction is generalizing s with
  | nil =>
    obtain ⟨-, rfl⟩ := pure_eq_ok.mp h
    exact .refl _
  | cons i is ih =>
    obtain ⟨_, u, hi, his⟩ := bind_eq_ok.mp h
    have hexec : execInstruction m fpu (callFunction m fpu 0) ctx i s = .ok ⟨⟩ u := by
      rw [hops i (by simp)]
      exact adaptExcept_eq_ok.mpr hi
    exact (leads_instruction hexec).trans (ih (fun j hj => hops j (by simp [hj])) his)

theorem straight_of_leads {is : List Instruction} {ops : Instruction → Op FrameState Unit}
    (hops : ∀ i ∈ is, Performs ctx m fpu i (ops i))
    (h : Leads m fpu ⟨ctx, s, is ++ rest, t⟩ ⟨ctx, s', rest, t⟩) :
    ∃ u, is.forM ops s = .ok ⟨⟩ u := by
  induction is generalizing s with
  | nil => exact ⟨s, rfl⟩
  | cons i is ih =>
    rcases Relation.ReflTransGen.cases_head h with heq | ⟨q, hstep, hq⟩
    · have hlen := congrArg (fun p => p.instructions.length) heq
      simp at hlen
      omega
    · cases hstep with
      | instruction hexec =>
        rw [hops i (by simp)] at hexec
        obtain ⟨u, hu⟩ := ih (fun j hj => hops j (by simp [hj])) hq
        exact ⟨u, bind_eq_ok.mpr ⟨⟨⟩, _, adaptExcept_eq_ok.mp hexec, hu⟩⟩

/-! ### The instructions of a decision -/

theorem execValue_ok {call : Call} {result : ValueId} {ty : Ty} {kind : ValueKind} {v : Value}
    (hexec : unexecutableNumericName (substitute ty ctx.subst) = none)
    (hcompute : computeValue m fpu call ctx (substitute ty ctx.subst) kind s = .ok v s)
    (hdeclared : argumentMatchesDeclared s.resources v (substitute ty ctx.subst) = .ok true) :
    execInstruction m fpu call ctx (.value result ty kind) s = .ok ⟨⟩ (s.insert result v) := by
  have hcheck : checkComputed result (substitute ty ctx.subst) kind v s = .ok ⟨⟩ s := by
    cases kind <;> first
      | rfl
      | (refine bind_eq_ok.mpr ⟨s, s, rfl, ?_⟩
         rw [hdeclared]
         rfl)
  change execValue m fpu call ctx result ty kind s = _
  unfold execValue
  simp only [hexec, Option.isSome_none, Bool.false_eq_true, if_false]
  rw [bind_of_ok hcompute, bind_of_ok hcheck]
  rfl

theorem execValue_payload {call : Call} {result base : ValueId} {ty : Ty} {item : ItemId}
    {case index : ℕ} {typeArgs : List Ty} {payload : List Value} {v : Value}
    (hexec : unexecutableNumericName (substitute ty ctx.subst) = none)
    (hbase : s.values.lookup base = some (.variant item typeArgs case payload))
    (hv : payload[index]? = some v)
    (hdeclared : argumentMatchesDeclared s.resources v (substitute ty ctx.subst) = .ok true) :
    execInstruction m fpu call ctx (.value result ty (.variantPayload base item case index)) s =
      .ok ⟨⟩ (s.insert result v) := by
  refine execValue_ok hexec ?_ hdeclared
  have hread : evalVariantPayload s.values base item case index = .ok v := by
    simp [evalVariantPayload, Values.read, hbase, hv]
    rfl
  change inInterpreter (ask (evalVariantPayload s.values base item case index)) s = _
  rw [hread]
  rfl

theorem execValue_const {call : Call} {result : ValueId} {ty : Ty} {c : Const} {v : Value}
    (hexec : unexecutableNumericName (substitute ty ctx.subst) = none)
    (hc : constValue c = .ok v)
    (hdeclared : argumentMatchesDeclared s.resources v (substitute ty ctx.subst) = .ok true) :
    execInstruction m fpu call ctx (.value result ty (.const c)) s =
      .ok ⟨⟩ (s.insert result v) := by
  refine execValue_ok hexec ?_ hdeclared
  change inInterpreter (ask (constValue c)) s = _
  rw [hc]
  rfl

theorem execValue_eq {call : Call} {result a b : ValueId} {v w : Value} {same : Bool}
    (ha : s.values.lookup a = some v) (hb : s.values.lookup b = some w)
    (heq : eq v w = .ok same) :
    execInstruction m fpu call ctx (.value result .bool (.eq a b)) s =
      .ok ⟨⟩ (s.insert result (.bool same)) := by
  refine execValue_ok rfl ?_ rfl
  have hread : (do pure (Value.bool (← eq (← s.values.read a) (← s.values.read b))) :
      Except InterpreterError Value) = .ok (.bool same) := by
    simp [Values.read, ha, hb, heq]
  change inInterpreter (ask (do pure (Value.bool (← eq (← s.values.read a)
    (← s.values.read b))))) s = _
  rw [hread]
  rfl

theorem execTerminator_branch {call : Call} {condition : ValueId} {thenBlock elseBlock : BlockId}
    {b : Bool} (h : s.values.lookup condition = some (.bool b)) :
    execTerminator m call ctx (.condBranch condition thenBlock elseBlock) s =
      .ok (.goto (if b then thenBlock else elseBlock)) s := by
  have hread : s.values.read condition = .ok (.bool b) := by
    simp only [Values.read, h]
    rfl
  refine bind_eq_ok.mpr ⟨s, s, rfl, bind_eq_ok.mpr ⟨.bool b, s, ?_, bind_eq_ok.mpr
    ⟨if b then thenBlock else elseBlock, s, ?_, rfl⟩⟩⟩
  · rw [hread]
    rfl
  · cases b <;> rfl

theorem execTerminator_switch {call : Call} {scrutinee : ValueId} {item : ItemId}
    {targets : List BlockId} {typeArgs : List Ty} {case : ℕ} {payload : List Value}
    {target : BlockId} (h : s.values.lookup scrutinee = some (.variant item typeArgs case payload))
    (htarget : targets[case]? = some target) :
    execTerminator m call ctx (.switch scrutinee item targets) s = .ok (.goto target) s := by
  have hread : s.values.read scrutinee = .ok (.variant item typeArgs case payload) := by
    simp only [Values.read, h]
    rfl
  have hswitch : switchTarget item targets (.variant item typeArgs case payload) = .ok target := by
    simp [switchTarget, htarget]
    rfl
  refine bind_eq_ok.mpr ⟨s, s, rfl, bind_eq_ok.mpr ⟨.variant item typeArgs case payload, s, ?_,
    bind_eq_ok.mpr ⟨target, s, ?_, rfl⟩⟩⟩
  · rw [hread]
    rfl
  · rw [hswitch]
    rfl

end

end Napitia.Interpreter
