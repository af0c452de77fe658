import Napitia.Interpreter.Effects

/-!
# Runs, and a rule for proving things about them

`Reached` is every point the interpreter comes to in the course of one call: in
the frame of the call itself, and in the frame of every call made from a point
it comes to, whether or not the call ever returns. `FrameRule` is the rule for
a property of runs: an invariant of one frame, kept by each step given what the
nested call of that step guarantees, holds at every point reached, and what it
gives at an exit is what the call guarantees.
-/
namespace Napitia.Interpreter
open Nir EStateM

/-- A frame about to take a step: what is left of its block and its state. -/
structure Point where
  ctx : FrameContext
  state : FrameState
  instructions : List Instruction
  terminator : Terminator

section
variable (m : Module) (fpu : FloatUnit)

/-- The call the next step of a frame makes, when it makes one. -/
inductive Requests (ctx : FrameContext) (s : FrameState) :
    List Instruction → Terminator → CallRequest → Prop
  | call {result : ValueId} {ty : Ty} {item : ItemId} {typeArgs : List Ty} {args : List ValueId}
      {evidence : List Evidence} {rest : List Instruction} {terminator : Terminator}
      {request : CallRequest} :
      (unexecutableNumericName (substitute ty ctx.subst)).isSome = false →
      requestCall m ctx s.values item typeArgs args evidence = .ok request →
      Requests ctx s (.value result ty (.call item typeArgs args evidence) :: rest) terminator
        request
  | protocolCall {result : ValueId} {ty : Ty} {protocol : ItemId} {arguments : List Ty}
      {method : ℕ} {evidence : Evidence} {args : List ValueId} {rest : List Instruction}
      {terminator : Terminator} {request : CallRequest} :
      (unexecutableNumericName (substitute ty ctx.subst)).isSome = false →
      requestProtocolCall m ctx s.values arguments method evidence args = .ok request →
      Requests ctx s
        (.value result ty (.protocolCall protocol arguments method evidence args) :: rest)
        terminator request
  | invoke {callee : ItemId} {typeArgs : List Ty} {args : List ValueId}
      {evidence : List Evidence} {okSlot : ValueId} {okTarget : BlockId}
      {errTargets : List InvokeErrTarget} {request : CallRequest} :
      requestInvoke m ctx s.resources s.values callee typeArgs args evidence
        (okSlot :: errTargets.map (·.slot)) = .ok request →
      Requests ctx s [] (.invoke callee typeArgs args evidence okSlot okTarget errTargets) request

/-- A step of a frame that succeeds, and the frame it leaves. -/
inductive Steps : Point → FrameState → Prop
  | instruction {n : ℕ} {ctx : FrameContext} {s s' : FrameState} {i : Instruction}
      {rest : List Instruction} {terminator : Terminator} :
      execInstruction m fpu (callFunction m fpu n) ctx i s = .ok ⟨⟩ s' →
      Steps ⟨ctx, s, i :: rest, terminator⟩ s'
  | terminator {n : ℕ} {ctx : FrameContext} {s s' : FrameState} {terminator : Terminator}
      {next : Next} : execTerminator m (callFunction m fpu n) ctx terminator s = .ok next s' →
      Steps ⟨ctx, s, [], terminator⟩ s'

/-- The points a call comes to. -/
inductive Reached : CallRequest → InterpreterState → Point → Prop
  | enter {request : CallRequest} {s s' : InterpreterState} {ctx : FrameContext}
      {values : Values} {block : BasicBlock} : s.callDepth < Limits.maxCallDepth →
      bindParameters m request s.enter = .ok (ctx, values) s' →
      ctx.function.findBlock ⟨0⟩ = some block →
      Reached request s ⟨ctx, ⟨s', values, []⟩, block.instructions, block.terminator⟩
  | instruction {request : CallRequest} {s : InterpreterState} {n : ℕ} {ctx : FrameContext}
      {st st' : FrameState} {i : Instruction} {rest : List Instruction}
      {terminator : Terminator} : Reached request s ⟨ctx, st, i :: rest, terminator⟩ →
      execInstruction m fpu (callFunction m fpu n) ctx i st = .ok ⟨⟩ st' →
      Reached request s ⟨ctx, st', rest, terminator⟩
  | jump {request : CallRequest} {s : InterpreterState} {n : ℕ} {ctx : FrameContext}
      {st st' : FrameState} {terminator : Terminator} {next : BlockId} {block : BasicBlock} :
      Reached request s ⟨ctx, st, [], terminator⟩ →
      execTerminator m (callFunction m fpu n) ctx terminator st = .ok (.goto next) st' →
      ctx.function.findBlock next = some block →
      Reached request s ⟨ctx, st', block.instructions, block.terminator⟩
  | call {request request' : CallRequest} {s : InterpreterState} {p q : Point} :
      Reached request s p → Requests m p.ctx p.state p.instructions p.terminator request' →
      Reached request' p.state.interpreter q → Reached request s q

/-- Every step the call takes, in any frame, is taken from a point that meets
the condition. -/
def Meets (P : Point → Prop) (request : CallRequest) (s : InterpreterState) : Prop :=
  ∀ p s', Reached m fpu request s p → Steps m fpu p s' → P p

/-- What the nested call of a step guarantees. -/
def Guarantees (Post : CallRequest → InterpreterState → Outcome → InterpreterState → Prop)
    (call : Call) (p : Point) : Prop :=
  ∀ request outcome i, Requests m p.ctx p.state p.instructions p.terminator request →
    call request p.state.interpreter = .ok outcome i → Post request p.state.interpreter outcome i

/-- The obligations of a frame: its invariant `J`, what a call assumes and what
it guarantees, for steps taken from points that meet `P`. -/
structure FrameRule (P : Point → Prop) (Pre : CallRequest → InterpreterState → Prop)
    (Post : CallRequest → InterpreterState → Outcome → InterpreterState → Prop)
    (J : CallRequest → InterpreterState → FrameContext → FrameState → Prop) : Prop where
  enter : ∀ {request s ctx values s'}, Pre request s →
    bindParameters m request s.enter = .ok (ctx, values) s' → J request s ctx ⟨s', values, []⟩
  nested : ∀ {request s} {p : Point} {request'}, J request s p.ctx p.state →
    Requests m p.ctx p.state p.instructions p.terminator request' →
    Pre request' p.state.interpreter
  instruction : ∀ {request s call ctx st st' i rest terminator},
    J request s ctx st → P ⟨ctx, st, i :: rest, terminator⟩ →
    Guarantees m Post call ⟨ctx, st, i :: rest, terminator⟩ →
    execInstruction m fpu call ctx i st = .ok ⟨⟩ st' → J request s ctx st'
  jump : ∀ {request s call ctx st st' terminator next},
    J request s ctx st → P ⟨ctx, st, [], terminator⟩ →
    Guarantees m Post call ⟨ctx, st, [], terminator⟩ →
    execTerminator m call ctx terminator st = .ok (.goto next) st' → J request s ctx st'
  exit : ∀ {request s call ctx st st' terminator outcome},
    J request s ctx st → P ⟨ctx, st, [], terminator⟩ →
    execTerminator m call ctx terminator st = .ok (.exit outcome) st' →
    Post request s outcome st'.interpreter.leave

end

section
variable {m : Module} {fpu : FloatUnit} {P : Point → Prop}
  {Pre : CallRequest → InterpreterState → Prop}
  {Post : CallRequest → InterpreterState → Outcome → InterpreterState → Prop}
  {J : CallRequest → InterpreterState → FrameContext → FrameState → Prop}

theorem Meets.nested {request request' : CallRequest} {s : InterpreterState} {p : Point}
    (h : Meets m fpu P request s) (hp : Reached m fpu request s p)
    (hr : Requests m p.ctx p.state p.instructions p.terminator request') :
    Meets m fpu P request' p.state.interpreter :=
  fun q s' hq => h q s' (.call hp hr hq)

theorem requests_function_mem {ctx : FrameContext} {s : FrameState} {is : List Instruction}
    {terminator : Terminator} {request : CallRequest}
    (h : Requests m ctx s is terminator request) : request.function ∈ m.functions := by
  have hfind : ∀ {item : ItemId} {f : Function}, m.findFunction item = some f → f ∈ m.functions :=
    fun hf => List.mem_of_find?_eq_some hf
  cases h with
  | @call result ty item typeArgs args evidence rest terminator request _ hrequest =>
    unfold requestCall at hrequest
    obtain ⟨_, -, hrequest⟩ := Except.bind_eq_ok.mp hrequest
    obtain ⟨_, -, hrequest⟩ := Except.bind_eq_ok.mp hrequest
    cases hf : m.findFunction item with
    | none => simp [hf, Except.throw_ne_ok] at hrequest
    | some callee =>
      simp only [hf] at hrequest
      obtain ⟨_, -, hrequest⟩ := Except.bind_eq_ok.mp hrequest
      obtain rfl := Except.pure_eq_ok.mp hrequest
      exact hfind hf
  | protocolCall _ hrequest =>
    unfold requestProtocolCall at hrequest
    obtain ⟨_, -, hrequest⟩ := Except.bind_eq_ok.mp hrequest
    obtain ⟨evidence, -, hrequest⟩ := Except.bind_eq_ok.mp hrequest
    cases evidence with
    | forwarded index => exact absurd hrequest Except.throw_ne_ok
    | extension extend nested =>
      dsimp only at hrequest
      split at hrequest
      · exact absurd hrequest Except.throw_ne_ok
      · split at hrequest
        · exact absurd hrequest Except.throw_ne_ok
        · rename_i methodItem _
          obtain ⟨_, -, hrequest⟩ := Except.bind_eq_ok.mp hrequest
          obtain ⟨-, hrequest⟩ := Except.guard_eq_ok.mp hrequest
          obtain ⟨_, -, hrequest⟩ := Except.bind_eq_ok.mp hrequest
          obtain ⟨_, -, hrequest⟩ := Except.bind_eq_ok.mp hrequest
          cases hf : m.findFunction methodItem with
          | none => simp [hf, Except.throw_ne_ok] at hrequest
          | some callee =>
            simp only [hf] at hrequest
            obtain rfl := Except.pure_eq_ok.mp hrequest
            exact hfind hf
  | @invoke callee typeArgs args evidence okSlot okTarget errTargets request hrequest =>
    unfold requestInvoke at hrequest
    obtain ⟨_, -, hrequest⟩ := Except.bind_eq_ok.mp hrequest
    obtain ⟨_, -, hrequest⟩ := Except.bind_eq_ok.mp hrequest
    cases hf : m.findFunction callee with
    | none => simp [hf, Except.throw_ne_ok] at hrequest
    | some calleeFn =>
      simp only [hf] at hrequest
      obtain ⟨_, -, hrequest⟩ := Except.bind_eq_ok.mp hrequest
      split at hrequest
      · obtain ⟨_, -, hrequest⟩ := Except.bind_eq_ok.mp hrequest
        obtain rfl := Except.pure_eq_ok.mp hrequest
        exact hfind hf
      · obtain rfl := Except.pure_eq_ok.mp hrequest
        exact hfind hf

theorem Reached.code {request : CallRequest} {s : InterpreterState} {p : Point}
    (h : Reached m fpu request s p) (hf : request.function ∈ m.functions) :
    p.ctx.function ∈ m.functions ∧ ∃ b ∈ p.ctx.function.blocks,
      p.instructions <:+ b.instructions ∧ p.terminator = b.terminator := by
  induction h with
  | @enter request s s' ctx values block _ hbind hblock =>
    obtain ⟨_, _, _, -, -, -, hctx, -⟩ := bindParameters_eq_ok hbind
    refine ⟨by simpa [hctx] using hf, block, List.mem_of_find?_eq_some hblock, ?_, rfl⟩
    exact List.suffix_refl _
  | instruction _ _ ih =>
    obtain ⟨hmem, b, hb, hsuffix, hterm⟩ := ih hf
    exact ⟨hmem, b, hb, (List.suffix_cons _ _).trans hsuffix, hterm⟩
  | jump _ _ hblock ih =>
    exact ⟨(ih hf).1, _, List.mem_of_find?_eq_some hblock, List.suffix_refl _, rfl⟩
  | call _ hr _ _ ih => exact ih (requests_function_mem hr)

/-- A condition that every instruction and terminator of the module meets,
wherever it is executed, is met by every step of a run. -/
theorem meets_of_code {request : CallRequest} {s : InterpreterState}
    (hf : request.function ∈ m.functions)
    (hcode : ∀ f ∈ m.functions, ∀ b ∈ f.blocks, ∀ p : Point, p.instructions <:+ b.instructions →
      p.terminator = b.terminator → P p) : Meets m fpu P request s := by
  intro p _ hp _
  obtain ⟨hmem, b, hb, hsuffix, hterm⟩ := hp.code hf
  exact hcode _ hmem b hb p hsuffix hterm

theorem Reached.instructions {request : CallRequest} {s : InterpreterState} {n : ℕ}
    {ctx : FrameContext} {st st' : FrameState} {is rest : List Instruction}
    {terminator : Terminator} (h : Reached m fpu request s ⟨ctx, st, is ++ rest, terminator⟩)
    (hrun : is.forM (execInstruction m fpu (callFunction m fpu n) ctx) st = .ok ⟨⟩ st') :
    Reached m fpu request s ⟨ctx, st', rest, terminator⟩ := by
  induction is generalizing st with
  | nil =>
    obtain ⟨-, rfl⟩ := pure_eq_ok.mp hrun
    exact h
  | cons i is ih =>
    obtain ⟨⟨⟩, u, hi, hrun⟩ := bind_eq_ok.mp hrun
    exact ih (.instruction h hi) hrun

theorem callFunction_succ_eq_ok {n : ℕ} {request : CallRequest} {s s' : InterpreterState}
    {outcome : Outcome} (h : callFunction m fpu (n + 1) request s = .ok outcome s') :
    ∃ ctx values i st, s.callDepth < Limits.maxCallDepth ∧
      bindParameters m request s.enter = .ok (ctx, values) i ∧
      runBlocks m fpu (callFunction m fpu n) ctx n ⟨0⟩ ⟨i, values, []⟩ = .ok outcome st ∧
      s' = st.interpreter.leave := by
  unfold callFunction at h
  rw [get_bind_eq_ok] at h
  obtain ⟨hdepth, h⟩ := guard_eq_ok.mp h
  dsimp only at h
  cases hframe : callFunctionInFrame m fpu n (callFunction m fpu n) request s.enter with
  | error e u => simp [hframe] at h
  | ok o u =>
    simp only [hframe] at h
    cases h
    unfold callFunctionInFrame at hframe
    obtain ⟨⟨ctx, values⟩, i, hbind, hframe⟩ := bind_eq_ok.mp hframe
    dsimp only at hframe
    cases hrun : runBlocks m fpu (callFunction m fpu n) ctx n ⟨0⟩ ⟨i, values, []⟩ with
    | error e st => simp [hrun] at hframe
    | ok o' st =>
      simp only [hrun] at hframe
      cases hframe
      exact ⟨ctx, values, i, st, not_le.mp hdepth, perform_eq_ok.mp hbind, hrun, rfl⟩

theorem FrameRule.instructions (rule : FrameRule m fpu P Pre Post J) {n : ℕ}
    {request : CallRequest} {s : InterpreterState} {ctx : FrameContext}
    {terminator : Terminator} (hmeets : Meets m fpu P request s)
    (hcall : ∀ p, Reached m fpu request s p → J request s p.ctx p.state →
      Guarantees m Post (callFunction m fpu n) p)
    {is : List Instruction} {st st' : FrameState}
    (hreach : Reached m fpu request s ⟨ctx, st, is, terminator⟩) (hJ : J request s ctx st)
    (h : is.forM (execInstruction m fpu (callFunction m fpu n) ctx) st = .ok ⟨⟩ st') :
    Reached m fpu request s ⟨ctx, st', [], terminator⟩ ∧ J request s ctx st' := by
  induction is generalizing st with
  | nil =>
    obtain ⟨-, rfl⟩ := pure_eq_ok.mp h
    exact ⟨hreach, hJ⟩
  | cons i is ih =>
    obtain ⟨⟨⟩, u, hi, h⟩ := bind_eq_ok.mp h
    have hP := hmeets _ u hreach (.instruction hi)
    exact ih (.instruction hreach hi) (rule.instruction hJ hP (hcall _ hreach hJ) hi) h

theorem FrameRule.blocks (rule : FrameRule m fpu P Pre Post J) {n : ℕ} {request : CallRequest}
    {s : InterpreterState} {ctx : FrameContext} (hmeets : Meets m fpu P request s)
    (hcall : ∀ p, Reached m fpu request s p → J request s p.ctx p.state →
      Guarantees m Post (callFunction m fpu n) p)
    {k : ℕ} {id : BlockId} {st st' : FrameState} {outcome : Outcome}
    (hreach : ∀ block, ctx.function.findBlock id = some block →
      Reached m fpu request s ⟨ctx, st, block.instructions, block.terminator⟩)
    (hJ : J request s ctx st)
    (h : runBlocks m fpu (callFunction m fpu n) ctx k id st = .ok outcome st') :
    Post request s outcome st'.interpreter.leave := by
  induction k generalizing id st with
  | zero => exact absurd h throw_ne_ok
  | succ k ih =>
    unfold runBlocks at h
    cases hblock : ctx.function.findBlock id with
    | none =>
      simp only [hblock] at h
      exact absurd h fail_ne_ok
    | some block =>
      simp only [hblock] at h
      obtain ⟨next, u, hexec, h⟩ := bind_eq_ok.mp h
      unfold execBlock at hexec
      obtain ⟨⟨⟩, v, hbody, hterm⟩ := bind_eq_ok.mp hexec
      obtain ⟨hreach', hJ'⟩ := rule.instructions hmeets hcall (hreach block hblock) hJ hbody
      have hP := hmeets _ u hreach' (.terminator hterm)
      cases next with
      | goto target =>
        exact ih (fun b hb => .jump hreach' hterm hb)
          (rule.jump hJ' hP (hcall _ hreach' hJ') hterm) h
      | exit o =>
        obtain ⟨rfl, rfl⟩ := pure_eq_ok.mp h
        exact rule.exit hJ' hP hterm

theorem FrameRule.call (rule : FrameRule m fpu P Pre Post J) {n : ℕ} {request : CallRequest}
    {s s' : InterpreterState} {outcome : Outcome} (hmeets : Meets m fpu P request s)
    (hpre : Pre request s) (h : callFunction m fpu n request s = .ok outcome s') :
    Post request s outcome s' := by
  induction n generalizing request s s' outcome with
  | zero => exact absurd h throw_ne_ok
  | succ n ih =>
    obtain ⟨ctx, values, i, st, hdepth, hbind, hrun, rfl⟩ := callFunction_succ_eq_ok h
    refine rule.blocks hmeets ?_ (fun b hb => .enter hdepth hbind hb) (rule.enter hpre hbind) hrun
    intro p hp hJ request' o i' hr hcall
    exact ih (hmeets.nested hp hr) (rule.nested hJ hr) hcall

theorem FrameRule.guarantees (rule : FrameRule m fpu P Pre Post J) {n : ℕ}
    {request : CallRequest} {s : InterpreterState} {p : Point}
    (hmeets : Meets m fpu P request s) (hp : Reached m fpu request s p)
    (hJ : ∃ request' s', J request' s' p.ctx p.state) :
    Guarantees m Post (callFunction m fpu n) p := by
  obtain ⟨request', s', hJ⟩ := hJ
  exact fun _ _ _ hr hcall => rule.call (hmeets.nested hp hr) (rule.nested hJ hr) hcall

/-- The invariant holds at every point a call comes to, in the frame the point
belongs to. -/
theorem FrameRule.reached (rule : FrameRule m fpu P Pre Post J) {request : CallRequest}
    {s : InterpreterState} {p : Point} (hmeets : Meets m fpu P request s)
    (hpre : Pre request s) (h : Reached m fpu request s p) :
    ∃ request' s', J request' s' p.ctx p.state := by
  induction h with
  | enter hdepth hbind hblock => exact ⟨_, _, rule.enter hpre hbind⟩
  | instruction hp hi ih =>
    obtain ⟨request', s', hJ⟩ := ih hmeets hpre
    exact ⟨_, _, rule.instruction hJ (hmeets _ _ hp (.instruction hi))
      (rule.guarantees hmeets hp ⟨_, _, hJ⟩) hi⟩
  | jump hp ht hblock ih =>
    obtain ⟨request', s', hJ⟩ := ih hmeets hpre
    exact ⟨_, _, rule.jump hJ (hmeets _ _ hp (.terminator ht))
      (rule.guarantees hmeets hp ⟨_, _, hJ⟩) ht⟩
  | call hp hr hq ihp ihq =>
    obtain ⟨request', s', hJ⟩ := ihp hmeets hpre
    exact ihq (hmeets.nested hp hr) (rule.nested hJ hr)

end

end Napitia.Interpreter
