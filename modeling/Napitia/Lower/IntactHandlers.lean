import Napitia.Lower.IntactConstructs

/-!
# Decisions and handlers keep a builder intact

The blocks that a decision opens are entered one by one, and the arms of a handler are
shared by the cases that come to them: what is passed on is always a block that has been
opened.
-/
namespace Napitia.Lower
open Nir StateT
open Hir (ExprId HirHandleArmKind)
open Hir.Body

/-! ### Arms -/

/-- The block that the value of an arm joins at has been opened. -/
def SinkIn (n : ℕ) : ArmSink → Prop
  | .merge _ after => after.index < n
  | .finish | .diverge => True

/-- The body of an arm keeps a builder intact wherever its value goes. -/
def ArmSound (body : ArmSink → Build Unit) : Prop :=
  ∀ ⦃n : ℕ⦄ ⦃sink : ArmSink⦄, SinkIn n sink → Builds (body sink) n fun _ _ => True

section
variable {B : BodyLowering} {L : Lowering} {α β : Type} {x y : Build LoweredExpr}
  {xs : List (Build LoweredExpr)} {e : HirExpr} {n m : ℕ} {Q : ℕ → β → Prop} {sink : ArmSink}

theorem builds_throw_bind (e : Diagnostic) {f : α → Build β} :
    Builds ((throw e : Build α) >>= f) n Q := by
  intro first a b v _ _ hrun
  obtain ⟨w, u, hthrow, -⟩ := run_bind_eq_ok.mp hrun
  exact absurd hthrow run_throw_ne_ok

theorem builds_orFail_bind {entry : Option α} {message : String} {f : α → Build β}
    (h : ∀ v, entry = some v → Builds (f v) n Q) : Builds (orFail entry message >>= f) n Q := by
  cases entry with
  | none => exact builds_throw_bind _
  | some v => exact fun _ _ _ _ ha hn hrun => h v rfl ha hn hrun

theorem armSound_lowerArmBody (id : ExprId) (hx : Sound x) : ArmSound (lowerArmBody B id x) := by
  intro n sink hsink
  apply hx.before
  intro v
  cases v with
  | diverged => exact (sound_pure _).builds
  | value value =>
    cases sink with
    | merge slot after =>
      exact (sound_emitCheckedCleanup id).before fun _ => builds_storeInto hsink
    | finish => exact (sound_pure _).builds
    | diverge => exact (sound_pure _).builds

theorem sound_lowerArmIntoReturnSink (hx : Sound x) : Sound (lowerArmIntoReturnSink x) :=
  hx.bind fun _ => sound_pure _

theorem builds_lowerArmOf {bodies : List (ArmSink → Build Unit)}
    (h : ∀ body ∈ bodies, ArmSound body) (hsink : SinkIn n sink) (index : ℕ) :
    Builds (lowerArmOf bodies sink index) n fun _ _ => True :=
  builds_orFail_bind fun body hbody => h body (List.mem_of_getElem? hbody) hsink

/-! ### Decisions -/

theorem sound_enterArm (winner : MatrixRow) : Sound (enterArm L winner) := by
  apply (@sound_modify (fun fb => { fb with
    localBindings := winner.bindings.foldl
      (fun bindings b => bindings.insert b.1 (.direct b.2)) fb.localBindings })
    (fun _ => rfl) (fun _ => rfl) (fun _ => rfl) fun _ => rfl).bind
  intro _
  have hshells : Sound (emitVariantDecomposition winner) :=
    sound_forM fun _ _ => sound_get.bind fun _ => sound_pushInstruction rfl
  apply hshells.bind
  intro _
  exact sound_forM fun _ _ => .ite (fun _ => sound_pushInstruction rfl) fun _ => sound_pure _

theorem sound_literalConst (lit : LiteralTest) (ty : Ty) : Sound (literalConst L lit ty) := by
  cases lit with
  | int value =>
    unfold literalConst intLiteral
    simp only
    split
    · exact sound_pushValue _ _
    · exact sound_throw _
  | str value => exact sound_pushValue _ _
  | char value => exact sound_pushValue _ _
  | bool value => exact sound_pushValue _ _

theorem sound_liftM (z : Except Diagnostic α) : Sound (liftM z : Build α) := by
  intro first a b v ha _ hrun
  cases z with
  | error e => cases hrun
  | ok w =>
    cases hrun
    exact ⟨ha, le_rfl, trivial⟩

theorem sound_extractPayload (occ : Occurrence) (item : ItemId) (case : ℕ) (payload : List Ty) :
    Sound (extractPayload occ item case payload) := by
  apply sound_mapM
  rintro ⟨ty, index⟩ _
  apply (sound_pushValue _ _).bind
  intro value
  have hnote : Sound (modify fun fb : FnBuilder => { fb with
      payloadSources := fb.payloadSources.insert value ⟨occ.value, item, case, index⟩ } :
      Build PUnit) :=
    sound_modify (fun _ => rfl) (fun _ => rfl) (fun _ => rfl) fun _ => rfl
  exact hnote.bind fun _ => sound_pure _

theorem builds_openCases (cases : List CaseLayout) :
    Builds (cases.mapM fun _ => newBlock) n fun k blocks => ∀ block ∈ blocks, block.index < k :=
  builds_mapM (fun _ _ _ hk h => h.trans_le hk) fun _ _ => builds_newBlock

section
variable {next : List MatrixRow → List Occurrence → Build Unit}
  (hnext : ∀ rows occs, Builds (next rows occs) n fun _ _ => True)
include hnext

theorem builds_lowerBoolSwitch (occ : Occurrence) (rest : List Occurrence)
    (rows : List MatrixRow) :
    Builds (lowerBoolSwitch L next occ rest rows) n fun _ _ => True := by
  apply Builds.ite
  · intro _
    exact hnext _ _
  · intro _
    refine builds_newBlock.bind fun k thenBlock hk hthen => ?_
    refine builds_newBlock.bind fun k' elseBlock hk' helse => ?_
    have hthen' : thenBlock.index < k' := hthen.trans_le hk'
    refine (builds_terminate (by simp [targets, hthen', helse])).before fun _ => ?_
    apply builds_forM
    rintro ⟨value, block⟩ hmem
    have hblock : block.index < k' := by
      simp only [List.mem_cons, Prod.mk.injEq, List.not_mem_nil, or_false] at hmem
      rcases hmem with ⟨_, rfl⟩ | ⟨_, rfl⟩
      · exact hthen'
      · exact helse
    refine (builds_switchTo hblock).before fun _ => ?_
    apply Builds.guard
    exact (hnext _ _).mono (hk.trans hk') fun _ _ h => h

theorem builds_lowerCase (occ : Occurrence) (rest : List Occurrence) (rows : List MatrixRow)
    (item : ItemId) (subst : Subst) (case : ℕ) (layout : CaseLayout) :
    Builds (lowerCase L next occ rest rows item subst case layout) n fun _ _ => True := by
  refine (sound_liftM _).before fun kept => ?_
  apply Builds.guard
  exact (sound_extractPayload _ _ _ _).before fun occs => hnext _ _

theorem builds_lowerVariantSwitch (occ : Occurrence) (rest : List Occurrence)
    (rows : List MatrixRow) :
    Builds (lowerVariantSwitch L next occ rest rows) n fun _ _ => True := by
  unfold lowerVariantSwitch
  split
  · exact builds_throw _
  · apply Builds.ite
    · intro _
      exact hnext _ _
    · intro _
      refine (builds_openCases _).bind fun k blocks hk hblocks => ?_
      refine (builds_terminate (by simpa [targets] using hblocks)).before fun _ => ?_
      apply builds_forM
      intro p hp
      refine (builds_switchTo (hblocks p.2 (mem_of_mem_zip hp))).before fun _ => ?_
      exact builds_lowerCase (fun _ _ => (hnext _ _).mono hk fun _ _ h => h) _ _ _ _ _ _ _

theorem builds_lowerLiteralChain (occ : Occurrence) (rest : List Occurrence)
    (rows : List MatrixRow) :
    Builds (lowerLiteralChain L next occ rest rows) n fun _ _ => True := by
  unfold lowerLiteralChain
  split
  · exact builds_throw _
  · split
    · exact hnext _ _
    · exact hnext _ _
    · refine (sound_literalConst _ _).before fun const => ?_
      refine (sound_pushValue _ _).before fun eq => ?_
      refine builds_newBlock.bind fun k thenBlock hk hthen => ?_
      refine builds_newBlock.bind fun k' elseBlock hk' helse => ?_
      have hthen' : thenBlock.index < k' := hthen.trans_le hk'
      have hlater : ∀ rows occs, Builds (next rows occs) k' fun _ _ => True := fun _ _ =>
        (hnext _ _).mono (hk.trans hk') fun _ _ h => h
      refine (builds_terminate (by simp [targets, hthen', helse])).before fun _ => ?_
      refine (builds_switchTo hthen').before fun _ => (hlater _ _).before fun _ => ?_
      refine (builds_switchTo helse).before fun _ => ?_
      apply Builds.guard
      exact hlater _ _
    · exact builds_throw _

end

theorem builds_lowerDecision {lowerArm : ArmSink → ℕ → Build Unit}
    (harm : ∀ index, Builds (lowerArm sink index) n fun _ _ => True) (depth : ℕ)
    (rows : List MatrixRow) (occs : List Occurrence) :
    Builds (lowerDecision L lowerArm sink depth rows occs) n fun _ _ => True := by
  induction depth generalizing rows occs with
  | zero => exact builds_throw _
  | succ depth ih =>
    cases occs with
    | nil =>
      rw [lowerDecision]
      split
      · exact builds_throw _
      · exact (sound_enterArm _).before fun _ => harm _
    | cons occ rest =>
      rw [lowerDecision]
      apply Builds.ite
      · intro _
        exact builds_lowerVariantSwitch ih _ _ _
      · intro _
        split
        · exact builds_lowerBoolSwitch ih _ _ _
        · exact builds_lowerLiteralChain ih _ _ _

theorem sound_lowerMatchExpr {scrutinee : HirExpr} {patterns : List HirPattern}
    {bodies : List (ArmSink → Build Unit)} (resultTy : Ty) (hx : Sound x)
    (h : ∀ body ∈ bodies, ArmSound body) :
    Sound (lowerMatchExpr B scrutinee x patterns bodies resultTy) := by
  refine sound_onValue hx fun value => ?_
  apply (sound_orFail _ _).bind
  intro ty
  apply Sound.ite
  · intro _
    have hdiverge : SinkIn 0 .diverge := trivial
    exact (builds_lowerDecision (builds_lowerArmOf h hdiverge) _ _ _).before fun _ => sound_pure _
  · intro _
    refine (sound_pushValue _ _).before fun slot => ?_
    refine builds_newBlock.bind fun k after _ hafter => ?_
    have hmerge : SinkIn k (.merge slot after) := hafter
    refine (builds_lowerDecision (builds_lowerArmOf h hmerge) _ _ _).before fun _ => ?_
    refine (builds_switchTo hafter).before fun _ => ?_
    exact (sound_pushValue _ _).before fun _ => (sound_pure _).builds

theorem sound_lowerMatchExprIntoReturnSink {scrutinee : HirExpr} {patterns : List HirPattern}
    {bodies : List (ArmSink → Build Unit)} (hx : Sound x) (h : ∀ body ∈ bodies, ArmSound body) :
    Sound (lowerMatchExprIntoReturnSink B scrutinee x patterns bodies) := by
  refine sound_onValue hx fun value => ?_
  apply (sound_orFail _ _).bind
  intro ty
  have hfinish : SinkIn 0 .finish := trivial
  exact (builds_lowerDecision (builds_lowerArmOf h hfinish) _ _ _).before fun _ => sound_pure _

/-! ### Fallible calls -/

/-- The blocks of a fallible call have been opened. -/
structure InvocationIn (n : ℕ) (invocation : Invocation) : Prop where
  ok : invocation.okTarget.index < n
  errs : ∀ err ∈ invocation.errBlocks, err.2.2.index < n
  merge : ∀ target, invocation.merge = some target → target.2.index < n

/-- What a call leaves has been opened, where there is a call. -/
def CallIn (n : ℕ) (call : Option Invocation) : Prop :=
  ∀ invocation, call = some invocation → InvocationIn n invocation

theorem CallIn.none : CallIn n none := fun _ h => by cases h

theorem builds_openMerge (mergeTy : Option Ty) :
    Builds (openMerge mergeTy) n fun k merge => ∀ target, merge = some target →
      target.2.index < k := by
  cases mergeTy with
  | none => exact builds_pure fun _ _ _ h => by cases h
  | some ty =>
    refine (sound_pushValue _ _).before fun slot => ?_
    refine builds_newBlock.bind fun k after _ hafter => ?_
    refine builds_pure fun k' hk' target htarget => ?_
    cases htarget
    exact hafter.trans_le hk'

theorem builds_openErrBlock (context : String) (variant : ItemId) :
    Builds (openErrBlock B context variant) n fun k err => err.2.2.index < k := by
  refine (sound_orFail _ _).before fun _ => (sound_pushValue _ _).before fun slot => ?_
  refine builds_newBlock.bind fun k block _ hblock => ?_
  exact builds_pure fun k' hk' => hblock.trans_le hk'

theorem builds_emitInvoke (context : String) (id : ExprId) (item : ItemId) (typeArgs : List Ty)
    (retTy : Ty) (mergeTy : Option Ty) (values : List ValueId) :
    Builds (emitInvoke B context id item typeArgs retTy mergeTy values) n InvocationIn := by
  refine (sound_orFail _ _).before fun requirements => ?_
  refine (sound_resolveCallEvidence _ _ _).before fun evidence => ?_
  refine (sound_orFail _ _).before fun raises => ?_
  refine (builds_openMerge mergeTy).bind fun k merge _ hmerge => ?_
  refine (sound_pushValue _ _).before fun okSlot => ?_
  refine builds_newBlock.bind fun k' okTarget hk' hok => ?_
  have hopen : Builds (raises.mapM (openErrBlock B context)) k'
      fun k errs => ∀ err ∈ errs, err.2.2.index < k :=
    builds_mapM (fun _ _ _ hk h => h.trans_le hk) fun variant _ => builds_openErrBlock _ _
  refine hopen.bind fun k'' errs hk'' herrs => ?_
  have hok' : okTarget.index < k'' := hok.trans_le hk''
  refine (builds_terminate ?_).before fun _ => ?_
  · intro block hblock
    simp only [targets, List.map_map, List.mem_cons, List.mem_map] at hblock
    rcases hblock with rfl | ⟨err, herr, rfl⟩
    · exact hok'
    · exact herrs err herr
  · refine builds_pure fun k₃ hk₃ => ⟨hok'.trans_le hk₃, fun err herr => ?_, fun target ht => ?_⟩
    · exact (herrs err herr).trans_le hk₃
    · exact (hmerge target ht).trans_le ((hk'.trans hk'').trans hk₃)

/-- The parts of a call keep the builder intact. -/
structure PartsSound (parts : CallParts) : Prop where
  callee : Sound parts.callee
  args : ∀ x ∈ parts.args, Sound x

theorem builds_lowerNoInvoke {z : Build (Option α)} (message : String) (hz : Sound z) :
    Builds (lowerNoInvoke z message) n CallIn := by
  apply hz.before
  intro v
  cases v with
  | none => exact builds_pure fun _ _ => .none
  | some v => exact builds_throw _

theorem builds_lowerInvoke {operand : HirExpr} {parts : CallParts} (context : String)
    (mergeTy : Option Ty) (hx : Sound x) (hparts : PartsSound parts) :
    Builds (lowerInvoke B context operand x parts mergeTy) n CallIn := by
  unfold lowerInvoke
  split
  · refine (sound_orFail _ _).before fun sig => ?_
    refine (sound_resolveCallTypeArgs _ _ _).before fun typeArgs => ?_
    apply Builds.guard
    refine (sound_collectValues (sound_lowerArguments _ _ _ _ hparts.args)).before fun values => ?_
    cases values with
    | none => exact builds_pure fun _ _ => .none
    | some values =>
      refine (builds_emitInvoke _ _ _ _ _ _ _).bind fun k invocation _ hin => ?_
      refine builds_pure fun k' hk' inv hinv => ?_
      cases hinv
      exact ⟨hin.ok.trans_le hk', fun err herr => (hin.errs err herr).trans_le hk',
        fun target ht => (hin.merge target ht).trans_le hk'⟩
  · refine builds_lowerNoInvoke _ (sound_collectValues fun x hmem => ?_)
    rcases List.mem_cons.mp hmem with rfl | hmem
    · exact hparts.callee
    · exact hparts.args x hmem
  · refine builds_lowerNoInvoke _ (sound_collectValues fun x hmem => ?_)
    exact List.mem_singleton.mp hmem ▸ hx

theorem sound_lowerTry {invoke : Build (Option Invocation)} (id : ExprId)
    (h : Builds invoke 0 CallIn) : Sound (lowerTry B id invoke) := by
  refine h.bind fun k call _ hcall => ?_
  cases call with
  | none => exact (sound_pure _).builds
  | some invocation =>
    have hin := hcall invocation rfl
    have hraise : Builds (invocation.errBlocks.forM (propagate B id)) k fun _ _ => True := by
      refine builds_forM fun err herr => ?_
      refine (sound_orFail _ _).before fun _ => ?_
      refine (builds_switchTo (hin.errs err herr)).before fun _ => ?_
      refine (sound_pushValue _ _).before fun loaded => ?_
      exact (sound_emitCheckedCleanup _).before fun _ => (sound_terminate rfl).builds
    refine hraise.before fun _ => (builds_switchTo hin.ok).before fun _ => ?_
    exact (sound_valueOf (sound_pushValue _ _)).builds

theorem sound_lowerRaise {operand : HirExpr} (id : ExprId) (hx : Sound x) :
    Sound (lowerRaise B id operand x) := by
  refine sound_onValue hx fun value => ?_
  apply (sound_emitCheckedCleanup id).bind
  intro _
  apply (sound_orFail _ _).bind
  intro ty
  apply (sound_moveIfTransferred _ _ _).bind
  intro moved
  exact (sound_terminate rfl).bind fun _ => sound_pure _

/-! ### Handlers -/

theorem sound_bindArmPattern (pattern : HirPattern) (value : ValueId) (ty : Ty) :
    Sound (bindArmPattern B pattern value ty) := by
  unfold bindArmPattern
  split
  · exact sound_bindLocal _ _
  · exact .ite (fun _ => sound_pushInstruction rfl) fun _ => sound_pure _
  · exact sound_throw _

theorem sound_bindPayload (loaded : ValueId) (variant : ItemId) (case : ℕ)
    (args : List HirPattern) (payload : List Ty) :
    Sound (bindPayload B loaded variant case args payload) :=
  sound_forM fun _ _ => (sound_pushValue _ _).bind fun _ => sound_bindArmPattern _ _ _

theorem builds_lowerFailureArm {arm : LoweredArm} (loaded : ValueId) (variant : ItemId) (case : ℕ)
    (payload : List Ty) (h : Builds arm.body n fun _ _ => True) :
    Builds (lowerFailureArm B loaded variant case payload arm) n fun _ _ => True := by
  unfold lowerFailureArm
  split
  · exact builds_throw_bind _
  · exact h
  · apply Builds.guard
    exact (sound_bindPayload _ _ _ _ _).before fun _ => h

/-- The blocks of the arms that have been lowered have been opened. -/
def BlocksIn (n : ℕ) (blocks : ArmBlocks) : Prop := ∀ entry ∈ blocks, entry.2.index < n

theorem BlocksIn.mono {blocks : ArmBlocks} (h : BlocksIn n blocks) (hnm : n ≤ m) :
    BlocksIn m blocks := fun entry hentry => (h entry hentry).trans_le hnm

theorem mem_of_lookup_eq_some {blocks : ArmBlocks} {index : ℕ} {block : BlockId}
    (h : List.lookup index blocks = some block) : (index, block) ∈ blocks := by
  obtain ⟨before, after, rfl, -⟩ := List.lookup_eq_some_iff.mp h
  simp

section
variable {arms : List LoweredArm} {blocks : ArmBlocks} {dispatch : BlockId} {variant : ItemId}
  {loaded : ValueId}

theorem builds_dispatchCase (harms : ∀ arm ∈ arms, Builds arm.body n fun _ _ => True)
    (hblocks : BlocksIn n blocks) (hdispatch : dispatch.index < n) (case : ℕ)
    (payload : List Ty) :
    Builds (dispatchCase B arms dispatch loaded variant blocks case payload) n
      fun k entered => entered.1.index < k ∧ BlocksIn k entered.2 := by
  refine (sound_orFail _ _).before fun index => ?_
  split
  · rename_i block hfound
    have hmem : (index, block) ∈ blocks := mem_of_lookup_eq_some hfound
    exact builds_pure fun k hk => ⟨(hblocks _ hmem).trans_le hk, hblocks.mono hk⟩
  · refine builds_newBlock.bind fun k block hk hblock => ?_
    refine (builds_switchTo hblock).before fun _ => ?_
    refine builds_orFail_bind fun arm harm => ?_
    have hbody := (harms arm (List.mem_of_getElem? harm)).mono hk fun _ _ h => h
    refine (builds_lowerFailureArm loaded variant case payload hbody).before fun _ => ?_
    refine (builds_switchTo (hdispatch.trans_le hk)).before fun _ => ?_
    refine builds_pure fun k' hk' => ⟨hblock.trans_le hk', fun entry hentry => ?_⟩
    rcases List.mem_cons.mp hentry with rfl | hentry
    · exact hblock.trans_le hk'
    · exact (hblocks entry hentry).trans_le (hk.trans hk')

theorem builds_dispatchCases (cases : List (List Ty × ℕ))
    (harms : ∀ arm ∈ arms, Builds arm.body n fun _ _ => True) (hblocks : BlocksIn n blocks)
    (hdispatch : dispatch.index < n) :
    Builds (dispatchCases B arms dispatch loaded variant blocks cases) n
      fun k entered => (∀ block ∈ entered.1, block.index < k) ∧ BlocksIn k entered.2 := by
  induction cases generalizing blocks n with
  | nil => exact builds_pure fun k hk => ⟨by simp, hblocks.mono hk⟩
  | cons entry rest ih =>
    obtain ⟨payload, case⟩ := entry
    refine (builds_dispatchCase harms hblocks hdispatch case payload).bind
      fun k entered hk hentered => ?_
    refine (ih (fun arm harm => (harms arm harm).mono hk fun _ _ h => h) hentered.2
      (hdispatch.trans_le hk)).bind fun k' others hk' hothers => ?_
    refine builds_pure fun k'' hk'' => ⟨fun block hblock => ?_, hothers.2.mono hk''⟩
    rcases List.mem_cons.mp hblock with rfl | hblock
    · exact hentered.1.trans_le (hk'.trans hk'')
    · exact (hothers.1 block hblock).trans_le hk''

theorem builds_dispatchVariants (errs : List (ItemId × ValueId × BlockId))
    (harms : ∀ arm ∈ arms, Builds arm.body n fun _ _ => True) (hblocks : BlocksIn n blocks)
    (herrs : ∀ err ∈ errs, err.2.2.index < n) :
    Builds (dispatchVariants B arms blocks errs) n fun _ _ => True := by
  induction errs generalizing blocks n with
  | nil => exact (sound_pure _).builds
  | cons err rest ih =>
    obtain ⟨variant, slot, dispatch⟩ := err
    have hdispatch : dispatch.index < n := herrs _ List.mem_cons_self
    refine (sound_orFail _ _).before fun layout => ?_
    refine (builds_switchTo hdispatch).before fun _ => (sound_pushValue _ _).before fun loaded => ?_
    refine (builds_dispatchCases _ harms hblocks hdispatch).bind fun k entered hk hentered => ?_
    refine (builds_terminate (by simpa [targets] using hentered.1)).before fun _ => ?_
    exact ih (fun arm harm => (harms arm harm).mono hk fun _ _ h => h) hentered.2
      fun err herr => (herrs err (List.mem_cons_of_mem _ herr)).trans_le hk

theorem builds_lowerHandleDispatch {invocation : Invocation}
    (harms : ∀ arm ∈ arms, Builds arm.body n fun _ _ => True) (hin : InvocationIn n invocation) :
    Builds (lowerHandleDispatch B arms invocation) n fun _ _ => True := by
  have hnone : BlocksIn n [] := fun _ h => by cases h
  refine (builds_dispatchVariants _ harms hnone hin.errs).before fun _ => ?_
  refine (builds_switchTo hin.ok).before fun _ => (sound_pushValue _ _).before fun okValue => ?_
  refine builds_orFail_bind fun arm harm => ?_
  have hbody := harms arm (List.mem_of_find?_eq_some harm)
  split
  · exact (sound_bindArmPattern _ _ _).before fun _ => hbody
  · exact hbody

end

theorem builds_armsFor {kinds : List HirHandleArmKind} {bodies : List (ArmSink → Build Unit)}
    (h : ∀ body ∈ bodies, ArmSound body) (hsink : SinkIn n sink) :
    ∀ arm ∈ armsFor sink kinds bodies, Builds arm.body n fun _ _ => True := by
  intro arm harm
  obtain ⟨p, hp, rfl⟩ := List.mem_map.mp harm
  exact h p.2 (mem_of_mem_zip hp) hsink

theorem sound_lowerHandle {invoke : Option Ty → Build (Option Invocation)}
    {kinds : List HirHandleArmKind} {bodies : List (ArmSink → Build Unit)} (resultTy : Ty)
    (hinvoke : ∀ mergeTy, Builds (invoke mergeTy) 0 CallIn) (h : ∀ body ∈ bodies, ArmSound body) :
    Sound (lowerHandle B invoke kinds bodies resultTy) := by
  refine (hinvoke _).bind fun k call _ hcall => ?_
  cases call with
  | none => exact (sound_pure _).builds
  | some invocation =>
    have hin := hcall invocation rfl
    cases hmerge : invocation.merge with
    | none =>
      have hdiverge : SinkIn k .diverge := trivial
      simp only [hmerge]
      exact (builds_lowerHandleDispatch (builds_armsFor h hdiverge) hin).before fun _ =>
        (sound_pure _).builds
    | some target =>
      have hafter : target.2.index < k := hin.merge target hmerge
      have hsink : SinkIn k (.merge target.1 target.2) := hafter
      simp only [hmerge]
      refine (builds_lowerHandleDispatch (builds_armsFor h hsink) hin).before fun _ => ?_
      refine (builds_switchTo hafter).before fun _ => ?_
      exact (sound_valueOf (sound_pushValue _ _)).builds

theorem sound_lowerHandleIntoReturnSink {invoke : Build (Option Invocation)}
    {kinds : List HirHandleArmKind} {bodies : List (ArmSink → Build Unit)}
    (hinvoke : Builds invoke 0 CallIn) (h : ∀ body ∈ bodies, ArmSound body) :
    Sound (lowerHandleIntoReturnSink B invoke kinds bodies) := by
  refine hinvoke.bind fun k call _ hcall => ?_
  cases call with
  | none => exact (sound_pure _).builds
  | some invocation =>
    have hfinish : SinkIn k .finish := trivial
    exact (builds_lowerHandleDispatch (builds_armsFor h hfinish) (hcall invocation rfl)).before
      fun _ => (sound_pure _).builds

end

end Napitia.Lower
