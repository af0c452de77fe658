import Napitia.Interpreter.Flow
import Napitia.Lower.Coverage
import Napitia.Lower.Placement
import Napitia.Lower.Taking

/-!
# A decision tree, run

The code of a decision, run on a value, comes to the leaf of the arm the
decision made on that value ends with.
-/
namespace Napitia.Lower
open Nir Typeck Interpreter StateT

/-! ### Coming to a leaf -/

/-- The frame has changed in nothing but values numbered from the bound on. -/
structure Agrees (N : ℕ) (s s' : FrameState) : Prop where
  interpreter : s'.interpreter = s.interpreter
  leases : s'.activeLeases = s.activeLeases
  values : ∀ {id : ValueId}, id.index < N → s'.values.lookup id = s.values.lookup id

theorem Agrees.refl (N : ℕ) (s : FrameState) : Agrees N s s := ⟨rfl, rfl, fun _ => rfl⟩

theorem Agrees.trans {N M : ℕ} {s u v : FrameState} (h : Agrees N s u) (h' : Agrees M u v)
    (hle : N ≤ M) : Agrees N s v :=
  ⟨h'.interpreter.trans h.interpreter, h'.leases.trans h.leases,
    fun hid => (h'.values (hid.trans_le hle)).trans (h.values hid)⟩

theorem Agrees.insert {N : ℕ} (s : FrameState) {id : ValueId} (hid : N ≤ id.index) (v : Value) :
    Agrees N s (s.insert id v) := by
  refine ⟨rfl, rfl, fun {k} hk => AList.lookup_insert_ne ?_⟩
  rintro rfl
  omega

theorem Agrees.resources {N : ℕ} {s s' : FrameState} (h : Agrees N s s') :
    s'.resources = s.resources := congrArg InterpreterState.resources h.interpreter

/-- An occurrence of the decision holds the value of a position. -/
structure Standing (L : Lowering) (ctx : FrameContext) (s : FrameState) (occ : Occurrence)
    (pos : Position) : Prop where
  ty : occ.ty = pos.ty
  value : s.values.lookup occ.value = some pos.value
  runs : L.RunsAs s.resources ctx.subst pos.value pos.ty

theorem Standing.of_agrees {L : Lowering} {ctx : FrameContext} {s s' : FrameState} {N : ℕ}
    {occ : Occurrence} {pos : Position} (h : Standing L ctx s occ pos) (hs : Agrees N s s')
    (hocc : occ.value.index < N) : Standing L ctx s' occ pos := by
  refine ⟨h.ty, (hs.values hocc).trans h.value, ?_⟩
  rw [hs.resources]
  exact h.runs

theorem standing_of_agrees {L : Lowering} {ctx : FrameContext} {s s' : FrameState} {N : ℕ}
    {occs : List Occurrence} {positions : List Position} (hs : Agrees N s s')
    (hoccs : ∀ o ∈ occs, o.value.index < N)
    (h : List.Forall₂ (Standing L ctx s) occs positions) :
    List.Forall₂ (Standing L ctx s') occs positions := by
  induction h with
  | nil => exact .nil
  | cons hone _ ih =>
    exact .cons (hone.of_agrees hs (hoccs _ (by simp))) (ih fun o ho => hoccs o (by simp [ho]))

section
variable (m : Module) (fpu : FloatUnit) (L : Lowering) (arm : ArmLowering) (sink : ArmSink)

/-- The leaf a decision comes to: the row that won and what it took, the builder
where its prologue starts, and the frame as it stands there. -/
structure Arrival (fb : FnBuilder) (start : Point) (rs : List Scored) (occs : List Occurrence)
    (positions : List Position) (w : Contender) where
  row : Scored
  take : Take
  leaf : FnBuilder
  after : FnBuilder
  state : FrameState
  rest : List Instruction
  terminator : Terminator
  mem : row ∈ rs
  takes : Takes L state.values leaf.payloadSources fb.nextValue row.1.patterns occs positions take
  arm_eq : w.arm = row.1.armIndex
  tainted : w.tainted = (row.2 || take.tainted)
  below : fb.Below leaf
  formed : leaf.Formed
  lowered : (do
    enterArm L (row.1.finish take)
    arm.lower sink row.1.armIndex).run leaf = .ok (⟨⟩, after)
  within : after.Within start.ctx.function
  continues : leaf.Continues start.ctx.function rest terminator
  leads : Leads m fpu start ⟨start.ctx, state, rest, terminator⟩
  agrees : Agrees fb.nextValue start.state state

/-- The code a piece of lowering adds runs as the decision on values decides. -/
def Follows (decide : List Contender → List Position → Option Contender)
    (next : List MatrixRow → List Occurrence → Build Unit) : Prop :=
  ∀ {rows : List MatrixRow} {occs : List Occurrence} {fb fb' : FnBuilder}
    {code is : List Instruction} {t : Terminator} {ctx : FrameContext} {s : FrameState}
    {rs : List Scored} {positions : List Position}, fb.Formed → fb.Stands code →
    (∀ o ∈ occs, o.value.index < fb.nextValue) → (next rows occs).run fb = .ok (⟨⟩, fb') →
    fb'.Within ctx.function → rs.map Prod.fst = rows →
    RowsTyped L literalDomain rows (occs.map (·.ty)) →
    List.Forall₂ (Standing L ctx s) occs positions → fb.Continues ctx.function is t →
    ∃ w, decide (rs.map contend) positions = some w ∧
      Nonempty (Arrival m fpu L arm sink fb ⟨ctx, s, is, t⟩ rs occs positions w)

end

section
variable {m : Module} {fpu : FloatUnit} {L : Lowering} {arm : ArmLowering} {sink : ArmSink}
  {fb fb₁ : FnBuilder} {rs rs₁ : List Scored} {occs occs₁ : List Occurrence}
  {positions positions₁ : List Position} {w : Contender} {ctx : FrameContext}
  {s s₁ : FrameState} {is is₁ : List Instruction} {t t₁ : Terminator}

theorem follows_step {decide : List Contender → List Position → Option Contender}
    {next : List MatrixRow → List Occurrence → Build Unit} {f : MatrixRow → Option MatrixRow}
    {g : Contender → Option Contender} {fb' : FnBuilder} {code : List Instruction}
    (hnext : Follows m fpu L arm sink decide next) (hagree : ∀ x ∈ rs, Agree f g x)
    (hbefore : ∀ {values : Values} {sources : AList (fun _ : ValueId => PayloadSource)},
      (∀ {id : ValueId}, id.index < fb₁.nextValue → values.lookup id = s₁.values.lookup id) →
      (∀ {id : ValueId}, id.index < fb₁.nextValue →
        sources.lookup id = fb₁.payloadSources.lookup id) →
      ∀ x ∈ rs, ∀ y : Scored, ∀ T', f x.1 = some y.1 → g (contend x) = some (contend y) →
        Takes L values sources fb₁.nextValue y.1.patterns occs₁ positions₁ T' →
        Takes.Before L values sources fb.nextValue occs positions x y T')
    (hformed : fb₁.Formed) (hs : fb₁.Stands code)
    (hoccs : ∀ o ∈ occs₁, o.value.index < fb₁.nextValue)
    (hrun : (next ((rs.map Prod.fst).filterMap f) occs₁).run fb₁ = .ok (⟨⟩, fb'))
    (hwithin : fb'.Within ctx.function)
    (htyped : RowsTyped L literalDomain ((rs.map Prod.fst).filterMap f) (occs₁.map (·.ty)))
    (hstanding : List.Forall₂ (Standing L ctx s₁) occs₁ positions₁)
    (hcont : fb₁.Continues ctx.function is₁ t₁) (hbelow : fb.Below fb₁)
    (hleads : Leads m fpu ⟨ctx, s, is, t⟩ ⟨ctx, s₁, is₁, t₁⟩)
    (hagrees : Agrees fb.nextValue s s₁) :
    ∃ w, decide ((rs.map contend).filterMap g) positions₁ = some w ∧
      Nonempty (Arrival m fpu L arm sink fb ⟨ctx, s, is, t⟩ rs occs positions w) := by
  obtain ⟨rs', hrows, hcontend, hall⟩ := scored_filterMap hagree
  obtain ⟨w, hdecide, ⟨A⟩⟩ := hnext hformed hs hoccs hrun hwithin hrows htyped hstanding hcont
  rw [hcontend] at hdecide
  refine ⟨w, hdecide, ?_⟩
  obtain ⟨x, hx, hf, hg⟩ := hall A.row A.mem
  obtain ⟨T, htakes, hfinish, htainted⟩ := hbefore A.agrees.values A.below.sources x hx A.row A.take
    hf hg A.takes
  have harm : (x.1.finish T).armIndex = (A.row.1.finish A.take).armIndex :=
    congrArg MatrixRow.armIndex hfinish
  refine ⟨⟨x, T, A.leaf, A.after, A.state, A.rest, A.terminator, hx, htakes,
    A.arm_eq.trans harm.symm, A.tainted.trans htainted.symm, hbelow.trans A.below, A.formed, ?_,
    A.within, A.continues, hleads.trans A.leads, hagrees.trans A.agrees hbelow.nextValue⟩⟩
  have hlowered := A.lowered
  rw [← hfinish] at hlowered
  change x.1.armIndex = A.row.1.armIndex at harm
  rw [harm]
  exact hlowered

theorem leads_payload (fpu : FloatUnit) (ctx : FrameContext) (is : List Instruction)
    (tys : List Ty) {base : ValueId} {item : ItemId} {typeArgs : List Ty} {case : ℕ}
    {payload : List Value} {n i : ℕ}
    (hbase : s.values.lookup base = some (.variant item typeArgs case payload))
    (hlt : base.index < n)
    (hfits : ∀ (k : ℕ) (ty : Ty), tys[k]? = some ty →
      ∃ u, payload[i + k]? = some u ∧ Fits s.resources ctx.subst u ty) :
    ∃ s', Leads m fpu ⟨ctx, s, payloadCode base item case n i tys ++ is, t⟩ ⟨ctx, s', is, t⟩ ∧
      Agrees n s s' ∧ ∀ k < tys.length, s'.values.lookup ⟨n + k⟩ = payload[i + k]? := by
  induction tys generalizing n i s with
  | nil => exact ⟨s, .refl _, .refl n s, by simp⟩
  | cons ty tys ih =>
    obtain ⟨u, hu, hfit⟩ := hfits 0 ty rfl
    rw [Nat.add_zero] at hu
    have hstep : execInstruction m fpu (callFunction m fpu 0) ctx
        (.value ⟨n⟩ ty (.variantPayload base item case i)) s = .ok ⟨⟩ (s.insert ⟨n⟩ u) :=
      execValue_payload hfit.executable hbase hu hfit.declared
    have hinsert : Agrees n s (s.insert ⟨n⟩ u) := .insert s le_rfl u
    obtain ⟨s', hleads, hagrees, hvalues⟩ := ih (n := n + 1) (i := i + 1) (s := s.insert ⟨n⟩ u)
      ((hinsert.values hlt).trans hbase) (by omega) (by
        intro k ty' hty'
        obtain ⟨u', hu', hfit'⟩ := hfits (k + 1) ty' hty'
        refine ⟨u', ?_, hfit'⟩
        rw [← hu']
        congr 1
        omega)
    refine ⟨s', (leads_instruction hstep).trans hleads, hinsert.trans hagrees (Nat.le_succ n), ?_⟩
    intro k hk
    cases k with
    | zero =>
      rw [Nat.add_zero, Nat.add_zero, hu, hagrees.values (Nat.lt_succ_self n)]
      exact AList.lookup_insert _
    | succ k =>
      have hk' : k < tys.length := by simpa using hk
      have hvalue := hvalues k hk'
      rw [show n + (k + 1) = n + 1 + k by omega, show i + (k + 1) = i + 1 + k by omega]
      exact hvalue

/-- A literal that fits its type is a constant of it, and comparing a value of the
type with it asks whether the pattern accepts the value. -/
theorem literal_compares {t : ResourceTable} {frame : Subst} {v : Value} {ty : Ty}
    {lit : LiteralTest} {key : LiteralKey} (hkey : lit.key = some key) (hfits : fits key ty)
    (h : Fits t frame v ty) :
    ∃ c, constValue lit.const = .ok c ∧
      argumentMatchesDeclared t c (substitute ty frame) = .ok true ∧
      eq v c = .ok (lit.resolved.accepts v) := by
  cases lit with
  | bool b => cases hkey
  | str a =>
    cases hkey
    obtain rfl : ty = .str := hfits
    have hdeclared := h.declared
    have hstr : substitute .str frame = .str := rfl
    rw [hstr] at hdeclared ⊢
    cases v with
    | str b =>
      refine ⟨.str a, rfl, rfl, ?_⟩
      simp [eq, LiteralTest.resolved, ResolvedPattern.accepts, Bool.beq_eq_decide_eq, eq_comm]
      rfl
    | _ => cases hdeclared
  | char a =>
    cases hkey
    obtain rfl : ty = .char := hfits
    have hdeclared := h.declared
    have hchar : substitute .char frame = .char := rfl
    rw [hchar] at hdeclared ⊢
    cases v with
    | char b =>
      refine ⟨.char a, rfl, rfl, ?_⟩
      simp [eq, LiteralTest.resolved, ResolvedPattern.accepts, Bool.beq_eq_decide_eq, eq_comm]
      rfl
    | _ => cases hdeclared
  | int n =>
    cases hkey
    have hi64 : ty = .i64 := by
      have hexec := h.executable
      cases ty with
      | i64 => rfl
      | i8 | i16 | i32 | isize | u8 | u16 | u32 | u64 | usize => cases hexec
      | _ => simp [fits, Numeric.domainOf] at hfits
    subst hi64
    have hdeclared := h.declared
    have hi64 : substitute .i64 frame = .i64 := rfl
    rw [hi64] at hdeclared ⊢
    have htop : (Numeric.IntDomain.max ⟨"i64", true, 64⟩).toNat = 9223372036854775807 := by decide
    have hmax : n ≤ 9223372036854775807 := by
      by_contra hlarge
      simp [fits, Numeric.domainOf, Numeric.IntDomain.literal, htop, hlarge] at hfits
    have hcontains : Numeric.i64.contains (n : ℤ) = true := by
      have hlow : Numeric.i64.min = -9223372036854775808 := by decide
      have hhigh : Numeric.i64.max = 9223372036854775807 := by decide
      rw [Numeric.IntDomain.contains, hlow, hhigh, Bool.and_eq_true, decide_eq_true_eq,
        decide_eq_true_eq]
      omega
    cases v with
    | int x =>
      refine ⟨.int (BitVec.ofInt 64 n), by simp [constValue, LiteralTest.const, hcontains]; rfl, rfl, ?_⟩
      have hto : (BitVec.ofInt 64 (n : ℤ)).toInt = n := by
        rw [BitVec.toInt_ofInt]
        exact Int.bmod_eq_of_le (by omega) (by omega)
      have hiff : x = BitVec.ofInt 64 n ↔ x.toInt = n := by
        rw [← BitVec.toInt_inj, hto]
      simp only [eq, LiteralTest.resolved, ResolvedPattern.accepts]
      congr 1
      rw [Bool.beq_eq_decide_eq]
      exact decide_eq_decide.mpr hiff
    | _ => cases hdeclared

/-! ### Columns -/

theorem Within.enters {f : Function} (h : fb.Within f) (hs : fb.Stands []) :
    ∃ block, f.findBlock fb.current = some block ∧
      fb.Continues f block.instructions block.terminator := by
  obtain ⟨block, hblock, -, -⟩ := h hs
  exact ⟨block, hblock, [], block, hs, hblock, rfl, rfl⟩

/-- A branch on a condition enters the side of its value. -/
theorem enters_fork (fpu : FloatUnit) {N : ℕ} {x y : Build Unit} {condition : ValueId} {b : Bool}
    {mid fb' : FnBuilder} {code : List Instruction} (hx : GrowsAt N x) (hy : GrowsAt N y)
    (hformed : fb.Formed) (hs : fb.Stands code) (hN : N ≤ fb.nextValue)
    (hthen : x.run ((fb.fork condition).movedTo ⟨fb.blocks.length⟩) = .ok (⟨⟩, mid))
    (helse : y.run (mid.movedTo ⟨fb.blocks.length + 1⟩) = .ok (⟨⟩, fb'))
    (hwithin : fb'.Within ctx.function) (hcont : fb.Continues ctx.function is t)
    (hvalue : s.values.lookup condition = some (.bool b)) :
    ∃ u u' is₁ t₁, fb.Below u ∧ u.Formed ∧ u.Stands [] ∧
      (if b then x else y).run u = .ok (⟨⟩, u') ∧ u'.Within ctx.function ∧
      u.Continues ctx.function is₁ t₁ ∧ Leads m fpu ⟨ctx, s, is, t⟩ ⟨ctx, s, is₁, t₁⟩ := by
  obtain ⟨-, hmidFormed, hfork, hlast, helseStands⟩ :=
    fork_grows hx hy hformed hs hN hthen helse
  have hmid : mid.Within ctx.function := FnBuilder.Within.of_below hlast hwithin
  have hforkWithin : (fb.fork condition).Within ctx.function :=
    FnBuilder.Within.of_below hfork hmid
  obtain ⟨rfl, rfl⟩ := hcont.closed (fun h => FnBuilder.block_fork h condition) hforkWithin
  have hbelow := (FnBuilder.grows_fork hs condition).toBelow
  have hjump : execTerminator m (callFunction m fpu 0) ctx
      (.condBranch condition ⟨fb.blocks.length⟩ ⟨fb.blocks.length + 1⟩) s =
        .ok (.goto (if b then ⟨fb.blocks.length⟩ else ⟨fb.blocks.length + 1⟩)) s :=
    execTerminator_branch hvalue
  cases b with
  | true =>
    have hstands : ((fb.fork condition).movedTo ⟨fb.blocks.length⟩).Stands [] :=
      FnBuilder.target_fork hs condition (i := 0) (by omega)
    have hstart : ((fb.fork condition).movedTo ⟨fb.blocks.length⟩).Within ctx.function :=
      fun h => hforkWithin h
    obtain ⟨block, hblock, hcont'⟩ := Within.enters hstart hstands
    exact ⟨(fb.fork condition).movedTo ⟨fb.blocks.length⟩, mid, _, _,
      ⟨hbelow.nextValue, hbelow.block, hbelow.sources⟩,
      (hformed.fork condition).movedTo _, hstands, hthen, hmid, hcont', leads_jump hjump hblock⟩
  | false =>
    have hstart : (mid.movedTo ⟨fb.blocks.length + 1⟩).Within ctx.function := fun h => hmid h
    obtain ⟨block, hblock, hcont'⟩ := Within.enters hstart helseStands
    have hall := hbelow.trans hfork
    exact ⟨mid.movedTo ⟨fb.blocks.length + 1⟩, fb', _, _,
      ⟨hall.nextValue, hall.block, hall.sources⟩, hmidFormed.movedTo _,
      helseStands, helse, hwithin, hcont', leads_jump hjump hblock⟩

section
variable {decide : List Contender → List Position → Option Contender}
  {next : List MatrixRow → List Occurrence → Build Unit} {rows : List MatrixRow}
  {occ : Occurrence} {rest : List Occurrence} {pos : Position} {fb' : FnBuilder}
  {code : List Instruction}

/-- The step at a column no row tests. -/
theorem follows_untested (rs : List Scored) (pos : Position) (hnext : Follows m fpu L arm sink decide next) (hformed : fb.Formed)
    (hs : fb.Stands code) (hoccs : ∀ o ∈ rest, o.value.index < fb.nextValue)
    (hrun : (next ((rs.map Prod.fst).map (L.untested occ)) rest).run fb = .ok (⟨⟩, fb'))
    (hwithin : fb'.Within ctx.function)
    (htyped : RowsTyped L literalDomain (rs.map Prod.fst) (occ.ty :: rest.map (·.ty)))
    (huntested : ¬ Tested ((rs.map Prod.fst).map L.resolveRow))
    (hstanding : List.Forall₂ (Standing L ctx s) rest positions)
    (hcont : fb.Continues ctx.function is t) :
    ∃ w, decide ((rs.map contend).filterMap (L.passOver pos)) positions = some w ∧
      Nonempty (Arrival m fpu L arm sink fb ⟨ctx, s, is, t⟩ rs (occ :: rest) (pos :: positions) w) := by
  have hmap : (rs.map Prod.fst).map (L.untested occ) =
      (rs.map Prod.fst).filterMap fun r => some (L.untested occ r) := by
    rw [← List.filterMap_eq_map]
    rfl
  have hrow : ∀ x ∈ rs, RowTyped (spaceOf L.module) literalDomain (occ.ty :: rest.map (·.ty))
      (L.resolveRow x.1) := fun x hx => htyped x.1 (List.mem_map_of_mem hx)
  have hwild : ∀ x ∈ rs, L.classify x.1.head = .wildcard ∨
      ∃ binding, L.classify x.1.head = .bind binding := by
    intro x hx
    have hhead : (L.resolveRow x.1).head? = some .wildcard := by
      by_contra hne
      exact huntested ⟨_, List.mem_map_of_mem (List.mem_map_of_mem hx), hne⟩
    rw [resolveRow_cons (RowTyped.patterns_ne_nil (hrow x hx)), List.head?_cons,
      Option.some.injEq] at hhead
    cases hc : L.classify x.1.head with
    | wildcard => exact .inl rfl
    | bind binding => exact .inr ⟨binding, rfl⟩
    | case item k args => simp [hc, Lowering.resolveClass] at hhead
    | literal test => cases test <;> simp [hc, Lowering.resolveClass, LiteralTest.resolved] at hhead
  have htyped' := RowsTyped.of_resolve (resolve_untested occ htyped huntested)
    (rowTyped_defaultMatrix htyped.map)
  rw [hmap] at hrun htyped'
  exact follows_step hnext (fun x hx => agree_untested (hwild x hx))
    (fun _ _ x hx y T' hf hg htakes => before_untested
      (RowTyped.patterns_ne_nil (hrow x hx)) (Option.some.inj hf) hg htakes)
    hformed hs hoccs hrun hwithin htyped' hstanding hcont (.refl fb) (.refl _) (.refl _ _)

theorem follows_literal {lit : LiteralTest} (hnext : Follows m fpu L arm sink decide next)
    (hformed : fb₁.Formed) (hs : fb₁.Stands code)
    (hoccs : ∀ o ∈ rest, o.value.index < fb₁.nextValue)
    (hrun : (next ((rs.map Prod.fst).filterMap (L.keepLiteral lit occ)) rest).run fb₁ =
      .ok (⟨⟩, fb'))
    (hwithin : fb'.Within ctx.function) (hne : ∀ x ∈ rs, x.1.patterns ≠ [])
    (htyped : RowsTyped L literalDomain ((rs.map Prod.fst).filterMap (L.keepLiteral lit occ))
      (rest.map (·.ty)))
    (hstanding : List.Forall₂ (Standing L ctx s₁) rest positions)
    (hcont : fb₁.Continues ctx.function is₁ t₁) (hbelow : fb.Below fb₁)
    (hleads : Leads m fpu ⟨ctx, s, is, t⟩ ⟨ctx, s₁, is₁, t₁⟩)
    (hagrees : Agrees fb.nextValue s s₁) :
    ∃ w, decide ((rs.map contend).filterMap (L.holdsLiteral lit pos)) positions = some w ∧
      Nonempty (Arrival m fpu L arm sink fb ⟨ctx, s, is, t⟩ rs (occ :: rest) (pos :: positions) w) :=
  follows_step hnext (fun x _ => agree_keepLiteral lit x)
    (fun _ _ x hx _ _ hf hg htakes => by
      obtain ⟨T, hT, hrest⟩ := before_keepLiteral (hne x hx) hf hg htakes
      exact ⟨T, hT.mono hbelow.nextValue, hrest⟩)
    hformed hs hoccs hrun hwithin htyped hstanding hcont hbelow hleads hagrees

/-- The step at a column of booleans. -/
theorem follows_bool (hnext : Follows m fpu L arm sink decide next) (hgrows : GrowsFrom next)
    (hspace : space (spaceOf L.module) occ.ty = .bool) (hformed : fb.Formed) (hs : fb.Stands code)
    (hoccs : ∀ o ∈ occ :: rest, o.value.index < fb.nextValue)
    (hrun : (lowerBoolSwitch L next occ rest (rs.map Prod.fst)).run fb = .ok (⟨⟩, fb'))
    (hwithin : fb'.Within ctx.function)
    (htyped : RowsTyped L literalDomain (rs.map Prod.fst) (occ.ty :: rest.map (·.ty)))
    (hvalue : Standing L ctx s occ pos) {b : Bool} (hb : pos.value = .bool b)
    (hstanding : List.Forall₂ (Standing L ctx s) rest positions)
    (hcont : fb.Continues ctx.function is t) :
    ∃ w, (if (rs.map contend).any fun c => (L.classify c.head).isBool then
        decide ((rs.map contend).filterMap (L.holdsLiteral (.bool b) pos)) positions
      else decide ((rs.map contend).filterMap (L.passOver pos)) positions) = some w ∧
      Nonempty (Arrival m fpu L arm sink fb ⟨ctx, s, is, t⟩ rs (occ :: rest) (pos :: positions) w) := by
  have hrest : ∀ o ∈ rest, o.value.index < fb.nextValue := fun o ho => hoccs o (by simp [ho])
  have hany : ((rs.map contend).any fun c => (L.classify c.head).isBool) =
      (rs.map Prod.fst).any fun r => (L.classify r.head).isBool := by
    simp [List.any_map, Function.comp_def, contend_head]
  have htested := tested_bool hspace htyped
  rw [hany]
  rcases lowerBoolSwitch_inv hrun with ⟨hnot, hrun⟩ | ⟨hyes, mid, hthen, helse⟩
  · rw [hnot, if_neg (by simp)]
    refine follows_untested _ _ hnext hformed hs hrest hrun hwithin htyped (fun hT => ?_) hstanding hcont
    have hcontra := htested.mpr hT
    simp [hnot] at hcontra
  · rw [hyes, if_pos rfl]
    obtain ⟨u, u', is₁, t₁, hbelow, huformed, hustands, hurun, huwithin, hucont, hleads⟩ :=
      enters_fork (m := m) (s := s) (b := b) fpu (hgrows _ _ _ hrest) (hgrows _ _ _ hrest)
        hformed hs le_rfl hthen helse hwithin hcont (hvalue.value.trans (by rw [hb]))
    have hbranch : (next ((rs.map Prod.fst).filterMap (L.keepLiteral (.bool b) occ)) rest).run u =
        .ok (⟨⟩, u') := by
      cases b <;> exact hurun
    have hne : ∀ x ∈ rs, x.1.patterns ≠ [] := fun x hx =>
      RowTyped.patterns_ne_nil (htyped x.1 (List.mem_map_of_mem hx))
    exact follows_literal hnext huformed hustands
      (fun o ho => (hrest o ho).trans_le hbelow.nextValue) hbranch huwithin hne
      (.of_resolve (resolve_keepLiteral_bool occ b htyped) (rowTyped_specializeBool htyped.map))
      hstanding hucont hbelow hleads (.refl _ _)

theorem leads_compared (fpu : FloatUnit) (is : List Instruction) {lit : LiteralTest} {key : LiteralKey} (hkey : lit.key = some key)
    (hfits : fits key occ.ty) (hvalue : Standing L ctx s occ pos)
    (hocc : occ.value.index < fb.nextValue) :
    ∃ s', Leads m fpu ⟨ctx, s, [.value ⟨fb.nextValue⟩ occ.ty (.const lit.const),
        .value ⟨fb.nextValue + 1⟩ .bool (.eq occ.value ⟨fb.nextValue⟩)] ++ is, t⟩ ⟨ctx, s', is, t⟩ ∧
      Agrees fb.nextValue s s' ∧
      s'.values.lookup ⟨fb.nextValue + 1⟩ = some (.bool (lit.resolved.accepts pos.value)) := by
  have hfit := hvalue.runs.fits
  rw [← hvalue.ty] at hfit
  obtain ⟨c, hconst, hdeclared, heq⟩ := literal_compares hkey hfits hfit
  have hfirst : execInstruction m fpu (callFunction m fpu 0) ctx
      (.value ⟨fb.nextValue⟩ occ.ty (.const lit.const)) s =
        .ok ⟨⟩ (s.insert ⟨fb.nextValue⟩ c) :=
    execValue_const hfit.executable hconst hdeclared
  have hinsert : Agrees fb.nextValue s (s.insert ⟨fb.nextValue⟩ c) :=
    .insert s (le_refl fb.nextValue) c
  have hsecond : execInstruction m fpu (callFunction m fpu 0) ctx
      (.value ⟨fb.nextValue + 1⟩ .bool (.eq occ.value ⟨fb.nextValue⟩))
        (s.insert ⟨fb.nextValue⟩ c) = .ok ⟨⟩ ((s.insert ⟨fb.nextValue⟩ c).insert ⟨fb.nextValue + 1⟩
          (.bool (lit.resolved.accepts pos.value))) :=
    execValue_eq ((hinsert.values hocc).trans hvalue.value) (AList.lookup_insert s.values) heq
  exact ⟨_, (leads_instruction hfirst).trans (leads_instruction hsecond),
    hinsert.trans (.insert _ (Nat.le_succ _) _) le_rfl, AList.lookup_insert _⟩

/-- The rows that do not test for the literal, on the path on which the
occurrence does not hold it. -/
theorem follows_others {lit : LiteralTest} (hnext : Follows m fpu L arm sink decide next)
    (hformed : fb₁.Formed) (hs : fb₁.Stands code)
    (hoccs : ∀ o ∈ occs, o.value.index < fb₁.nextValue)
    (hrun : (next ((rs.map Prod.fst).filter fun r => !(L.classify r.head).isLiteral lit) occs).run
      fb₁ = .ok (⟨⟩, fb'))
    (hwithin : fb'.Within ctx.function)
    (htyped : RowsTyped L literalDomain (rs.map Prod.fst) (occs.map (·.ty)))
    (hstanding : List.Forall₂ (Standing L ctx s₁) occs positions)
    (hcont : fb₁.Continues ctx.function is₁ t₁) (hbelow : fb.Below fb₁)
    (hleads : Leads m fpu ⟨ctx, s, is, t⟩ ⟨ctx, s₁, is₁, t₁⟩)
    (hagrees : Agrees fb.nextValue s s₁) :
    ∃ w, decide ((rs.map contend).filter fun c => !(L.classify c.head).isLiteral lit) positions =
        some w ∧
      Nonempty (Arrival m fpu L arm sink fb ⟨ctx, s, is, t⟩ rs occs positions w) := by
  have htyped' : RowsTyped L literalDomain
      ((rs.map Prod.fst).filter fun r => !(L.classify r.head).isLiteral lit)
      (occs.map (·.ty)) := fun r hr => htyped r (List.mem_filter.mp hr).1
  rw [← List.filterMap_eq_filter] at hrun htyped' ⊢
  refine follows_step hnext (fun x _ => ?_) (fun _ _ x _ y T' hf hg htakes => ?_) hformed hs hoccs
    hrun hwithin htyped' hstanding hcont hbelow hleads hagrees
  · by_cases htest : (L.classify x.1.head).isLiteral lit
    · exact .inl ⟨by simp [htest], by simp [contend_head, htest]⟩
    · exact .inr ⟨x.1, x.2, by simp [htest], by simp [contend_head, htest]⟩
  · have hrow : x.1 = y.1 := (Option.guard_eq_some_iff.mp hf).1
    have htaint : x.2 = y.2 :=
      congrArg Contender.tainted (Option.guard_eq_some_iff.mp hg).1
    refine ⟨T', ?_, by rw [hrow], by rw [htaint]⟩
    rw [hrow]
    exact htakes.mono hbelow.nextValue

theorem key_of_open {first : MatrixRow} {lit : LiteralTest} {tys : List Ty}
    (hspace : space (spaceOf L.module) occ.ty = .openEnded)
    (htyped : RowTyped (spaceOf L.module) literalDomain (occ.ty :: tys) (L.resolveRow first))
    (hc : L.classify first.head = .literal lit) : ∃ key, lit.key = some key ∧ fits key occ.ty := by
  have hhead := RowTyped.head htyped
  rw [hc, Lowering.resolveClass] at hhead
  cases lit with
  | bool b =>
    cases hhead with
    | bool hb => simp [hspace] at hb
  | _ =>
    cases hhead with
    | literal _ hmem => exact ⟨_, rfl, literal_mem_inhabits.mp hmem⟩

/-- The step at a column that is tested for literals. -/
theorem follows_chain {n : ℕ} (hnext : Follows m fpu L arm sink (L.decideOn n) next)
    (hgrows : GrowsFrom next) (hspace : space (spaceOf L.module) occ.ty = .openEnded)
    (hvariant : (L.variantOf pos.ty).isSome = false) (hbool : pos.ty ≠ .bool)
    (hformed : fb.Formed) (hs : fb.Stands code)
    (hoccs : ∀ o ∈ occ :: rest, o.value.index < fb.nextValue)
    (hrun : (lowerLiteralChain L next occ rest (rs.map Prod.fst)).run fb = .ok (⟨⟩, fb'))
    (hwithin : fb'.Within ctx.function)
    (htyped : RowsTyped L literalDomain (rs.map Prod.fst) (occ.ty :: rest.map (·.ty)))
    (hvalue : Standing L ctx s occ pos)
    (hstanding : List.Forall₂ (Standing L ctx s) rest positions)
    (hcont : fb.Continues ctx.function is t) :
    ∃ w, L.decideOn (n + 1) (rs.map contend) (pos :: positions) = some w ∧
      Nonempty (Arrival m fpu L arm sink fb ⟨ctx, s, is, t⟩ rs (occ :: rest) (pos :: positions) w) := by
  have hrest : ∀ o ∈ rest, o.value.index < fb.nextValue := fun o ho => hoccs o (by simp [ho])
  rcases lowerLiteralChain_inv hrun with ⟨first, hfirst, hc, hrun⟩ |
    ⟨first, lit, mid, hfirst, hc, hthen, helse⟩
  · -- the first row takes the column, so no other row is kept beside it
    obtain ⟨tail, hrows⟩ := List.head?_eq_some_iff.mp hfirst
    cases rs with
    | nil => cases hrows
    | cons x rs =>
      obtain rfl : x.1 = first := (List.cons.inj hrows).1
      have htyped' : RowsTyped L literalDomain ([x].map Prod.fst) (occ.ty :: rest.map (·.ty)) := by
        intro r hr
        obtain rfl := List.mem_singleton.mp hr
        exact htyped x.1 (by simp)
      have huntested : ¬ Tested (([x].map Prod.fst).map L.resolveRow) := by
        rintro ⟨r, hr, hne⟩
        obtain rfl := List.mem_singleton.mp hr
        rw [resolveRow_cons (RowTyped.patterns_ne_nil (htyped x.1 (by simp)))] at hne
        rcases hc with hc | ⟨binding, hc⟩ <;> simp [hc, Lowering.resolveClass] at hne
      obtain ⟨w, hdecide, ⟨A⟩⟩ := follows_untested [x] pos hnext hformed hs hrest hrun hwithin
        htyped' huntested hstanding hcont
      refine ⟨w, ?_, ⟨{ A with mem := ?_ }⟩⟩
      · have hpass : L.passOver pos (contend x) = some ((contend x).take pos []) := by
          rcases hc with hc | ⟨binding, hc⟩ <;> simp [Lowering.passOver, contend_head, hc]
        rw [List.map_cons, List.map_nil, List.filterMap_cons_some hpass, List.filterMap_nil]
          at hdecide
        rw [Lowering.decideOn, if_neg (by simp [hvariant])]
        rcases hc with hc | ⟨binding, hc⟩ <;> simp [contend_head, hc, hdecide]
      · obtain hmem := List.mem_singleton.mp A.mem
        simp [hmem]
  · have hmem : first ∈ rs.map Prod.fst := List.mem_of_mem_head? hfirst
    obtain ⟨key, hkey, hfits⟩ := key_of_open hspace (htyped first hmem) hc
    have hemits := FnBuilder.emits_compared hs occ lit
    have hstands := hemits.stands hs
    have hcomparedFormed : (fb.compared occ lit).Formed := (hformed.define _ _).define _ _
    have hle := hemits.grows.nextValue
    obtain ⟨⟨hall, -⟩, -⟩ := fork_grows (hgrows _ _ _ hrest) (hgrows _ _ _ hoccs) hcomparedFormed
      hstands hle hthen helse
    obtain ⟨is', rfl, hcont'⟩ := hcont.emits hemits
      (FnBuilder.Within.of_below hall.toBelow hwithin)
    obtain ⟨s', hleads, hagrees, hanswer⟩ := leads_compared (m := m) (t := t) fpu is'
      hkey hfits hvalue (hoccs occ (by simp))
    obtain ⟨u, u', is₁, t₁, hbelow, huformed, hustands, hurun, huwithin, hucont, hjump⟩ :=
      enters_fork (m := m) fpu (hgrows _ _ _ hrest) (hgrows _ _ _ hoccs) hcomparedFormed
        hstands hle hthen helse hwithin hcont' hanswer
    have hbelow' := hemits.grows.toBelow.trans hbelow
    have hdecide : L.decideOn (n + 1) (rs.map contend) (pos :: positions) =
        if lit.resolved.accepts pos.value then
          L.decideOn n ((rs.map contend).filterMap (L.holdsLiteral lit pos)) positions
        else L.decideOn n ((rs.map contend).filter fun c => !(L.classify c.head).isLiteral lit)
          (pos :: positions) := by
      cases rs with
      | nil => cases hfirst
      | cons x rs =>
        obtain rfl : x.1 = first := by simpa using hfirst
        rw [Lowering.decideOn, if_neg (by simp [hvariant])]
        simp [contend_head, hc]
    rw [hdecide]
    have hne : ∀ x ∈ rs, x.1.patterns ≠ [] := fun x hx =>
      RowTyped.patterns_ne_nil (htyped x.1 (List.mem_map_of_mem hx))
    cases hanswer' : lit.resolved.accepts pos.value with
    | true =>
      rw [hanswer', if_pos rfl] at hurun
      exact follows_literal hnext huformed hustands
        (fun o ho => (hrest o ho).trans_le hbelow'.nextValue) hurun huwithin hne
        (.of_resolve (resolve_keepLiteral occ hkey htyped) (rowTyped_specializeLiteral htyped.map))
        (standing_of_agrees hagrees hrest hstanding) hucont hbelow' (hleads.trans hjump) hagrees
    | false =>
      rw [hanswer', if_neg (by simp)] at hurun
      exact follows_others hnext huformed hustands
        (fun o ho => (hoccs o ho).trans_le hbelow'.nextValue) hurun huwithin htyped
        (standing_of_agrees hagrees hoccs (.cons hvalue hstanding)) hucont hbelow'
        (hleads.trans hjump) hagrees

theorem unpacks_payload {values : Values} {sources : AList (fun _ : ValueId => PayloadSource)}
    {item : ItemId} {case N : ℕ} {payload : List Value}
    (hlen : (L.payloadTypes pos.ty case).length = payload.length)
    (hvalues : ∀ k < (L.payloadTypes pos.ty case).length,
      values.lookup ⟨N + k⟩ = payload[k]?)
    (hsources : ∀ k < (L.payloadTypes pos.ty case).length,
      sources.lookup ⟨N + k⟩ = some ⟨occ.value, item, case, k⟩) :
    Unpacks values sources N (N + (L.payloadTypes pos.ty case).length) occ.value item case
      (L.payloadPositions pos.ty case payload) (payloadOccs N (L.payloadTypes pos.ty case)) := by
  have hget : ∀ {i : ℕ} {o : Occurrence},
      (payloadOccs N (L.payloadTypes pos.ty case))[i]? = some o →
      ∃ hi : i < (L.payloadTypes pos.ty case).length,
        o = ⟨⟨N + i⟩, (L.payloadTypes pos.ty case)[i]⟩ := by
    intro i o ho
    rw [getElem?_payloadOccs] at ho
    obtain ⟨ty, hty, rfl⟩ := Option.map_eq_some_iff.mp ho
    obtain ⟨hi, rfl⟩ := List.getElem?_eq_some_iff.mp hty
    exact ⟨hi, rfl⟩
  refine ⟨Nat.le_add_right _ _, ?_, fun o ho => ?_, fun {i o} ho => ?_, ?_⟩
  · rw [List.forall₂_iff_get]
    refine ⟨by simp [Lowering.payloadPositions, hlen], fun i h₁ h₂ => ?_⟩
    obtain ⟨hi, hocc⟩ := hget (List.getElem?_eq_getElem h₁)
    have hip : i < payload.length := by omega
    rw [List.get_eq_getElem, hocc]
    simp only [Lowering.payloadPositions, List.get_eq_getElem, List.getElem_mapIdx,
      List.getElem?_eq_getElem hi, Option.getD_some, true_and]
    rw [hvalues i hi, List.getElem?_eq_getElem hip]
  · obtain ⟨i, hi⟩ := List.mem_iff_getElem?.mp ho
    obtain ⟨hlt, rfl⟩ := hget hi
    exact ⟨Nat.le_add_right _ _, Nat.add_lt_add_left hlt _⟩
  · obtain ⟨hi, rfl⟩ := hget ho
    exact hsources i hi
  · rw [List.nodup_iff_injective_getElem]
    intro i j hij
    have hi := hget (List.getElem?_eq_getElem (by simpa using i.2))
    have hj := hget (List.getElem?_eq_getElem (by simpa using j.2))
    simp only [List.getElem_map] at hij
    rw [hi.choose_spec, hj.choose_spec] at hij
    have heq : N + i.1 = N + j.1 := congrArg ValueId.index hij
    exact Fin.ext (by omega)

theorem Unpacks.standing {sources : AList (fun _ : ValueId => PayloadSource)} {N N' case : ℕ}
    {base : ValueId} {item : ItemId} {within : List Position} {inside : List Occurrence}
    (h : Unpacks s.values sources N N' base item case within inside)
    (hruns : ∀ p ∈ within, L.RunsAs s.resources ctx.subst p.value p.ty) :
    List.Forall₂ (Standing L ctx s) inside within := by
  have hstands := h.stands
  clear h
  induction hstands with
  | nil => exact .nil
  | cons hone _ ih =>
    exact .cons ⟨hone.1, hone.2, hruns _ (by simp)⟩ (ih fun p hp => hruns p (by simp [hp]))

theorem follows_case {item : ItemId} {args typeArgs : List Ty} {case : ℕ} {payload : List Value}
    {layout : VariantLayout} {caseLayout : CaseLayout} {cases : List (List Ty)}
    (hnext : Follows m fpu L arm sink decide next) (hgrows : GrowsFrom next)
    (hspace : space (spaceOf L.module) occ.ty = .variant item cases)
    (hdecl : declarationOf occ.ty = some (item, args))
    (hfind : L.module.findVariant item = some layout)
    (hcase : layout.cases[case]? = some caseLayout)
    (hcases : cases[case]? = some (caseLayout.payload.map fun ty =>
      substitute ty (substAt layout args)))
    (hformed : fb₁.Formed) (hs : fb₁.Stands code)
    (hoccs : ∀ o ∈ occ :: rest, o.value.index < fb₁.nextValue)
    (hrun : (lowerCase L next occ rest (rs.map Prod.fst) item (substAt layout args) case
      caseLayout).run fb₁ = .ok (⟨⟩, fb'))
    (hwithin : fb'.Within ctx.function)
    (htyped : RowsTyped L literalDomain (rs.map Prod.fst) (occ.ty :: rest.map (·.ty)))
    (hvalue : Standing L ctx s occ pos) (hv : pos.value = .variant item typeArgs case payload)
    (hlen : payload.length = caseLayout.payload.length)
    (hstanding : List.Forall₂ (Standing L ctx s) rest positions)
    (hcont : fb₁.Continues ctx.function is₁ t₁) (hbelow : fb.Below fb₁)
    (hleads : Leads m fpu ⟨ctx, s, is, t⟩ ⟨ctx, s, is₁, t₁⟩) :
    ∃ w, decide ((rs.map contend).filterMap (L.holdsCase item case payload.length pos))
        (L.payloadPositions pos.ty case payload ++ positions) = some w ∧
      Nonempty (Arrival m fpu L arm sink fb ⟨ctx, s, is, t⟩ rs (occ :: rest) (pos :: positions) w) := by
  have htypes : L.payloadTypes pos.ty case = caseLayout.payload.map fun ty =>
      substitute ty (substAt layout args) := by
    rw [← hvalue.ty]
    exact payloadTypes_eq hdecl hfind hcase
  have htypesLen : (L.payloadTypes pos.ty case).length = payload.length := by
    rw [htypes, List.length_map, hlen]
  have hruns := hvalue.runs
  have hvariant : (L.variantOf pos.ty).isSome := by
    rw [← hvalue.ty, Lowering.variantOf, hdecl, Option.bind_some, hfind]
    rfl
  rw [hv] at hruns
  have hparts := hruns.payload hvariant
  obtain ⟨kept, occs', mid, hkept, hextract, hrun'⟩ := lowerCase_inv hrun
  rw [← htypes] at hextract
  rw [← hlen] at hkept
  have hocc : occ.value.index < fb₁.nextValue := hoccs occ (by simp)
  have hrest : ∀ o ∈ rest, o.value.index < fb₁.nextValue := fun o ho => hoccs o (by simp [ho])
  obtain ⟨mid', hextract', hemits, hformed', hnextValue, hsources⟩ := run_extract item case
    hformed hs hocc (L.payloadTypes pos.ty case) 0
  obtain ⟨rfl, rfl⟩ : occs' = payloadOccs fb₁.nextValue (L.payloadTypes pos.ty case) ∧
      mid = mid' := by
    have heq := hextract.symm.trans hextract'
    cases heq
    exact ⟨rfl, rfl⟩
  have hbound : ∀ o ∈ payloadOccs fb₁.nextValue (L.payloadTypes pos.ty case) ++ rest,
      o.value.index < mid.nextValue := by
    intro o ho
    rw [hnextValue]
    rcases List.mem_append.mp ho with ho | ho
    · exact payloadOccs_lt ho
    · have hlt := hrest o ho
      omega
  obtain ⟨hgrown, -⟩ := hgrows _ _ mid.nextValue hbound hformed' (hemits.stands hs) le_rfl hrun'
  obtain ⟨is₂, rfl, hcont'⟩ := hcont.emits hemits
    (FnBuilder.Within.of_below hgrown.toBelow hwithin)
  obtain ⟨s', hread, hagrees, hvalues⟩ := leads_payload (m := m) (t := t₁) (i := 0)
    fpu ctx is₂ (L.payloadTypes pos.ty case) (hvalue.value.trans (by rw [hv])) hocc
    (by
      intro k ty hty
      have hk : k < payload.length := by
        rw [← htypesLen]
        exact (List.getElem?_eq_some_iff.mp hty).choose
      refine ⟨payload[k], by simp, ?_⟩
      have hpart := hparts ⟨((L.payloadTypes pos.ty case)[k]?).getD .unit, payload[k], true⟩
        (List.mem_mapIdx.mpr ⟨k, hk, rfl⟩)
      simp only [hty, Option.getD_some] at hpart
      exact hpart.fits)
  simp only [Nat.zero_add] at hvalues hsources
  obtain ⟨hreduce, hkeptOk⟩ := reduceOption_keepCase hkept
  obtain ⟨kept', hkept', hres⟩ := resolve_keepCase occ hspace hcases htyped
  rw [← htypes, htypesLen] at hkept' hres
  rw [hkept] at hkept'
  cases hkept'
  have htyped' := rowTyped_specializeVariant hspace hcases htyped.map
  rw [← htypes, htypesLen, ← hres] at htyped'
  rw [hreduce] at hrun' htyped'
  have hstate : s'.resources = s.resources := hagrees.resources
  have hunpacks : ∀ {values : Values} {sources : AList (fun _ : ValueId => PayloadSource)},
      (∀ {id : ValueId}, id.index < mid.nextValue → values.lookup id = s'.values.lookup id) →
      (∀ {id : ValueId}, id.index < mid.nextValue →
        sources.lookup id = mid.payloadSources.lookup id) →
      Unpacks values sources fb₁.nextValue mid.nextValue occ.value item case
        (L.payloadPositions pos.ty case payload)
        (payloadOccs fb₁.nextValue (L.payloadTypes pos.ty case)) := by
    intro values sources hvals hsrcs
    rw [hnextValue]
    refine unpacks_payload htypesLen (fun k hk => ?_) fun k hk => ?_
    · rw [← hvalues k hk]
      exact hvals (by rw [hnextValue]; exact Nat.add_lt_add_left hk _)
    · rw [← hsources k hk]
      exact hsrcs (by rw [hnextValue]; exact Nat.add_lt_add_left hk _)
  refine follows_step hnext (fun x hx => ?_) (fun hvals hsrcs x hx y T' hf hg htakes => ?_)
    hformed' (hemits.stands hs) hbound hrun' hwithin ?_ ?_ hcont'
    (hbelow.trans hemits.grows.toBelow) (hleads.trans hread)
    ((Agrees.refl _ s).trans hagrees hbelow.nextValue)
  · obtain ⟨o, ho⟩ := hkeptOk x.1 (List.mem_map_of_mem hx)
    exact agree_keepCase ho
  · obtain ⟨o, ho⟩ := hkeptOk x.1 (List.mem_map_of_mem hx)
    exact before_keepCase (RowTyped.patterns_ne_nil (htyped x.1 (List.mem_map_of_mem hx))) hvariant hv
      ((hunpacks hvals hsrcs).mono hbelow.nextValue) ho hf hg htakes
  · rw [List.map_append, map_ty_payloadOccs]
    exact .of_resolve rfl htyped'
  · refine List.rel_append ((hunpacks (fun _ => rfl) fun _ => rfl).standing ?_)
      (standing_of_agrees hagrees hrest hstanding)
    rw [hstate]
    exact hparts

theorem mem_switchCases {layout : VariantLayout} {case : ℕ} {caseLayout : CaseLayout}
    (h : layout.cases[case]? = some caseLayout) :
    ((caseLayout, case), (⟨fb.blocks.length + case⟩ : BlockId)) ∈ switchCases fb layout := by
  have hlt : case < layout.cases.length := (List.getElem?_eq_some_iff.mp h).choose
  refine List.mem_iff_getElem?.mpr ⟨case, ?_⟩
  rw [switchCases, List.getElem?_zip_eq_some]
  exact ⟨by simp [h], by simp [List.getElem?_range' hlt]⟩

/-- The step at a column of a variant. -/
theorem follows_variant {n : ℕ} {item : ItemId} {cases : List (List Ty)}
    (hnext : Follows m fpu L arm sink (L.decideOn n) next) (hgrows : GrowsFrom next)
    (hspace : space (spaceOf L.module) occ.ty = .variant item cases)
    (hformed : fb.Formed) (hs : fb.Stands code)
    (hoccs : ∀ o ∈ occ :: rest, o.value.index < fb.nextValue)
    (hrun : (lowerVariantSwitch L next occ rest (rs.map Prod.fst)).run fb = .ok (⟨⟩, fb'))
    (hwithin : fb'.Within ctx.function)
    (htyped : RowsTyped L literalDomain (rs.map Prod.fst) (occ.ty :: rest.map (·.ty)))
    (hvalue : Standing L ctx s occ pos)
    (hstanding : List.Forall₂ (Standing L ctx s) rest positions)
    (hcont : fb.Continues ctx.function is t) :
    ∃ w, L.decideOn (n + 1) (rs.map contend) (pos :: positions) = some w ∧
      Nonempty (Arrival m fpu L arm sink fb ⟨ctx, s, is, t⟩ rs (occ :: rest) (pos :: positions) w) := by
  have hrest : ∀ o ∈ rest, o.value.index < fb.nextValue := fun o ho => hoccs o (by simp [ho])
  obtain ⟨args, layout, hty, hfind, hcases⟩ := space_variant hspace
  have hdecl : declarationOf occ.ty = some (item, args) := by
    rcases hty with ⟨hty, rfl⟩ | hty <;> rw [hty] <;> rfl
  have hlayout : L.variantOf pos.ty = some layout := by
    rw [← hvalue.ty, Lowering.variantOf, hdecl, Option.bind_some, hfind]
  obtain ⟨item', args', typeArgs, case, payload, caseLayout, hv, hdecl', -, hcase, hlen, -⟩ :=
    hvalue.runs.shell_inv hlayout
  obtain ⟨rfl, rfl⟩ : item' = item ∧ args' = args := by
    rw [← hvalue.ty, hdecl] at hdecl'
    cases hdecl'
    exact ⟨rfl, rfl⟩
  have hany : ((rs.map contend).any fun c => (L.classify c.head).isCase) =
      (rs.map Prod.fst).any fun r => (L.classify r.head).isCase := by
    simp [List.any_map, Function.comp_def, contend_head]
  rw [Lowering.decideOn, if_pos (by simp [hlayout]), hany]
  rcases lowerVariantSwitch_inv hdecl hfind hrun with ⟨hnot, hrun⟩ | ⟨hyes, hrun⟩
  · rw [hnot, if_neg (by simp)]
    refine follows_untested _ _ hnext hformed hs hrest hrun hwithin htyped (fun hT => ?_) hstanding hcont
    have hcontra := (tested_case hspace htyped).mpr hT
    simp [hnot] at hcontra
  · rw [hyes, if_pos rfl, hv]
    have hfork := FnBuilder.grows_forkMany hs occ.value item' layout.cases.length
    have hnodup : ((switchCases fb layout).map (·.2.index)).Nodup := by
      rw [switchCases_index]
      exact List.nodup_range'
    obtain ⟨hbelow, -, -, hall⟩ := forM_blocks (N := fb.nextValue) (l := switchCases fb layout)
      (fun p : CaseLayout × ℕ =>
        lowerCase L next occ rest (rs.map Prod.fst) item' (substAt layout args') p.2 p.1)
      (fb.forkMany occ.value item' layout.cases.length) (fun x _ => lowerCase_grows hgrows hoccs) (hformed.forkMany _ _ _) hfork.nextValue
      (switchCases_empty hs layout _ _) hnodup hrun
    have hforkWithin : (fb.forkMany occ.value item' layout.cases.length).Within ctx.function :=
      FnBuilder.Within.of_below hbelow hwithin
    obtain ⟨rfl, rfl⟩ := hcont.closed
      (fun h => FnBuilder.block_forkMany h occ.value item' layout.cases.length) hforkWithin
    obtain ⟨u, u', hu, huformed, hublock, hurun, hu'⟩ := hall _ (mem_switchCases hcase)
    have hustands : (u.movedTo ⟨fb.blocks.length + case⟩).Stands [] :=
      FnBuilder.stands_movedTo hublock
    have hule : fb.nextValue ≤ u.nextValue := hfork.nextValue.trans hu.nextValue
    obtain ⟨hugrows, -⟩ := lowerCase_grows hgrows hoccs (huformed.movedTo _) hustands hule hurun
    have hu'within : u'.Within ctx.function := FnBuilder.Within.of_below hu' hwithin
    obtain ⟨block, hblock, hcont'⟩ := Within.enters
      (FnBuilder.Within.of_below hugrows.toBelow hu'within) hustands
    have htarget : ((List.range' fb.blocks.length layout.cases.length).map BlockId.mk)[case]? =
        some ⟨fb.blocks.length + case⟩ := by
      have hlt : case < layout.cases.length := (List.getElem?_eq_some_iff.mp hcase).choose
      simp [List.getElem?_range' hlt]
    have hjump : execTerminator m (callFunction m fpu 0) ctx (.switch occ.value item'
        ((List.range' fb.blocks.length layout.cases.length).map BlockId.mk)) s =
          .ok (.goto ⟨fb.blocks.length + case⟩) s :=
      execTerminator_switch (hvalue.value.trans (by rw [hv])) htarget
    have hstart := hfork.toBelow.trans hu
    have hcases' : cases[case]? = some (caseLayout.payload.map fun ty =>
        substitute ty (substAt layout args')) := by
      rw [hcases, List.getElem?_map, hcase]
      rfl
    exact follows_case hnext hgrows hspace hdecl hfind hcase hcases' (huformed.movedTo _) hustands
      (fun o ho => (hoccs o ho).trans_le hule) hurun hu'within htyped hvalue hv hlen hstanding hcont'
      ⟨hstart.nextValue, hstart.block, hstart.sources⟩ (leads_jump hjump hblock)

end

/-- The code of a decision arrives where the decision does, by induction on the depth. -/
theorem lowerDecision_follows (m : Module) (fpu : FloatUnit) (L : Lowering) (arm : ArmLowering)
    (sink : ArmSink) (n : ℕ) :
    Follows m fpu L arm sink (L.decideOn n) (lowerDecision L arm.lower sink n) := by
  induction n with
  | zero =>
    intro rows occs fb fb' code is t ctx s rs positions hformed hs hoccs hrun
    cases hrun
  | succ n ih =>
    intro rows occs fb fb' code is t ctx s rs positions hformed hs hoccs hrun hwithin hrs htyped
      hstanding hcont
    subst hrs
    have hgrows := lowerDecision_grows L arm sink n
    cases hstanding with
    | nil =>
      cases rs with
      | nil => cases hrun
      | cons x rs =>
        have hpatterns : x.1.patterns = [] := by
          have hlen := (htyped x.1 (by simp)).length_eq
          rw [Lowering.resolveRow, List.length_map] at hlen
          exact List.length_eq_zero_iff.mp hlen
        have hfinish : x.1.finish {} = x.1 := by
          cases x with
          | mk row tainted =>
            cases row
            simp_all [MatrixRow.finish]
        refine ⟨contend x, rfl, ⟨⟨x, {}, fb, fb', s, is, t, by simp, ?_, rfl,
          by simp [contend, Take.tainted], .refl fb, hformed, ?_, hwithin, hcont, .refl _, .refl _ _⟩⟩⟩
        · rw [hpatterns]
          exact .done
        · rw [hfinish]
          exact hrun
    | @cons occ pos rest positions hvalue hstanding =>
      rw [lowerDecision_cons] at hrun
      by_cases hvariant : ∃ item cases, space (spaceOf L.module) occ.ty = .variant item cases
      · rw [if_pos ((isSome_declaration_iff occ.ty).mpr hvariant)] at hrun
        obtain ⟨item, cases, hspace⟩ := hvariant
        exact follows_variant ih hgrows hspace hformed hs hoccs hrun hwithin htyped hvalue hstanding
          hcont
      · rw [if_neg (fun h => hvariant ((isSome_declaration_iff occ.ty).mp h))] at hrun
        have hvariantOf : (L.variantOf pos.ty).isSome = false := by
          rw [← hvalue.ty, ← Bool.not_eq_true]
          exact fun h => hvariant ((isSome_declaration_iff occ.ty).mp h)
        split at hrun
        · rename_i hbool
          have hposBool : pos.ty = .bool := hvalue.ty.symm.trans hbool
          have hruns := hvalue.runs
          rw [hposBool] at hruns
          obtain ⟨b, hb⟩ := hruns.bool
          obtain ⟨w, hdecide, harrival⟩ := follows_bool (b := b) ih hgrows (by rw [hbool]; rfl)
            hformed hs hoccs hrun hwithin htyped hvalue hb hstanding hcont
          refine ⟨w, ?_, harrival⟩
          rw [Lowering.decideOn, if_neg (by simp [hvariantOf]), hposBool]
          simp only [hb]
          exact hdecide
        · rename_i hne
          exact follows_chain ih hgrows (space_openEnded hvariant hne) hvariantOf
            (fun h => hne (hvalue.ty.trans h)) hformed hs hoccs hrun hwithin htyped hvalue hstanding
            hcont

end

end Napitia.Lower
