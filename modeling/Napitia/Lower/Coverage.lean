import Napitia.Lib.Verdict
import Napitia.Lower.Matrix

/-!
# When a decision tree can be built

The construction of a decision tree looks at nothing but the matrix of the arms:
whether it succeeds is settled by the matrices it comes to, one column or one
literal at a time. It gives up when one of them has no row left, and when it has
taken more steps than the depth limit allows.

At an open column a row that starts with a wildcard keeps no other row beside
it, so an arm the analysis counts on for the remaining columns is lost unless
the row itself is irrefutable from there on.
-/
namespace Napitia.Lower
open Nir Typeck StateT

/-- What a literal may be tested against. -/
def fits : LiteralKey → Ty → Prop
  | .int value, ty => ((Numeric.domainOf ty).bind (·.literal value false)).isSome
  | .str _, ty => ty = .str
  | .char _, ty => ty = .char

/-- Open values: the literals of the type, and values no pattern can name. -/
def literalDomain : OpenDomain where
  Carrier := LiteralKey ⊕ ℕ
  literal := .inl
  literal_injective := Sum.inl_injective
  inhabits := fun ty => {x | ∀ key, x = .inl key → fits key ty}
  infinite := fun ty =>
    (Set.infinite_range_of_injective Sum.inr_injective).mono (by rintro _ ⟨n, rfl⟩ key h; cases h)

theorem literal_mem_inhabits {key : LiteralKey} {ty : Ty} :
    literalDomain.literal key ∈ literalDomain.inhabits ty ↔ fits key ty :=
  ⟨fun h => h key rfl, fun h _ hkey => Sum.inl.inj hkey ▸ h⟩

/-- What is left to decide: the rows in source order, the types of the positions
still pending, and the types of those that were passed without a test. -/
structure Pending where
  passed : List Ty := []
  rows : List Row
  tys : List Ty

/-- One step of a decision, by the specializations of the analysis. -/
inductive Splits (variants : VariantSpace) : Pending → Pending → Prop
  | untested {passed tys : List Ty} {rows : List Row} {ty : Ty} :
      space variants ty ≠ .openEnded → ¬ Tested rows →
      Splits variants ⟨passed, rows, ty :: tys⟩ ⟨ty :: passed, defaultMatrix rows, tys⟩
  | bool {passed tys : List Ty} {rows : List Row} {ty : Ty} (b : Bool) :
      space variants ty = .bool → Tested rows →
      Splits variants ⟨passed, rows, ty :: tys⟩ ⟨passed, specializeBool rows b, tys⟩
  | case {passed tys : List Ty} {rows : List Row} {ty : Ty} {item : ItemId}
      {cases : List (List Ty)} {case : ℕ} {payload : List Ty} :
      space variants ty = .variant item cases → Tested rows → cases[case]? = some payload →
      Splits variants ⟨passed, rows, ty :: tys⟩
        ⟨passed, specializeVariant rows item case payload.length, payload ++ tys⟩
  | literal {passed tys : List Ty} {rows : List Row} {ty : Ty} {key : LiteralKey} {row : Row} :
      space variants ty = .openEnded → rows.head? = some (.literal key :: row) →
      Splits variants ⟨passed, rows, ty :: tys⟩ ⟨passed, specializeLiteral rows key, tys⟩
  | other {passed tys : List Ty} {rows : List Row} {ty : Ty} {key : LiteralKey} {row : Row} :
      space variants ty = .openEnded → rows.head? = some (.literal key :: row) →
      Splits variants ⟨passed, rows, ty :: tys⟩ ⟨passed, others key rows, ty :: tys⟩
  | catchAll {passed tys : List Ty} {rows : List Row} {ty : Ty} {row : Row} :
      space variants ty = .openEnded → rows.head? = some (.wildcard :: row) →
      Splits variants ⟨passed, rows, ty :: tys⟩ ⟨passed, [row], tys⟩

/-- Within the given number of steps the decision is made on every path. -/
def Lowerable (variants : VariantSpace) : ℕ → Pending → Prop
  | 0, _ => False
  | n + 1, s => s.rows ≠ [] ∧ ∀ s', Splits variants s s' → Lowerable variants n s'

theorem Lowerable.rows_ne_nil {variants : VariantSpace} {n : ℕ} {s : Pending}
    (h : Lowerable variants n s) : s.rows ≠ [] := by
  cases n with
  | zero => exact h.elim
  | succ n => exact h.1

/-- The rows of a decision stand at the types of its positions. -/
def Pending.Typed (variants : VariantSpace) (s : Pending) : Prop :=
  ∀ r ∈ s.rows, RowTyped variants literalDomain s.tys r

theorem Splits.typed {variants : VariantSpace} {s s' : Pending} (h : Splits variants s s')
    (htyped : s.Typed variants) : s'.Typed variants := by
  cases h with
  | untested _ _ => exact rowTyped_defaultMatrix htyped
  | bool b _ _ => exact rowTyped_specializeBool htyped
  | case hspace _ hcase => exact rowTyped_specializeVariant hspace hcase htyped
  | literal _ _ => exact rowTyped_specializeLiteral htyped
  | other _ _ => exact fun r hr => htyped r (List.mem_filter.mp hr).1
  | catchAll _ hhead =>
    intro r hr
    obtain rfl := List.mem_singleton.mp hr
    obtain ⟨_, _, heq, -, hrow⟩ := (htyped _ (List.mem_of_mem_head? hhead)).cons_inv
    cases heq
    exact hrow

/-! ### The construction is settled by the matrix -/

section
variable {L : Lowering} {lowerArm : ArmSink → ℕ → Build Unit}

theorem yields_pushInstruction (i : Instruction) : (pushInstruction i).Yields fun _ => True :=
  yields_modify _

theorem yields_pushValue (ty : Ty) (kind : ValueKind) :
    (pushValue ty kind).Yields fun _ => True :=
  fun fb => ⟨⟨fb.nextValue⟩, _, rfl, trivial⟩

theorem yields_newBlock : newBlock.Yields fun _ => True := fun _ => ⟨_, _, rfl, trivial⟩

theorem yields_terminate (t : Terminator) : (terminate t).Yields fun _ => True := yields_modify _

theorem yields_switchTo (id : BlockId) : (switchTo id).Yields fun _ => True := yields_modify _

theorem yields_enterArm (winner : MatrixRow) : (enterArm L winner).Yields fun _ => True := by
  unfold enterArm emitVariantDecomposition
  apply (yields_modify _).bind
  intro _ _
  refine Yields.bind (Q := fun _ => True) (yields_forM ?_ _) ?_
  · intro shell
    exact yields_get.bind fun _ _ => yields_pushInstruction _
  · intro _ _
    apply yields_forM
    intro occ
    split
    · exact yields_pushInstruction _
    · exact yields_pure trivial

theorem yields_literalConst {lit : LiteralTest} {key : LiteralKey} {ty : Ty}
    (hkey : lit.key = some key) (hfits : fits key ty) :
    (literalConst L lit ty).Yields fun _ => True := by
  cases lit with
  | int value =>
    cases hkey
    obtain ⟨v, hv⟩ := Option.isSome_iff_exists.mp hfits
    simp only [literalConst, intLiteral, hv]
    exact yields_pushValue _ _
  | str value => exact yields_pushValue _ _
  | char value => exact yields_pushValue _ _
  | bool value => cases hkey

theorem yields_extractPayload (occ : Occurrence) (item : ItemId) (case : ℕ) (payload : List Ty) :
    (extractPayload occ item case payload).Yields fun occs => occs.map (·.ty) = payload := by
  have hone : ∀ p : Ty × ℕ, (do
      let value ← pushValue p.1 (.variantPayload occ.value item case p.2)
      modify fun fb => { fb with
        payloadSources := fb.payloadSources.insert value ⟨occ.value, item, case, p.2⟩ }
      pure (⟨value, p.1⟩ : Occurrence) : Build Occurrence).Yields fun o => o.ty = p.1 := by
    intro p
    apply (yields_pushValue _ _).bind
    intro value _
    apply (yields_modify _).bind
    intro _ _
    exact yields_pure rfl
  refine (yields_mapM hone payload.zipIdx).mono fun occs hoccs => ?_
  have hmap : payload.zipIdx.map (·.1) = occs.map (·.ty) := by
    rw [← List.forall₂_eq_eq_eq, List.forall₂_map_left_iff, List.forall₂_map_right_iff]
    exact hoccs.imp fun p o h => h.symm
  rw [← hmap]
  simp

/-- How the remaining columns are settled. -/
def SettlesRows (L : Lowering) (next : List MatrixRow → List Occurrence → Build Unit) (n : ℕ) :
    Prop :=
  ∀ rows occs passed, RowsTyped L literalDomain rows (occs.map (·.ty)) →
    (next rows occs).SettledBy
      (Lowerable (spaceOf L.module) n ⟨passed, rows.map L.resolveRow, occs.map (·.ty)⟩)

theorem RowsTyped.of_resolve {rows : List MatrixRow} {tys : List Ty} {matrix : List Row}
    (h : rows.map L.resolveRow = matrix)
    (hmatrix : ∀ r ∈ matrix, RowTyped (spaceOf L.module) literalDomain tys r) :
    RowsTyped L literalDomain rows tys :=
  fun _ hr => hmatrix _ (h ▸ List.mem_map_of_mem hr)

theorem RowsTyped.map {rows : List MatrixRow} {tys : List Ty}
    (h : RowsTyped L literalDomain rows tys) :
    ∀ r ∈ rows.map L.resolveRow, RowTyped (spaceOf L.module) literalDomain tys r := by
  intro r hr
  obtain ⟨r', hr', rfl⟩ := List.mem_map.mp hr
  exact h r' hr'

section
variable {next : List MatrixRow → List Occurrence → Build Unit} {n : ℕ} {passed : List Ty}

theorem settles_untested {occ : Occurrence} {rest : List Occurrence} {rows : List MatrixRow}
    (hnext : SettlesRows L next n) (hclosed : space (spaceOf L.module) occ.ty ≠ .openEnded)
    (hrows : RowsTyped L literalDomain rows (occ.ty :: rest.map (·.ty)))
    (huntested : ¬ Tested (rows.map L.resolveRow)) :
    (next (rows.map (L.untested occ)) rest).SettledBy (Lowerable (spaceOf L.module) (n + 1)
      ⟨passed, rows.map L.resolveRow, occ.ty :: rest.map (·.ty)⟩) := by
  have hres := resolve_untested occ hrows huntested
  have hsettled := hnext (rows.map (L.untested occ)) rest (occ.ty :: passed)
    (.of_resolve hres (rowTyped_defaultMatrix hrows.map))
  rw [hres] at hsettled
  refine hsettled.congr ⟨fun h => ⟨?_, ?_⟩, fun h => h.2 _ (.untested hclosed huntested)⟩
  · intro (hnil : rows.map L.resolveRow = [])
    apply h.rows_ne_nil
    rw [hnil]
    rfl
  · intro s' hs'
    cases hs' with
    | untested _ _ => exact h
    | bool _ _ ht => exact absurd ht huntested
    | case _ ht _ => exact absurd ht huntested
    | literal hopen _ => exact absurd hopen hclosed
    | other hopen _ => exact absurd hopen hclosed
    | catchAll hopen _ => exact absurd hopen hclosed

theorem settles_nonempty {rows : List MatrixRow} (passed : List Ty) (occs : List Occurrence)
    (message : String)
    (hnext : SettlesRows L next n) (hrows : RowsTyped L literalDomain rows (occs.map (·.ty))) :
    (if rows.isEmpty = true then do
        throw (internalError message)
        next rows occs
      else next rows occs : Build Unit).SettledBy
      (Lowerable (spaceOf L.module) n ⟨passed, rows.map L.resolveRow, occs.map (·.ty)⟩) := by
  refine (SettledBy.guarded (hnext rows occs passed hrows)).congr ⟨And.right, fun h => ⟨?_, h⟩⟩
  intro hempty
  apply h.rows_ne_nil
  rw [List.isEmpty_iff.mp hempty]
  rfl

/-- A row of a typed column tests its occurrence exactly when its slot is not a
wildcard for the analysis. -/
theorem tested_iff {rows : List MatrixRow} {ty : Ty} {tys : List Ty} {tests : Classified → Bool}
    (hrows : RowsTyped L literalDomain rows (ty :: tys))
    (htests : ∀ c, Typed (spaceOf L.module) literalDomain (L.resolveClass c) ty →
      (tests c = true ↔ L.resolveClass c ≠ .wildcard)) :
    (rows.any fun r => tests (L.classify r.head)) = true ↔ Tested (rows.map L.resolveRow) := by
  rw [List.any_eq_true]
  constructor
  · rintro ⟨r, hr, htest⟩
    refine ⟨_, List.mem_map_of_mem hr, ?_⟩
    rw [resolveRow_cons (RowTyped.patterns_ne_nil (hrows r hr)), List.head?_cons]
    intro heq
    exact (htests _ (RowTyped.head (hrows r hr))).mp htest (Option.some.inj heq)
  · rintro ⟨_, hmem, hne⟩
    obtain ⟨r, hr, rfl⟩ := List.mem_map.mp hmem
    rw [resolveRow_cons (RowTyped.patterns_ne_nil (hrows r hr)), List.head?_cons] at hne
    exact ⟨r, hr, (htests _ (RowTyped.head (hrows r hr))).mpr fun heq => hne (congrArg some heq)⟩

theorem tested_bool {rows : List MatrixRow} {ty : Ty} {tys : List Ty}
    (hspace : space (spaceOf L.module) ty = .bool)
    (hrows : RowsTyped L literalDomain rows (ty :: tys)) :
    (rows.any fun r => (L.classify r.head).isBool) = true ↔ Tested (rows.map L.resolveRow) := by
  refine tested_iff hrows fun c hc => ?_
  cases c with
  | wildcard => simp [Classified.isBool, Lowering.resolveClass]
  | bind binding => simp [Classified.isBool, Lowering.resolveClass]
  | case item c args =>
    cases hc with
    | «variant» hv _ _ => simp [hspace] at hv
  | literal test =>
    cases test with
    | bool b => simp [Classified.isBool, Lowering.resolveClass, LiteralTest.resolved]
    | _ =>
      cases hc with
      | literal hopen _ => simp [hspace] at hopen

theorem tested_case {rows : List MatrixRow} {ty : Ty} {tys : List Ty} {item : ItemId}
    {cases : List (List Ty)} (hspace : space (spaceOf L.module) ty = .variant item cases)
    (hrows : RowsTyped L literalDomain rows (ty :: tys)) :
    (rows.any fun r => (L.classify r.head).isCase) = true ↔ Tested (rows.map L.resolveRow) := by
  refine tested_iff hrows fun c hc => ?_
  cases c with
  | wildcard => simp [Classified.isCase, Lowering.resolveClass]
  | bind binding => simp [Classified.isCase, Lowering.resolveClass]
  | case item c args => simp [Classified.isCase, Lowering.resolveClass]
  | literal test =>
    cases test with
    | bool b =>
      cases hc with
      | bool hb => simp [hspace] at hb
    | _ =>
      cases hc with
      | literal hopen _ => simp [hspace] at hopen

/-- The step at a column of booleans. -/
theorem settles_bool {occ : Occurrence} {rest : List Occurrence} {rows : List MatrixRow}
    (hnext : SettlesRows L next n) (hspace : space (spaceOf L.module) occ.ty = .bool)
    (hrows : RowsTyped L literalDomain rows (occ.ty :: rest.map (·.ty))) :
    (lowerBoolSwitch L next occ rest rows).SettledBy (Lowerable (spaceOf L.module) (n + 1)
      ⟨passed, rows.map L.resolveRow, occ.ty :: rest.map (·.ty)⟩) := by
  have hclosed : space (spaceOf L.module) occ.ty ≠ .openEnded := by simp [hspace]
  have htest := tested_bool hspace hrows
  unfold lowerBoolSwitch
  by_cases hT : Tested (rows.map L.resolveRow)
  · simp only [htest.mpr hT, Bool.not_true, Bool.false_eq_true, if_false]
    refine .after yields_newBlock fun thenBlock _ => .after yields_newBlock fun elseBlock _ =>
      .after (yields_terminate _) fun _ _ => ?_
    have hbranch : ∀ p : Bool × BlockId, (do
        switchTo p.2
        let newRows := rows.filterMap (L.keepLiteral (.bool p.1) occ)
        if newRows.isEmpty then
          throw (internalError "a match's bool switch left a branch with no covering arm")
        next newRows rest : Build Unit).SettledBy (Lowerable (spaceOf L.module) n
          ⟨passed, specializeBool (rows.map L.resolveRow) p.1, rest.map (·.ty)⟩) := by
      intro p
      have hres := resolve_keepLiteral_bool occ p.1 hrows
      refine .after (yields_switchTo _) fun _ _ => ?_
      rw [← hres]
      exact settles_nonempty passed rest _ hnext (.of_resolve hres (rowTyped_specializeBool hrows.map))
    refine (SettledBy.forM fun p _ => hbranch p).congr ?_
    simp only [List.mem_cons, List.not_mem_nil, or_false, forall_eq_or_imp, forall_eq]
    constructor
    · rintro ⟨htrue, hfalse⟩
      refine ⟨?_, fun s' hs' => ?_⟩
      · obtain ⟨r, hr, -⟩ := hT
        exact List.ne_nil_of_mem hr
      · cases hs' with
        | untested _ hnot => exact absurd hT hnot
        | bool b _ _ => cases b <;> assumption
        | case hv _ _ => simp [hspace] at hv
        | literal hopen _ => exact absurd hopen hclosed
        | other hopen _ => exact absurd hopen hclosed
        | catchAll hopen _ => exact absurd hopen hclosed
    · intro h
      exact ⟨h.2 _ (.bool true hspace hT), h.2 _ (.bool false hspace hT)⟩
  · have hnot : (rows.any fun r => (L.classify r.head).isBool) = false := by
      rw [← Bool.not_eq_true, htest]
      exact hT
    simp only [hnot, Bool.not_false, if_true]
    exact settles_untested hnext hclosed hrows hT

theorem settles_case {occ : Occurrence} {rest : List Occurrence} {rows : List MatrixRow}
    {item : ItemId} {cases : List (List Ty)} {subst : Subst} {case : ℕ} {layout : CaseLayout}
    (hnext : SettlesRows L next n) (hspace : space (spaceOf L.module) occ.ty = .variant item cases)
    (hcase : cases[case]? = some (layout.payload.map fun ty => substitute ty subst))
    (hrows : RowsTyped L literalDomain rows (occ.ty :: rest.map (·.ty))) :
    (lowerCase L next occ rest rows item subst case layout).SettledBy
      (Lowerable (spaceOf L.module) n
        ⟨passed, specializeVariant (rows.map L.resolveRow) item case layout.payload.length,
          (layout.payload.map fun ty => substitute ty subst) ++ rest.map (·.ty)⟩) := by
  obtain ⟨kept, hkept, hres⟩ := resolve_keepCase occ hspace hcase hrows
  have hlift : (liftM (rows.mapM (L.keepCase item case
      (layout.payload.map fun ty => substitute ty subst).length occ)) :
      Build (List (Option MatrixRow))).Yields fun k => k = kept := by
    intro fb
    exact ⟨kept, fb, by rw [hkept]; rfl, rfl⟩
  unfold lowerCase
  refine .after hlift fun k hk => ?_
  subst hk
  have hlen : (layout.payload.map fun ty => substitute ty subst).length = layout.payload.length :=
    List.length_map _
  have htyped : ∀ r ∈ k.reduceOption.map L.resolveRow, RowTyped (spaceOf L.module) literalDomain
      ((layout.payload.map fun ty => substitute ty subst) ++ rest.map (·.ty)) r := by
    rw [hres]
    exact rowTyped_specializeVariant hspace hcase hrows.map
  rw [← hlen, ← hres]
  have hsettle : (do
      let occurrences ← extractPayload occ item case
        (layout.payload.map fun ty => substitute ty subst)
      next k.reduceOption (occurrences ++ rest) : Build Unit).SettledBy
        (Lowerable (spaceOf L.module) n ⟨passed, k.reduceOption.map L.resolveRow,
          (layout.payload.map fun ty => substitute ty subst) ++ rest.map (·.ty)⟩) := by
    refine .after (yields_extractPayload _ _ _ _) fun occs hoccs => ?_
    have htys : (occs ++ rest).map (·.ty) =
        (layout.payload.map fun ty => substitute ty subst) ++ rest.map (·.ty) := by
      rw [List.map_append, hoccs]
    rw [← htys]
    exact hnext _ _ passed (.of_resolve rfl (htys ▸ htyped))
  refine (SettledBy.guarded hsettle).congr ⟨And.right, fun h => ⟨?_, h⟩⟩
  intro hempty
  apply h.rows_ne_nil
  rw [List.isEmpty_iff.mp hempty]
  rfl

/-- The step at a column of a variant. -/
theorem settles_variant {occ : Occurrence} {rest : List Occurrence} {rows : List MatrixRow}
    {item : ItemId} {cases : List (List Ty)} (hnext : SettlesRows L next n)
    (hspace : space (spaceOf L.module) occ.ty = .variant item cases)
    (hrows : RowsTyped L literalDomain rows (occ.ty :: rest.map (·.ty))) :
    (lowerVariantSwitch L next occ rest rows).SettledBy (Lowerable (spaceOf L.module) (n + 1)
      ⟨passed, rows.map L.resolveRow, occ.ty :: rest.map (·.ty)⟩) := by
  have hclosed : space (spaceOf L.module) occ.ty ≠ .openEnded := by simp [hspace]
  have htest := tested_case hspace hrows
  obtain ⟨args, layout, hty, hfind, hcases⟩ := space_variant hspace
  generalize hsubst : (((layout.typeParams.map (·.1)).zip args).foldl
    (fun (s : Subst) p => s.insert p.1 p.2) ∅) = subst at hcases
  have hitem : declarationOf occ.ty = some (item, args) := by
    rcases hty with ⟨hty, rfl⟩ | hty <;> rw [hty] <;> rfl
  unfold lowerVariantSwitch
  simp only [hitem, hfind, Option.map_some, Option.getD_some, hsubst]
  by_cases hT : Tested (rows.map L.resolveRow)
  · simp only [htest.mpr hT, Bool.not_true, Bool.false_eq_true, if_false]
    refine .after (yields_mapM (fun _ => yields_newBlock) _) fun blocks hblocks =>
      .after (yields_terminate _) fun _ _ => ?_
    have hlen := hblocks.length_eq
    refine (SettledBy.forM (P := fun p => Lowerable (spaceOf L.module) n
      ⟨passed, specializeVariant (rows.map L.resolveRow) item p.1.2 p.1.1.payload.length,
        (p.1.1.payload.map fun ty => substitute ty subst) ++ rest.map (·.ty)⟩)
      fun p hp => ?_).congr ?_
    · obtain ⟨⟨c, case⟩, block⟩ := p
      have hmem : (c, case) ∈ layout.cases.zipIdx := (List.of_mem_zip hp).1
      have hcase : cases[case]? = some (c.payload.map fun ty => substitute ty subst) := by
        rw [hcases, List.getElem?_map, List.mem_zipIdx_iff_getElem?.mp hmem]
        rfl
      exact .after (yields_switchTo _) fun _ _ => settles_case hnext hspace hcase hrows
    · constructor
      · intro h
        refine ⟨?_, fun s' hs' => ?_⟩
        · obtain ⟨r, hr, -⟩ := hT
          exact List.ne_nil_of_mem hr
        · cases hs' with
          | untested _ hnot => exact absurd hT hnot
          | bool _ hb _ => simp [hspace] at hb
          | @case _ _ _ _ item' cases' case payload hsp _ hcase =>
            rw [hspace] at hsp
            cases hsp
            rw [hcases, List.getElem?_map, Option.map_eq_some_iff] at hcase
            obtain ⟨c, hc, rfl⟩ := hcase
            have hmem : (c, case) ∈ layout.cases.zipIdx := List.mem_zipIdx_iff_getElem?.mpr hc
            obtain ⟨block, hblock⟩ : ∃ block, ((c, case), block) ∈ layout.cases.zipIdx.zip blocks := by
              obtain ⟨i, hi, hget⟩ := List.mem_iff_getElem.mp hmem
              have hi' : i < blocks.length := by
                rw [← hlen]
                simpa using hi
              refine ⟨blocks[i], List.mem_iff_getElem.mpr ⟨i, by simp at hi ⊢; omega, ?_⟩⟩
              rw [List.getElem_zip, hget]
            have hthis := h _ hblock
            simpa using hthis
          | literal hopen _ => exact absurd hopen hclosed
          | other hopen _ => exact absurd hopen hclosed
          | catchAll hopen _ => exact absurd hopen hclosed
      · intro h p hp
        obtain ⟨⟨c, case⟩, block⟩ := p
        have hmem : (c, case) ∈ layout.cases.zipIdx := (List.of_mem_zip hp).1
        have hcase : cases[case]? = some (c.payload.map fun ty => substitute ty subst) := by
          rw [hcases, List.getElem?_map, List.mem_zipIdx_iff_getElem?.mp hmem]
          rfl
        simpa using h.2 ⟨passed, _, _⟩ (.case hspace hT hcase)
  · have hnot : (rows.any fun r => (L.classify r.head).isCase) = false := by
      rw [← Bool.not_eq_true, htest]
      exact hT
    simp only [hnot, Bool.not_false, if_true]
    exact settles_untested hnext hclosed hrows hT

theorem settles_catchAll {occ : Occurrence} {rest : List Occurrence} {rows : List MatrixRow}
    {first kept : MatrixRow} (hnext : SettlesRows L next n)
    (hspace : space (spaceOf L.module) occ.ty = .openEnded)
    (hrows : RowsTyped L literalDomain rows (occ.ty :: rest.map (·.ty)))
    (hfirst : rows.head? = some first)
    (hhead : L.resolveClass (L.classify first.head) = .wildcard)
    (hkept : L.resolveRow kept = first.patterns.tail.map L.resolveSlot) :
    (next [kept] rest).SettledBy (Lowerable (spaceOf L.module) (n + 1)
      ⟨passed, rows.map L.resolveRow, occ.ty :: rest.map (·.ty)⟩) := by
  have hmem : first ∈ rows := List.mem_of_mem_head? hfirst
  have hrow : L.resolveRow first = .wildcard :: L.resolveRow kept := by
    rw [resolveRow_cons (RowTyped.patterns_ne_nil (hrows first hmem)), hhead, hkept]
  have hhead' : (rows.map L.resolveRow).head? = some (.wildcard :: L.resolveRow kept) := by
    rw [List.head?_map, hfirst, Option.map_some, hrow]
  have htyped : RowsTyped L literalDomain [kept] (rest.map (·.ty)) := by
    intro r hr
    obtain rfl := List.mem_singleton.mp hr
    have h := hrows first hmem
    rw [hrow] at h
    cases h with
    | cons _ htail => exact htail
  refine (hnext [kept] rest passed htyped).congr ⟨fun h => ⟨?_, fun s' hs' => ?_⟩, fun h => ?_⟩
  · simpa using List.ne_nil_of_mem hmem
  · cases hs' with
    | untested hclosed _ => exact absurd hspace hclosed
    | bool _ hb _ => simp [hspace] at hb
    | case hv _ _ => simp [hspace] at hv
    | literal _ hl =>
      rw [hhead'] at hl
      cases hl
    | other _ hl =>
      rw [hhead'] at hl
      cases hl
    | catchAll _ hl =>
      rw [hhead'] at hl
      cases hl
      exact h
  · exact h.2 _ (.catchAll hspace hhead')

/-- The step at a column that is tested for literals. -/
theorem settles_literal {occ : Occurrence} {rest : List Occurrence} {rows : List MatrixRow}
    (hnext : SettlesRows L next n) (hspace : space (spaceOf L.module) occ.ty = .openEnded)
    (hrows : RowsTyped L literalDomain rows (occ.ty :: rest.map (·.ty))) :
    (lowerLiteralChain L next occ rest rows).SettledBy (Lowerable (spaceOf L.module) (n + 1)
      ⟨passed, rows.map L.resolveRow, occ.ty :: rest.map (·.ty)⟩) := by
  unfold lowerLiteralChain
  cases hfirst : rows.head? with
  | none =>
    refine .of_refused ?_ (refused_throw _)
    rintro ⟨hne, -⟩
    simp [List.head?_eq_none_iff.mp hfirst] at hne
  | some first =>
    have hmem : first ∈ rows := List.mem_of_mem_head? hfirst
    have htyped := RowTyped.head (hrows first hmem)
    cases hc : L.classify first.head with
    | wildcard =>
      simp only [hc]
      exact settles_catchAll hnext hspace hrows hfirst (by rw [hc]; rfl) (resolveRow_passed _ _)
    | bind binding =>
      simp only [hc]
      exact settles_catchAll hnext hspace hrows hfirst (by rw [hc]; rfl) (resolveRow_bound _ _ _)
    | case item c args =>
      rw [hc] at htyped
      cases htyped with
      | «variant» hv _ _ => simp [hspace] at hv
    | literal lit =>
      rw [hc, Lowering.resolveClass] at htyped
      obtain ⟨key, hkey, hfits⟩ : ∃ key, lit.key = some key ∧ fits key occ.ty := by
        cases lit with
        | bool b =>
          cases htyped with
          | bool hb => simp [hspace] at hb
        | _ =>
          cases htyped with
          | literal _ hmem => exact ⟨_, rfl, literal_mem_inhabits.mp hmem⟩
      have hhead : (rows.map L.resolveRow).head? =
          some (.literal key :: first.patterns.tail.map L.resolveSlot) := by
        rw [List.head?_map, hfirst, Option.map_some,
          resolveRow_cons (RowTyped.patterns_ne_nil (hrows first hmem)), hc, Lowering.resolveClass,
          LiteralTest.resolved_of_key hkey]
      have hthen := resolve_keepLiteral occ hkey hrows
      have helse := resolve_others hkey hrows
      have hthenSettled := hnext _ rest passed
        (.of_resolve hthen (rowTyped_specializeLiteral hrows.map))
      have helseSettled := settles_nonempty passed (occ :: rest)
        "a match's literal chain ran out of rows without a catch-all" hnext
        (.of_resolve helse fun r hr => hrows.map r (List.mem_filter.mp hr).1)
      rw [hthen] at hthenSettled
      rw [helse] at helseSettled
      simp only [hc]
      refine .after (yields_literalConst hkey hfits) fun const _ =>
        .after (yields_pushValue _ _) fun eq _ => .after yields_newBlock fun thenBlock _ =>
        .after yields_newBlock fun elseBlock _ => .after (yields_terminate _) fun _ _ =>
        .after (yields_switchTo _) fun _ _ => ?_
      refine (hthenSettled.and fun _ => SettledBy.after (yields_switchTo _)
        fun _ _ => helseSettled).congr ⟨?_, fun h => ?_⟩
      · rintro ⟨hA, hB⟩
        refine ⟨by simpa using List.ne_nil_of_mem hmem, fun s' hs' => ?_⟩
        cases hs' with
        | untested hclosed _ => exact absurd hspace hclosed
        | bool _ hb _ => simp [hspace] at hb
        | case hv _ _ => simp [hspace] at hv
        | literal _ hl =>
          rw [hhead] at hl
          cases hl
          exact hA
        | other _ hl =>
          rw [hhead] at hl
          cases hl
          exact hB
        | catchAll _ hl =>
          rw [hhead] at hl
          cases hl
      · exact ⟨h.2 _ (.literal hspace hhead), h.2 _ (.other hspace hhead)⟩

theorem isSome_declaration_iff (ty : Ty) :
    ((declarationOf ty).bind fun p => L.module.findVariant p.1).isSome = true ↔
      ∃ item cases, space (spaceOf L.module) ty = .variant item cases := by
  have hitem : ∀ item args, (L.module.findVariant item).isSome = true ↔
      ∃ item' cases, variantSpace (spaceOf L.module) item args = .variant item' cases := by
    intro item args
    unfold variantSpace
    rw [spaceOf_payloads]
    cases L.module.findVariant item <;> simp
  cases ty with
  | named item => exact hitem item []
  | applied item args => exact hitem item args
  | _ => simp [declarationOf, space]

theorem space_openEnded {ty : Ty}
    (hvariant : ¬ ∃ item cases, space (spaceOf L.module) ty = .variant item cases)
    (hne : ty ≠ .bool) : space (spaceOf L.module) ty = .openEnded := by
  cases hspace : space (spaceOf L.module) ty with
  | openEnded => rfl
  | bool =>
    cases ty <;> simp_all [space, variantSpace]
    all_goals
      split at hspace <;> cases hspace
  | «variant» item cases => exact absurd ⟨item, cases, hspace⟩ hvariant

end

/-- A whole decision, by induction on the depth that is left. -/
theorem lowerDecision_settled {sink : ArmSink} (harm : ∀ i, (lowerArm sink i).Yields fun _ => True)
    (n : ℕ) : SettlesRows L (lowerDecision L lowerArm sink n) n := by
  induction n with
  | zero =>
    intro rows occs passed _
    exact .of_refused id (refused_throw _)
  | succ n ih =>
    intro rows occs passed hrows
    cases occs with
    | nil =>
      simp only [lowerDecision]
      cases hfirst : rows.head? with
      | none =>
        refine .of_refused ?_ (refused_throw _)
        rintro ⟨hne, -⟩
        simp [List.head?_eq_none_iff.mp hfirst] at hne
      | some winner =>
        refine .of_yields ⟨?_, ?_⟩ ((yields_enterArm winner).bind fun _ _ => harm _)
        · simpa using List.ne_nil_of_mem (List.mem_of_mem_head? hfirst)
        · rintro s' ⟨⟩
    | cons occ rest =>
      rw [lowerDecision]
      by_cases hvariant : ∃ item cases, space (spaceOf L.module) occ.ty = .variant item cases
      · rw [if_pos ((isSome_declaration_iff occ.ty).mpr hvariant)]
        obtain ⟨item, cases, hspace⟩ := hvariant
        exact settles_variant ih hspace hrows
      · rw [if_neg (fun h => hvariant ((isSome_declaration_iff occ.ty).mp h))]
        split
        · rename_i hbool
          exact settles_bool ih (by rw [hbool]; rfl) hrows
        · rename_i hne
          exact settles_literal ih (space_openEnded hvariant hne) hrows

end

/-! ### The matrices a decision comes to -/

section
variable {variants : VariantSpace}

/-- The matrices a decision comes to, each with the steps it took. -/
inductive Comes (variants : VariantSpace) (start : Pending) : ℕ → Pending → Prop
  | start : Comes variants start 0 start
  | step {k : ℕ} {s s' : Pending} : Comes variants start k s → Splits variants s s' →
      Comes variants start (k + 1) s'

/-- A pattern every value matches: a wildcard, or the only case of its variant
with such patterns below it. -/
inductive Irrefutable (variants : VariantSpace) : ResolvedPattern → Prop
  | wildcard : Irrefutable variants .wildcard
  | sole {item : ItemId} {payload : List Ty} {case : ℕ} {args : List ResolvedPattern} :
      variants.payloads.lookup item = some [payload] → (∀ p ∈ args, Irrefutable variants p) →
      Irrefutable variants (.variant item case args)

/-- What a matrix must be like, after the given number of steps, for the decision
to go on from it. -/
structure Settles (variants : VariantSpace) (k : ℕ) (s : Pending) : Prop where
  /-- The positions decided and the literals compared stay within the limit. -/
  bounded : k ≤ Limits.maxPatternDepth
  /-- A row that starts with a wildcard at an open column is irrefutable after it. -/
  catchAll : ∀ ty tys row, s.tys = ty :: tys → space variants ty = .openEnded →
    s.rows.head? = some (.wildcard :: row) → ∀ p ∈ row, Irrefutable variants p
  /-- A matrix at a position whose type has no values still has a row. -/
  vacant : (∃ ty ∈ s.passed ++ s.tys, ∀ v, ¬ Inhabits variants literalDomain v ty) → s.rows ≠ []

theorem Comes.typed {start s : Pending} {k : ℕ} (h : Comes variants start k s)
    (htyped : start.Typed variants) : s.Typed variants := by
  induction h with
  | start => exact htyped
  | step _ hsplit ih => exact hsplit.typed ih

theorem Comes.lowerable {start s : Pending} {n k : ℕ} (h : Comes variants start k s)
    (hstart : Lowerable variants n start) : Lowerable variants (n - k) s ∧ k < n := by
  induction h with
  | start =>
    refine ⟨hstart, ?_⟩
    cases n with
    | zero => exact hstart.elim
    | succ n => omega
  | @step k s s' _ hsplit ih =>
    obtain ⟨hs, hk⟩ := ih
    obtain ⟨n', hn'⟩ : ∃ n', n - k = n' + 1 := ⟨n - k - 1, by omega⟩
    rw [hn'] at hs
    have hs' := hs.2 s' hsplit
    refine ⟨by rwa [show n - (k + 1) = n' by omega], ?_⟩
    cases n' with
    | zero => exact hs'.elim
    | succ n' => omega

theorem lowerable_of_comes {start s : Pending} {n k : ℕ} (h : Comes variants start k s)
    (hall : ∀ j s', Comes variants start j s' → s'.rows ≠ [] ∧ j < k + n) :
    Lowerable variants n s := by
  induction n generalizing k s with
  | zero =>
    have := (hall k s h).2
    omega
  | succ n ih =>
    refine ⟨(hall k s h).1, fun s' hsplit => ?_⟩
    apply ih (.step h hsplit)
    intro j s'' hs''
    obtain ⟨hne, hlt⟩ := hall j s'' hs''
    exact ⟨hne, by omega⟩

/-! ### One row on its own -/

theorem space_variant_lookup {ty : Ty} {item : ItemId} {cases : List (List Ty)}
    (h : space variants ty = .variant item cases) :
    ∃ declared, variants.payloads.lookup item = some declared ∧
      declared.length = cases.length := by
  have hitem : ∀ i args, variantSpace variants i args = .variant item cases →
      ∃ declared, variants.payloads.lookup item = some declared ∧
        declared.length = cases.length := by
    intro i args hv
    unfold variantSpace at hv
    cases hlookup : variants.payloads.lookup i with
    | none => simp [hlookup] at hv
    | some declared =>
      simp only [hlookup, Space.variant.injEq] at hv
      obtain ⟨rfl, rfl⟩ := hv
      exact ⟨declared, hlookup, by simp⟩
  cases ty with
  | named i => exact hitem i [] h
  | applied i args => exact hitem i args h
  | _ => simp [space] at h

theorem Lowerable.irrefutable {n : ℕ} {passed tys : List Ty} {row : Row}
    (h : Lowerable variants n ⟨passed, [row], tys⟩)
    (htyped : RowTyped variants literalDomain tys row) : ∀ p ∈ row, Irrefutable variants p := by
  induction n generalizing passed tys row with
  | zero => exact h.elim
  | succ n ih =>
    obtain ⟨-, hsplit⟩ := h
    cases htyped with
    | nil => simp
    | @cons p ty ps tys hp hps =>
      have htested : p ≠ .wildcard → Tested [p :: ps] := fun hne =>
        ⟨p :: ps, by simp, by simpa using hne⟩
      cases hp with
      | wildcard =>
        have hrest : ∀ q ∈ ps, Irrefutable variants q := by
          by_cases hopen : space variants ty = .openEnded
          · exact ih (hsplit _ (.catchAll hopen rfl)) hps
          · have huntested : ¬ Tested [ResolvedPattern.wildcard :: ps] := by
              rintro ⟨r, hr, hne⟩
              obtain rfl := List.mem_singleton.mp hr
              exact hne rfl
            exact ih (hsplit _ (.untested hopen huntested)) hps
        intro q hq
        rcases List.mem_cons.mp hq with rfl | hq
        · exact .wildcard
        · exact hrest q hq
      | @bool b _ hspace =>
        have hnone := hsplit _ (.bool (!b) hspace (htested (by simp)))
        refine absurd ?_ hnone.rows_ne_nil
        simp [specializeBool]
      | @literal key _ hspace _ =>
        have hnone := hsplit _ (.other hspace rfl)
        refine absurd ?_ hnone.rows_ne_nil
        simp [others]
      | @«variant» item cases case payload args _ hspace hcase hargs =>
        have hT := htested (by simp)
        have hsole : cases.length = 1 := by
          obtain ⟨hlt, -⟩ := List.getElem?_eq_some_iff.mp hcase
          by_contra hlen
          obtain ⟨c', hc', hne⟩ : ∃ c', c' < cases.length ∧ c' ≠ case := by
            by_cases h0 : case = 0
            · exact ⟨1, by omega, by omega⟩
            · exact ⟨0, by omega, by omega⟩
          have hnone := hsplit _ (.case hspace hT (List.getElem?_eq_getElem hc'))
          refine absurd ?_ hnone.rows_ne_nil
          simp [specializeVariant, hne.symm]
        obtain ⟨declared, hlookup, hlen⟩ := space_variant_lookup hspace
        obtain ⟨payload', rfl⟩ := List.length_eq_one_iff.mp (hlen.trans hsole)
        have hnext := hsplit _ (.case hspace hT hcase)
        rw [show specializeVariant [ResolvedPattern.variant item case args :: ps] item case
          payload.length = [args ++ ps] by simp [specializeVariant]] at hnext
        have hall := ih hnext (RowTyped.append hargs hps)
        intro q hq
        rcases List.mem_cons.mp hq with rfl | hq
        · exact .sole hlookup fun p' hp' => hall p' (List.mem_append_left _ hp')
        · exact hall q (List.mem_append_right _ hq)

theorem matchesAll_of_forall {row : Row} {tys : List Ty} {vs : List (Datum literalDomain)}
    (htyped : RowTyped variants literalDomain tys row)
    (hvs : List.Forall₂ (Inhabits variants literalDomain) vs tys)
    (hrow : ∀ p ∈ row, ∀ ty v, Typed variants literalDomain p ty →
      Inhabits variants literalDomain v ty → p.Matches v) : MatchesAll row vs := by
  induction htyped generalizing vs with
  | nil =>
    cases hvs
    exact matchesAll_nil
  | cons hp hps ih =>
    cases hvs with
    | cons hv hvs =>
      refine matchesAll_cons.mpr ⟨hrow _ (by simp) _ _ hp hv, ih hvs fun p' hp' => ?_⟩
      exact hrow p' (by simp [hp'])

theorem Irrefutable.matches {p : ResolvedPattern} (h : Irrefutable variants p) {ty : Ty}
    {v : Datum literalDomain} (htyped : Typed variants literalDomain p ty)
    (hv : Inhabits variants literalDomain v ty) : p.Matches v := by
  induction h generalizing ty v with
  | wildcard => exact matches_wildcard v
  | @sole item payload case args hlookup _ ih =>
    cases htyped with
    | @«variant» _ cases _ tys _ _ hspace hcase hargs =>
      obtain ⟨case', tys', xs, hcase', rfl, hxs⟩ := hv.variant_inv hspace
      obtain ⟨declared, hdeclared, hlen⟩ := space_variant_lookup hspace
      rw [hlookup] at hdeclared
      cases hdeclared
      -- both cases index the one case there is
      obtain ⟨hlt, -⟩ := List.getElem?_eq_some_iff.mp hcase
      obtain ⟨hlt', -⟩ := List.getElem?_eq_some_iff.mp hcase'
      simp only [List.length_cons, List.length_nil] at hlen
      obtain rfl : case = case' := by omega
      rw [hcase] at hcase'
      cases hcase'
      refine matches_variant.mpr ⟨rfl, rfl, ?_⟩
      exact matchesAll_of_forall hargs hxs fun p hp ty v hpt hvt => ih p hp hpt hvt

/-! ### What the analysis guarantees along a decision -/

/-- Whether a row starts with the literal. -/
def StartsWith (key : LiteralKey) (row : Row) : Prop := row.head? = some (.literal key)

/-- The rows match all values of their positions but those whose first is one of
the literals already compared, and none of those literals is left. -/
structure Covering (variants : VariantSpace) (compared : List LiteralKey) (s : Pending) :
    Prop where
  gone : ∀ key ∈ compared, ∀ r ∈ s.rows, ¬ StartsWith key r
  covers : ∀ vs : List (Datum literalDomain),
    List.Forall₂ (Inhabits variants literalDomain) vs s.tys →
    (∀ key ∈ compared, vs.head? ≠ some (.atom (literalDomain.literal key))) → Covers s.rows vs

theorem Covering.fresh {s : Pending}
    (h : ∀ vs : List (Datum literalDomain),
      List.Forall₂ (Inhabits variants literalDomain) vs s.tys → Covers s.rows vs) :
    Covering variants [] s := ⟨by simp, fun vs hvs _ => h vs hvs⟩

theorem Splits.covering {compared : List LiteralKey} {k : ℕ} {s s' : Pending}
    (h : Splits variants s s') (htyped : s.Typed variants) (hs : Settles variants k s)
    (hinhabited : ∀ ty ∈ s'.passed, ∃ v, Inhabits variants literalDomain v ty)
    (hcover : Covering variants compared s) : ∃ compared', Covering variants compared' s' := by
  cases h with
  | @untested passed tys rows ty hclosed huntested =>
    refine ⟨[], .fresh fun vs hvs => ?_⟩
    obtain ⟨v, hv⟩ := hinhabited ty (by simp)
    have hatom : ∀ x, v ≠ .atom x := by
      rintro x rfl
      cases hv with
      | atom hopen _ => exact hclosed hopen
    obtain ⟨r, hr, hmatch⟩ := hcover.covers (v :: vs) (.cons hv hvs) fun key _ heq =>
      hatom _ (Option.some.inj heq)
    obtain ⟨p, ps, rfl, -, -⟩ := (htyped r hr).cons_inv
    have hp : p = .wildcard := by
      by_contra hne
      exact huntested ⟨_, hr, by simpa using hne⟩
    subst hp
    exact ⟨ps, List.mem_filterMap.mpr ⟨_, hr, rfl⟩, (matchesAll_cons.mp hmatch).2⟩
  | @bool passed tys rows ty b hspace _ =>
    refine ⟨[], .fresh fun vs hvs => ?_⟩
    rw [covers_specializeBool htyped]
    exact hcover.covers _ (.cons (.bool hspace) hvs) (by simp)
  | @case passed tys rows ty item cases case payload hspace _ hcase =>
    refine ⟨[], .fresh fun vs hvs => ?_⟩
    obtain ⟨xs, ys, rfl, hxs, hys⟩ := forall₂_append_inv hvs
    rw [covers_specializeVariant hspace hcase hxs.length_eq htyped]
    exact hcover.covers _ (.cons (.variant hspace hcase hxs) hys) (by simp)
  | @literal passed tys rows ty key row hspace hhead =>
    refine ⟨[], .fresh fun vs hvs => ?_⟩
    have hmem := List.mem_of_mem_head? hhead
    have hfits : literalDomain.literal key ∈ literalDomain.inhabits ty := by
      obtain ⟨_, _, heq, hp, -⟩ := (htyped _ hmem).cons_inv
      cases heq
      cases hp with
      | literal _ hin => exact hin
    rw [covers_specializeLiteral htyped]
    refine hcover.covers _ (.cons (.atom hspace hfits) hvs) fun key' hkey' heq => ?_
    have hsame : key' = key := by
      simp only [List.head?_cons, Option.some.injEq, Datum.atom.injEq] at heq
      exact (literalDomain.literal_injective heq).symm
    exact hcover.gone key' hkey' _ hmem (by rw [hsame]; rfl)
  | @other passed tys rows ty key row hspace hhead =>
    refine ⟨key :: compared, ⟨?_, fun vs hvs hnot => ?_⟩⟩
    · intro key' hkey' r hr hstart
      obtain ⟨hrow, hkeep⟩ := List.mem_filter.mp hr
      rcases List.mem_cons.mp hkey' with rfl | hkey'
      · obtain ⟨p, ps, rfl, -, -⟩ := (htyped r hrow).cons_inv
        simp only [StartsWith, List.head?_cons, Option.some.injEq] at hstart
        subst hstart
        simp at hkeep
      · exact hcover.gone key' hkey' r hrow hstart
    · obtain ⟨r, hr, hmatch⟩ := hcover.covers vs hvs fun key' hkey' =>
        hnot key' (List.mem_cons_of_mem _ hkey')
      refine ⟨r, List.mem_filter.mpr ⟨hr, ?_⟩, hmatch⟩
      obtain ⟨p, ps, rfl, -, -⟩ := (htyped r hr).cons_inv
      cases hvs with
      | @cons v _ vs _ hv _ =>
        cases p with
        | literal k =>
          simp only [decide_eq_true_eq]
          rintro rfl
          obtain ⟨x, -, rfl⟩ := hv.open_inv hspace
          have hx := (matchesAll_cons.mp hmatch).1
          rw [matches_literal] at hx
          exact hnot k (by simp) (by rw [hx]; rfl)
        | _ => rfl
  | @catchAll passed tys rows ty row hspace hhead =>
    refine ⟨[], .fresh fun vs hvs => ?_⟩
    obtain ⟨_, _, heq, -, hrow⟩ := (htyped _ (List.mem_of_mem_head? hhead)).cons_inv
    cases heq
    have hirr := hs.catchAll ty tys row rfl hspace hhead
    exact ⟨row, by simp, matchesAll_of_forall hrow hvs fun p hp ty v => (hirr p hp).matches⟩

theorem exists_values {tys : List Ty}
    (h : ∀ ty ∈ tys, ∃ v, Inhabits variants literalDomain v ty) :
    ∃ vs : List (Datum literalDomain), List.Forall₂ (Inhabits variants literalDomain) vs tys := by
  induction tys with
  | nil => exact ⟨[], .nil⟩
  | cons ty tys ih =>
    obtain ⟨v, hv⟩ := h ty (by simp)
    obtain ⟨vs, hvs⟩ := ih fun t ht => h t (by simp [ht])
    exact ⟨v :: vs, .cons hv hvs⟩

theorem exists_values_beyond {tys : List Ty} (compared : List LiteralKey)
    (h : ∀ ty ∈ tys, ∃ v, Inhabits variants literalDomain v ty) :
    ∃ vs : List (Datum literalDomain), List.Forall₂ (Inhabits variants literalDomain) vs tys ∧
      ∀ key ∈ compared, vs.head? ≠ some (.atom (literalDomain.literal key)) := by
  cases tys with
  | nil => exact ⟨[], .nil, by simp⟩
  | cons ty tys =>
    have htail : ∀ t ∈ tys, ∃ v, Inhabits variants literalDomain v t :=
      fun t ht => h t (List.mem_cons_of_mem _ ht)
    obtain ⟨vs, hvs⟩ := exists_values htail
    by_cases hopen : space variants ty = .openEnded
    · have hfinite : (literalDomain.literal '' {key | key ∈ compared}).Finite :=
        (List.finite_toSet compared).image _
      obtain ⟨x, hx, hnot⟩ := (literalDomain.infinite ty).exists_notMem_finite hfinite
      refine ⟨.atom x :: vs, .cons (.atom hopen hx) hvs, fun key hkey heq => hnot ⟨key, hkey, ?_⟩⟩
      simp only [List.head?_cons, Option.some.injEq, Datum.atom.injEq] at heq
      exact heq.symm
    · obtain ⟨v, hv⟩ := h ty (by simp)
      refine ⟨v :: vs, .cons hv hvs, fun key _ heq => ?_⟩
      obtain rfl := Option.some.inj heq
      cases hv with
      | atom hspace _ => exact hopen hspace

theorem Splits.passed_subset {s s' : Pending} (h : Splits variants s s') :
    s.passed ⊆ s'.passed := by
  cases h with
  | untested _ _ => exact List.subset_cons_self _ _
  | _ => exact List.Subset.refl _

theorem Comes.covering {start s : Pending} {k : ℕ} (h : Comes variants start k s)
    (htyped : start.Typed variants) (hcover : Covering variants [] start)
    (hsettles : ∀ k s, Comes variants start k s → Settles variants k s)
    (hpassed : ∀ ty ∈ s.passed, ∃ v, Inhabits variants literalDomain v ty) :
    ∃ compared, Covering variants compared s := by
  induction h with
  | start => exact ⟨[], hcover⟩
  | step hcomes hsplit ih =>
    obtain ⟨compared, hs⟩ := ih fun ty hty => hpassed ty (hsplit.passed_subset hty)
    exact hsplit.covering (hcomes.typed htyped) (hsettles _ _ hcomes) hpassed hs

theorem Comes.rows_ne_nil {start s : Pending} {k : ℕ} (h : Comes variants start k s)
    (htyped : start.Typed variants) (hcover : Covering variants [] start)
    (hsettles : ∀ k s, Comes variants start k s → Settles variants k s) : s.rows ≠ [] := by
  by_cases hvacant : ∃ ty ∈ s.passed ++ s.tys, ∀ v, ¬ Inhabits variants literalDomain v ty
  · exact (hsettles k s h).vacant hvacant
  · push Not at hvacant
    obtain ⟨compared, hcovers⟩ := h.covering htyped hcover hsettles fun ty hty =>
      hvacant ty (List.mem_append_left _ hty)
    obtain ⟨vs, hvs, hbeyond⟩ := exists_values_beyond compared fun ty hty =>
      hvacant ty (List.mem_append_right _ hty)
    obtain ⟨r, hr, -⟩ := hcovers.covers vs hvs hbeyond
    exact List.ne_nil_of_mem hr

/-- Under an accepted analysis, the decision can be made within the depth limit
exactly when every matrix it comes to settles. -/
theorem lowerable_iff_settles {start : Pending} (htyped : start.Typed variants)
    (hcover : Covering variants [] start) :
    Lowerable variants (Limits.maxPatternDepth + 1) start ↔
      ∀ k s, Comes variants start k s → Settles variants k s := by
  constructor
  · intro h k s hcomes
    obtain ⟨hs, hk⟩ := hcomes.lowerable h
    refine ⟨by omega, ?_, fun _ => hs.rows_ne_nil⟩
    intro ty tys row htys hspace hhead
    obtain ⟨passed, rows, tys'⟩ := s
    obtain rfl : tys' = ty :: tys := htys
    have hstep : Comes variants start (k + 1) ⟨passed, [row], tys⟩ :=
      .step hcomes (.catchAll hspace hhead)
    exact (hstep.lowerable h).1.irrefutable (hstep.typed htyped row (by simp))
  · intro hsettles
    apply lowerable_of_comes .start
    intro k s hcomes
    have := (hsettles k s hcomes).bounded
    exact ⟨hcomes.rows_ne_nil htyped hcover hsettles, by omega⟩

end

/-! ### Matches the analysis accepts -/

section
variable {L : Lowering} {lowerArm : ArmSink → ℕ → Build Unit} {scrutinee : Occurrence}
  {arms : List HirPattern}

/-- What a `match` starts from. -/
def Lowering.startOf (L : Lowering) (scrutinee : Occurrence) (arms : List HirPattern) : Pending :=
  ⟨[], arms.map fun p => [L.resolvePattern p], [scrutinee.ty]⟩

theorem decideArms_settled {sink : ArmSink} (harm : ∀ i, (lowerArm sink i).Yields fun _ => True)
    (htyped : ∀ p ∈ arms,
      Typed (spaceOf L.module) literalDomain (L.resolvePattern p) scrutinee.ty) :
    (decideArms L lowerArm sink scrutinee arms).SettledBy
      (Lowerable (spaceOf L.module) (Limits.maxPatternDepth + 1) (L.startOf scrutinee arms)) := by
  have hrows : ∀ l : List (HirPattern × ℕ), (l.map fun p =>
      ({ armIndex := p.2, patterns := [.real p.1] } : MatrixRow)).map L.resolveRow =
        (l.map (·.1)).map fun p => [L.resolvePattern p] := by
    intro l
    simp [Lowering.resolveRow, Lowering.resolveSlot, Function.comp_def]
  have hstart := hrows arms.zipIdx
  rw [List.zipIdx_map_fst] at hstart
  have hsettled := lowerDecision_settled harm (Limits.maxPatternDepth + 1)
    (arms.zipIdx.map fun p => { armIndex := p.2, patterns := [.real p.1] }) [scrutinee] []
    (.of_resolve hstart fun r hr => by
      obtain ⟨p, hp, rfl⟩ := List.mem_map.mp hr
      exact .cons (htyped p hp) .nil)
  rw [hstart] at hsettled
  exact hsettled

/-- An accepted `match` lowers without an internal error exactly when every
matrix its decision comes to settles: no arm is lost behind an open position, no
position without values is left uncovered, and the depth limit is kept. -/
theorem lowerMatch_succeeds_iff {resultTy : Ty} {fb : FnBuilder}
    (harm : ∀ sink i, (lowerArm sink i).Yields fun _ => True)
    (htyped : ∀ p ∈ arms,
      Typed (spaceOf L.module) literalDomain (L.resolvePattern p) scrutinee.ty)
    (hmissing : (analyzeMatch scrutinee.ty (arms.map L.resolvePattern)
      (spaceOf L.module)).missing = none)
    (hbudget : (analyzeMatch scrutinee.ty (arms.map L.resolvePattern)
      (spaceOf L.module)).budgetExceeded = false) :
    ((∃ result fb', (lowerMatch L lowerArm scrutinee arms resultTy).run fb = .ok (result, fb')) ↔
        ∀ k s, Comes (spaceOf L.module) (L.startOf scrutinee arms) k s →
          Settles (spaceOf L.module) k s) ∧
      ((∃ result fb', (lowerMatchIntoReturnSink L lowerArm scrutinee arms).run fb =
          .ok (result, fb')) ↔
        ∀ k s, Comes (spaceOf L.module) (L.startOf scrutinee arms) k s →
          Settles (spaceOf L.module) k s) := by
  have htyped' : ∀ p ∈ arms.map L.resolvePattern,
      Typed (spaceOf L.module) literalDomain p scrutinee.ty := by
    intro p hp
    obtain ⟨q, hq, rfl⟩ := List.mem_map.mp hp
    exact htyped q hq
  have hstart : (L.startOf scrutinee arms).Typed (spaceOf L.module) := by
    intro r hr
    obtain ⟨p, hp, rfl⟩ := List.mem_map.mp hr
    exact .cons (htyped p hp) .nil
  have hcover : Covering (spaceOf L.module) [] (L.startOf scrutinee arms) := by
    refine .fresh fun vs hvs => ?_
    cases hvs with
    | @cons v _ _ _ hv hnil =>
      cases hnil
      obtain ⟨p, hp, hmatch⟩ := (analyzeMatch_exact htyped' hbudget).1.mp hmissing v hv
      obtain ⟨q, hq, rfl⟩ := List.mem_map.mp hp
      exact ⟨[L.resolvePattern q], List.mem_map_of_mem (f := fun p => [L.resolvePattern p]) hq,
        matchesAll_cons.mpr ⟨hmatch, matchesAll_nil⟩⟩
  rw [← lowerable_iff_settles hstart hcover]
  have hmerge : (lowerMatch L lowerArm scrutinee arms resultTy).SettledBy
      (Lowerable (spaceOf L.module) (Limits.maxPatternDepth + 1) (L.startOf scrutinee arms)) := by
    unfold lowerMatch
    split
    · refine ((decideArms_settled (harm _) htyped).and (R := True) fun _ => ?_).congr (by simp)
      exact .of_yields trivial (yields_pure trivial)
    · refine .after (yields_pushValue _ _) fun slot _ => .after yields_newBlock fun after _ => ?_
      refine ((decideArms_settled (harm _) htyped).and (R := True) fun _ => ?_).congr (by simp)
      refine .after (yields_switchTo _) fun _ _ => .after (yields_pushValue _ _) fun value _ => ?_
      exact .of_yields trivial (yields_pure trivial)
  have hfinish : (lowerMatchIntoReturnSink L lowerArm scrutinee arms).SettledBy
      (Lowerable (spaceOf L.module) (Limits.maxPatternDepth + 1) (L.startOf scrutinee arms)) := by
    unfold lowerMatchIntoReturnSink
    refine ((decideArms_settled (harm _) htyped).and (R := True) fun _ => ?_).congr (by simp)
    exact .of_yields trivial (yields_pure trivial)
  exact ⟨hmerge.run_iff fb, hfinish.run_iff fb⟩

/-- A variant with the one case `Entry(i64, bool)`. -/
def entryModule : Module := { variants := [(⟨0⟩, ⟨⟨0⟩, [], [⟨⟨0⟩, [.i64, .bool]⟩]⟩)] }

def entryLowering : Lowering where
  module := entryModule
  patternCase := AList.insert ⟨0⟩ (⟨0⟩, 0) (AList.insert ⟨1⟩ (⟨0⟩, 0) ∅)
  displayTy := fun _ => "i64"

/-- The arms `Entry(5, true)` and `Entry(_, _)`. -/
def entryArms : List HirPattern :=
  [.variant ⟨0⟩ [.int 5, .bool true], .variant ⟨1⟩ [.wildcard ⟨2⟩, .wildcard ⟨3⟩]]

theorem typed_entry {args : List ResolvedPattern}
    (hargs : RowTyped (spaceOf entryModule) literalDomain [.i64, .bool] args) :
    Typed (spaceOf entryModule) literalDomain (.variant ⟨0⟩ 0 args) (.named ⟨0⟩) := by
  have hspace : space (spaceOf entryModule) (.named ⟨0⟩) = .variant ⟨0⟩ [[.i64, .bool]] := rfl
  exact .variant hspace rfl hargs

/-- A `match` that compares an entry's number before it falls back lowers, and
every matrix of its decision settles. -/
theorem lowerMatch_succeeds_iff_entry :
    (∃ result fb', (lowerMatch entryLowering (fun _ _ => pure ()) ⟨⟨0⟩, .named ⟨0⟩⟩ entryArms
        .i64).run { nextValue := 1 } = .ok (result, fb')) ∧
      ∀ k s, Comes (spaceOf entryModule) (entryLowering.startOf ⟨⟨0⟩, .named ⟨0⟩⟩ entryArms) k s →
        Settles (spaceOf entryModule) k s := by
  have hrun : ((lowerMatch entryLowering (fun _ _ => pure ()) ⟨⟨0⟩, .named ⟨0⟩⟩ entryArms
      .i64).run { nextValue := 1 }).toBool = true := by
    decide +kernel
  have hok : ∃ result fb', (lowerMatch entryLowering (fun _ _ => pure ()) ⟨⟨0⟩, .named ⟨0⟩⟩
      entryArms .i64).run { nextValue := 1 } = .ok (result, fb') := by
    generalize (lowerMatch entryLowering (fun _ _ => pure ()) ⟨⟨0⟩, .named ⟨0⟩⟩ entryArms
      .i64).run { nextValue := 1 } = run at hrun ⊢
    cases run with
    | error e => cases hrun
    | ok r => exact ⟨r.1, r.2, rfl⟩
  have htyped : ∀ p ∈ entryArms, Typed (spaceOf entryLowering.module) literalDomain
      (entryLowering.resolvePattern p) (.named ⟨0⟩) := by
    intro p hp
    simp only [entryArms, List.mem_cons, List.not_mem_nil, or_false] at hp
    have hfive : fits (.int 5) .i64 := by
      unfold fits
      decide
    rcases hp with rfl | rfl
    · exact typed_entry (.cons (.literal rfl (literal_mem_inhabits.mpr hfive))
        (.cons (.bool rfl) .nil))
    · exact typed_entry (.cons .wildcard (.cons .wildcard .nil))
  exact ⟨hok, (lowerMatch_succeeds_iff (fun _ _ => yields_pure trivial) htyped rfl rfl).1.mp hok⟩

/-- The arms `Entry(_, true)` and `Entry(_, false)`. -/
def flagArms : List HirPattern :=
  [.variant ⟨0⟩ [.wildcard ⟨2⟩, .bool true], .variant ⟨1⟩ [.wildcard ⟨3⟩, .bool false]]

/-- The analysis accepts the two arms, and lowering loses the second one behind
the number neither of them looks at. -/
theorem flag_match_not_lowered :
    (∀ p ∈ flagArms, Typed (spaceOf entryModule) literalDomain (entryLowering.resolvePattern p)
      (.named ⟨0⟩)) ∧
    (analyzeMatch (.named ⟨0⟩) (flagArms.map entryLowering.resolvePattern)
      (spaceOf entryModule)).missing = none ∧
    (analyzeMatch (.named ⟨0⟩) (flagArms.map entryLowering.resolvePattern)
      (spaceOf entryModule)).budgetExceeded = false ∧
    (lowerMatch entryLowering (fun _ _ => pure ()) ⟨⟨0⟩, .named ⟨0⟩⟩ flagArms .i64).run
      { nextValue := 1 } =
        .error (internalError "a match's bool switch left a branch with no covering arm") := by
  refine ⟨?_, rfl, rfl, ?_⟩
  · intro p hp
    simp only [flagArms, List.mem_cons, List.not_mem_nil, or_false] at hp
    rcases hp with rfl | rfl <;> exact typed_entry (.cons .wildcard (.cons (.bool rfl) .nil))
  · have hrun : (match (lowerMatch entryLowering (fun _ _ => pure ()) ⟨⟨0⟩, .named ⟨0⟩⟩ flagArms
        .i64).run { nextValue := 1 } with
        | .error e => decide
            (e = internalError "a match's bool switch left a branch with no covering arm")
        | .ok _ => false) = true := by
      decide +kernel
    generalize (lowerMatch entryLowering (fun _ _ => pure ()) ⟨⟨0⟩, .named ⟨0⟩⟩ flagArms
      .i64).run { nextValue := 1 } = run at hrun ⊢
    cases run with
    | error e => exact congrArg _ (of_decide_eq_true hrun)
    | ok r => cases hrun

end

end Napitia.Lower
