import Napitia.Lower.Builder

/-!
# The code of a decision

What each kind of column adds to the builder, read off a run of the lowering that
succeeded, and that a whole decision only grows the builder it starts from. The
lowering of an arm's body is any lowering with that property.
-/
namespace Napitia.Lower
open Nir StateT

/-- How the body of an arm is lowered, wherever the value of the `match` goes. -/
structure ArmLowering where
  lower : ArmSink → ℕ → Build Unit
  grows : ∀ {sink : ArmSink} {i : ℕ} {fb fb' : FnBuilder} {code : List Instruction}, fb.Formed →
    fb.Stands code → (lower sink i).run fb = .ok (⟨⟩, fb') → fb.Grows fb' ∧ fb'.Formed

/-! ### Opening blocks -/

namespace FnBuilder

def openMany (fb : FnBuilder) (k : ℕ) : FnBuilder :=
  { fb with blocks := fb.blocks ++
      (List.range' fb.blocks.length k).map fun i => ⟨⟨i⟩, [], none⟩ }

theorem openMany_opened (fb : FnBuilder) (k : ℕ) : fb.opened.openMany k = fb.openMany (k + 1) := by
  simp [openMany, opened, List.range'_succ]

theorem run_mapM_newBlock {α : Type} (l : List α) (fb : FnBuilder) :
    (l.mapM fun _ => newBlock).run fb =
      .ok ((List.range' fb.blocks.length l.length).map BlockId.mk, fb.openMany l.length) := by
  induction l generalizing fb with
  | nil =>
    simp only [List.mapM_nil, List.length_nil, List.range'_zero, List.map_nil, openMany,
      List.append_nil]
    rfl
  | cons a l ih =>
    rw [List.mapM_cons, run_bind_ok (run_newBlock fb), run_bind_ok (ih fb.opened),
      openMany_opened, length_opened, List.length_cons, List.range'_succ]
    rfl

variable {fb : FnBuilder} {k : ℕ}

theorem emits_openMany (fb : FnBuilder) (k : ℕ) : fb.Emits [] (fb.openMany k) := by
  induction k generalizing fb with
  | zero =>
    have hzero : fb.openMany 0 = fb := by simp [openMany]
    rw [hzero]
    exact .refl fb
  | succ k ih =>
    rw [← openMany_opened]
    exact (emits_opened fb).trans (ih fb.opened)

theorem Formed.openMany (h : fb.Formed) (k : ℕ) : (fb.openMany k).Formed := by
  induction k generalizing fb with
  | zero =>
    have hzero : fb.openMany 0 = fb := by simp [FnBuilder.openMany]
    rwa [hzero]
  | succ k ih =>
    rw [← openMany_opened]
    exact ih h.opened

theorem block_openMany (fb : FnBuilder) {i k : ℕ} (h : i < k) :
    (fb.openMany k).blocks[fb.blocks.length + i]? =
      some ⟨⟨fb.blocks.length + i⟩, [], none⟩ := by
  simp [openMany, h]

end FnBuilder

/-! ### Reading the payload of a shell -/

section
variable (base : ValueId) (item : ItemId) (case : ℕ)

/-- The occurrences a payload is read into, from the next free value on. -/
def payloadOccs : ℕ → List Ty → List Occurrence
  | _, [] => []
  | n, ty :: tys => ⟨⟨n⟩, ty⟩ :: payloadOccs (n + 1) tys

/-- The instructions that read it, from one of its positions on. -/
def payloadCode : ℕ → ℕ → List Ty → List Instruction
  | _, _, [] => []
  | n, i, ty :: tys =>
    .value ⟨n⟩ ty (.variantPayload base item case i) :: payloadCode (n + 1) (i + 1) tys

variable {base item case}

@[simp] theorem length_payloadOccs (n : ℕ) (tys : List Ty) :
    (payloadOccs n tys).length = tys.length := by
  induction tys generalizing n with
  | nil => rfl
  | cons ty tys ih => simp [payloadOccs, ih]

theorem getElem?_payloadOccs (n i : ℕ) (tys : List Ty) :
    (payloadOccs n tys)[i]? = tys[i]?.map fun ty => ⟨⟨n + i⟩, ty⟩ := by
  induction tys generalizing n i with
  | nil => simp [payloadOccs]
  | cons ty tys ih =>
    cases i with
    | zero => simp [payloadOccs]
    | succ i => simp [payloadOccs, ih, Nat.add_assoc, Nat.add_comm 1 i]

theorem map_ty_payloadOccs (n : ℕ) (tys : List Ty) : (payloadOccs n tys).map (·.ty) = tys := by
  induction tys generalizing n with
  | nil => rfl
  | cons ty tys ih => simp [payloadOccs, ih]

theorem payloadOccs_lt {n : ℕ} {tys : List Ty} {o : Occurrence} (h : o ∈ payloadOccs n tys) :
    o.value.index < n + tys.length := by
  obtain ⟨i, hi⟩ := List.mem_iff_getElem?.mp h
  rw [getElem?_payloadOccs] at hi
  obtain ⟨ty, hty, rfl⟩ := Option.map_eq_some_iff.mp hi
  have hlt := (List.getElem?_eq_some_iff.mp hty).choose
  exact Nat.add_lt_add_left hlt n

theorem run_extract (item : ItemId) (case : ℕ) {occ : Occurrence} {fb : FnBuilder} {code : List Instruction}
    (hformed : fb.Formed) (hstands : fb.Stands code) (hocc : occ.value.index < fb.nextValue)
    (tys : List Ty) (start : ℕ) :
    ∃ fb', ((tys.zipIdx start).mapM fun p => (do
        let value ← pushValue p.1 (.variantPayload occ.value item case p.2)
        modify fun fb => { fb with
          payloadSources := fb.payloadSources.insert value ⟨occ.value, item, case, p.2⟩ }
        pure (⟨value, p.1⟩ : Occurrence) : Build Occurrence)).run fb =
          .ok (payloadOccs fb.nextValue tys, fb') ∧
      fb.Emits (payloadCode occ.value item case fb.nextValue start tys) fb' ∧ fb'.Formed ∧
      fb'.nextValue = fb.nextValue + tys.length ∧
      ∀ i < tys.length, fb'.payloadSources.lookup ⟨fb.nextValue + i⟩ =
        some ⟨occ.value, item, case, start + i⟩ := by
  induction tys generalizing fb start code with
  | nil => exact ⟨fb, rfl, .refl fb, hformed, rfl, by simp⟩
  | cons ty tys ih =>
    let defined := fb.define ty (.variantPayload occ.value item case start)
    let noted : FnBuilder := { defined with
      payloadSources := defined.payloadSources.insert ⟨fb.nextValue⟩ ⟨occ.value, item, case, start⟩ }
    have hdefine := FnBuilder.emits_define hstands ty (.variantPayload occ.value item case start)
    have hnoted : fb.Emits [.value ⟨fb.nextValue⟩ ty
        (.variantPayload occ.value item case start)] noted := by
      refine ⟨⟨⟨hdefine.grows.nextValue, hdefine.grows.block, fun {id} hid => ?_⟩,
        hdefine.grows.kept⟩, hdefine.current, hdefine.stands⟩
      have hne : id ≠ (⟨fb.nextValue⟩ : ValueId) := by
        rintro rfl
        exact absurd hid (lt_irrefl _)
      exact (AList.lookup_insert_ne hne).trans (hdefine.grows.sources hid)
    have hformed' : noted.Formed := by
      have hdefined := hformed.define ty (.variantPayload occ.value item case start)
      refine ⟨hdefined.ids, fun {id source} hid => ?_, fun {id source} hid => ?_⟩
      · by_cases heq : id = (⟨fb.nextValue⟩ : ValueId)
        · subst heq
          have hsource := (AList.lookup_insert defined.payloadSources).symm.trans hid
          cases hsource
          exact hocc
        · exact hdefined.sources ((AList.lookup_insert_ne heq).symm.trans hid)
      · by_cases heq : id = (⟨fb.nextValue⟩ : ValueId)
        · subst heq
          have hsource := (AList.lookup_insert defined.payloadSources).symm.trans hid
          cases hsource
          exact ⟨ty, fb.current.index, _, hdefine.stands hstands, by simp⟩
        · exact hdefined.reads ((AList.lookup_insert_ne heq).symm.trans hid)
    have hnext : noted.nextValue = fb.nextValue + 1 := rfl
    obtain ⟨fb', hrun, hemits, hformed'', hvalue, hsources⟩ :=
      ih hformed' (hnoted.stands hstands) (by rw [hnext]; omega) (start + 1)
    rw [hnext] at hrun hemits hvalue hsources
    refine ⟨fb', ?_, hnoted.trans hemits, hformed'', by rw [hvalue, List.length_cons]; omega, ?_⟩
    · have hone : (do
          let value ← pushValue ty (.variantPayload occ.value item case start)
          modify fun fb => { fb with
            payloadSources := fb.payloadSources.insert value ⟨occ.value, item, case, start⟩ }
          pure (⟨value, ty⟩ : Occurrence) : Build Occurrence).run fb =
            .ok (⟨⟨fb.nextValue⟩, ty⟩, noted) := rfl
      rw [List.zipIdx_cons, List.mapM_cons, run_bind_ok hone, run_bind_ok hrun]
      rfl
    · intro i hi
      cases i with
      | zero =>
        have hlt : (⟨fb.nextValue⟩ : ValueId).index < noted.nextValue := by
          rw [hnext]
          exact Nat.lt_succ_self _
        exact (hemits.grows.sources hlt).trans (AList.lookup_insert _)
      | succ i =>
        have hi' : i < tys.length := by simpa using hi
        have hsource := hsources i hi'
        rw [show fb.nextValue + (i + 1) = fb.nextValue + 1 + i by omega,
          show start + (i + 1) = start + 1 + i by omega]
        exact hsource

end

/-! ### What a column adds -/

namespace FnBuilder

/-- The builder after a two-way branch, with the two targets open. -/
def fork (fb : FnBuilder) (condition : ValueId) : FnBuilder :=
  fb.opened.opened.close (.condBranch condition ⟨fb.blocks.length⟩ ⟨fb.blocks.length + 1⟩)

/-- The builder after a switch, with one target open for each of the cases. -/
def forkMany (fb : FnBuilder) (scrutinee : ValueId) (item : ItemId) (k : ℕ) : FnBuilder :=
  (fb.openMany k).close
    (.switch scrutinee item ((List.range' fb.blocks.length k).map BlockId.mk))

section
variable {fb : FnBuilder} {code : List Instruction}

theorem grows_fork (hs : fb.Stands code) (condition : ValueId) :
    fb.Grows (fb.fork condition) := by
  have hopened := (emits_opened fb).trans (emits_opened fb.opened)
  exact hopened.grows.trans (grows_close (hopened.stands hs) _) (.inl hopened.current)

theorem Formed.fork (h : fb.Formed) (condition : ValueId) : (fb.fork condition).Formed :=
  h.opened.opened.close _

theorem block_fork (hs : fb.Stands code) (condition : ValueId) :
    (fb.fork condition).blocks[fb.current.index]? = some ⟨fb.current, code,
      some (.condBranch condition ⟨fb.blocks.length⟩ ⟨fb.blocks.length + 1⟩)⟩ := by
  have hopened := (emits_opened fb).trans (emits_opened fb.opened)
  have hs' := hopened.stands hs
  rw [List.append_nil, List.append_nil] at hs'
  exact block_close hs' _

theorem target_fork (hs : fb.Stands code) (condition : ValueId) {i : ℕ} (hi : i < 2) :
    (fb.fork condition).blocks[fb.blocks.length + i]? =
      some ⟨⟨fb.blocks.length + i⟩, [], none⟩ := by
  have hne : fb.opened.opened.current.index ≠ fb.blocks.length + i := by
    have hlt := hs.current_lt
    change fb.current.index ≠ _
    omega
  refine (block_close_ne _ hne).trans ?_
  rcases Nat.lt_or_ge i 1 with hi' | hi'
  · obtain rfl : i = 0 := by omega
    have hlt : fb.blocks.length < fb.opened.blocks.length := by
      rw [length_opened]
      omega
    exact (List.getElem?_append_left hlt).trans (block_opened fb)
  · obtain rfl : i = 1 := by omega
    have hblock := block_opened fb.opened
    rw [length_opened] at hblock
    exact hblock

theorem grows_forkMany (hs : fb.Stands code) (scrutinee : ValueId) (item : ItemId) (k : ℕ) :
    fb.Grows (fb.forkMany scrutinee item k) := by
  have hopened := emits_openMany fb k
  exact hopened.grows.trans (grows_close (hopened.stands hs) _) (.inl hopened.current)

theorem Formed.forkMany (h : fb.Formed) (scrutinee : ValueId) (item : ItemId) (k : ℕ) :
    (fb.forkMany scrutinee item k).Formed :=
  (h.openMany k).close _

theorem block_forkMany (hs : fb.Stands code) (scrutinee : ValueId) (item : ItemId) (k : ℕ) :
    (fb.forkMany scrutinee item k).blocks[fb.current.index]? = some ⟨fb.current, code,
      some (.switch scrutinee item ((List.range' fb.blocks.length k).map BlockId.mk))⟩ := by
  have hs' := (emits_openMany fb k).stands hs
  rw [List.append_nil] at hs'
  exact block_close hs' _

theorem target_forkMany (hs : fb.Stands code) (scrutinee : ValueId) (item : ItemId) {i k : ℕ}
    (hi : i < k) : (fb.forkMany scrutinee item k).blocks[fb.blocks.length + i]? =
      some ⟨⟨fb.blocks.length + i⟩, [], none⟩ := by
  have hne : (fb.openMany k).current.index ≠ fb.blocks.length + i := by
    have hlt := hs.current_lt
    change fb.current.index ≠ _
    omega
  exact (block_close_ne _ hne).trans (block_openMany fb hi)

end

end FnBuilder

section
variable {L : Lowering} {next : List MatrixRow → List Occurrence → Build Unit}
  {occ : Occurrence} {rest : List Occurrence} {rows : List MatrixRow} {fb fb' : FnBuilder}

theorem lowerBoolSwitch_inv (h : (lowerBoolSwitch L next occ rest rows).run fb = .ok (⟨⟩, fb')) :
    ((rows.any fun r => (L.classify r.head).isBool) = false ∧
      (next (rows.map (L.untested occ)) rest).run fb = .ok (⟨⟩, fb')) ∨
    ((rows.any fun r => (L.classify r.head).isBool) = true ∧ ∃ mid,
      (next (rows.filterMap (L.keepLiteral (.bool true) occ)) rest).run
        ((fb.fork occ.value).movedTo ⟨fb.blocks.length⟩) = .ok (⟨⟩, mid) ∧
      (next (rows.filterMap (L.keepLiteral (.bool false) occ)) rest).run
        (mid.movedTo ⟨fb.blocks.length + 1⟩) = .ok (⟨⟩, fb')) := by
  unfold lowerBoolSwitch at h
  cases hany : rows.any fun r => (L.classify r.head).isBool with
  | false =>
    simp only [hany, Bool.not_false, if_true] at h
    exact .inl ⟨rfl, h⟩
  | true =>
    simp only [hany, Bool.not_true, Bool.false_eq_true, if_false] at h
    rw [run_bind_ok (FnBuilder.run_newBlock fb), run_bind_ok (FnBuilder.run_newBlock fb.opened),
      FnBuilder.length_opened, run_bind_ok (FnBuilder.run_terminate _ _)] at h
    simp only [List.forM_eq_forM, List.forM_cons, List.forM_nil, bind_pure_unit] at h
    obtain ⟨_, mid, hthen, helse⟩ := run_bind_eq_ok.mp h
    rw [run_bind_ok (FnBuilder.run_switchTo _ _)] at hthen helse
    exact .inr ⟨rfl, mid, (run_guard_eq_ok.mp hthen).2, (run_guard_eq_ok.mp helse).2⟩

/-- The constant a literal is compared with. -/
def LiteralTest.const : LiteralTest → Const
  | .int value => .int value
  | .str value => .str value
  | .char value => .char value
  | .bool value => .bool value

theorem literalConst_inv {lit : LiteralTest} {ty : Ty} {id : ValueId}
    (h : (literalConst L lit ty).run fb = .ok (id, fb')) :
    id = ⟨fb.nextValue⟩ ∧ fb' = fb.define ty (.const lit.const) := by
  cases lit with
  | int value =>
    simp only [literalConst, intLiteral] at h
    cases hlit : (Numeric.domainOf ty).bind (·.literal value false) with
    | none =>
      rw [hlit] at h
      cases h
    | some z =>
      simp only [hlit, FnBuilder.run_pushValue] at h
      cases h
      obtain ⟨d, -, hz⟩ := Option.bind_eq_some_iff.mp hlit
      have hz' : z = value := by
        unfold Numeric.IntDomain.literal at hz
        simp only [Bool.false_eq_true, if_false] at hz
        split at hz
        · cases hz
        · exact (Option.some.inj hz).symm
      subst hz'
      exact ⟨rfl, rfl⟩
  | str value =>
    cases h
    exact ⟨rfl, rfl⟩
  | char value =>
    cases h
    exact ⟨rfl, rfl⟩
  | bool value =>
    cases h
    exact ⟨rfl, rfl⟩

/-- The builder after the comparison of an occurrence with a literal. -/
def FnBuilder.compared (fb : FnBuilder) (occ : Occurrence) (lit : LiteralTest) : FnBuilder :=
  (fb.define occ.ty (.const lit.const)).define .bool (.eq occ.value ⟨fb.nextValue⟩)

theorem lowerLiteralChain_inv
    (h : (lowerLiteralChain L next occ rest rows).run fb = .ok (⟨⟩, fb')) :
    (∃ first, rows.head? = some first ∧
      (L.classify first.head = .wildcard ∨ ∃ binding, L.classify first.head = .bind binding) ∧
      (next [L.untested occ first] rest).run fb = .ok (⟨⟩, fb')) ∨
    ∃ first lit mid, rows.head? = some first ∧ L.classify first.head = .literal lit ∧
      (next (rows.filterMap (L.keepLiteral lit occ)) rest).run
        (((fb.compared occ lit).fork ⟨fb.nextValue + 1⟩).movedTo
          ⟨(fb.compared occ lit).blocks.length⟩) = .ok (⟨⟩, mid) ∧
      (next (rows.filter fun r => !(L.classify r.head).isLiteral lit) (occ :: rest)).run
        (mid.movedTo ⟨(fb.compared occ lit).blocks.length + 1⟩) = .ok (⟨⟩, fb') := by
  unfold lowerLiteralChain at h
  cases hfirst : rows.head? with
  | none =>
    rw [hfirst] at h
    cases h
  | some first =>
    simp only [hfirst] at h
    cases hc : L.classify first.head with
    | wildcard =>
      simp only [hc] at h
      have huntested : L.untested occ first = first.passed occ := by
        simp [Lowering.untested, hc]
      rw [← huntested] at h
      exact .inl ⟨first, rfl, .inl hc, h⟩
    | bind binding =>
      simp only [hc] at h
      have huntested : L.untested occ first = first.bound binding occ := by
        simp [Lowering.untested, hc]
      rw [← huntested] at h
      exact .inl ⟨first, rfl, .inr ⟨binding, hc⟩, h⟩
    | case item k args =>
      rw [hc] at h
      cases h
    | literal lit =>
      simp only [hc] at h
      obtain ⟨const, defined, hconst, h⟩ := run_bind_eq_ok.mp h
      obtain ⟨rfl, rfl⟩ := literalConst_inv hconst
      rw [run_bind_ok (FnBuilder.run_pushValue _ _ _), run_bind_ok (FnBuilder.run_newBlock _),
        run_bind_ok (FnBuilder.run_newBlock _), FnBuilder.length_opened,
        run_bind_ok (FnBuilder.run_terminate _ _), run_bind_ok (FnBuilder.run_switchTo _ _)] at h
      obtain ⟨_, mid, hthen, helse⟩ := run_bind_eq_ok.mp h
      rw [run_bind_ok (FnBuilder.run_switchTo _ _)] at helse
      exact .inr ⟨first, lit, mid, rfl, hc, hthen, (run_guard_eq_ok.mp helse).2⟩

/-- The instantiation a switch reads the payload types of its cases under. -/
def substAt (layout : VariantLayout) (args : List Ty) : Subst :=
  ((layout.typeParams.map (·.1)).zip args).foldl (fun s p => s.insert p.1 p.2) ∅

/-- The cases of a switch, each with the block it is lowered in. -/
def switchCases (fb : FnBuilder) (layout : VariantLayout) : List ((CaseLayout × ℕ) × BlockId) :=
  layout.cases.zipIdx.zip ((List.range' fb.blocks.length layout.cases.length).map BlockId.mk)

/-- A piece of lowering in a block of its own. -/
def inBlock {α : Type} (body : α → Build Unit) (x : α × BlockId) : Build Unit := do
  switchTo x.2
  body x.1

theorem lowerVariantSwitch_inv {item : ItemId} {args : List Ty} {layout : VariantLayout}
    (hdecl : declarationOf occ.ty = some (item, args))
    (hfind : L.module.findVariant item = some layout)
    (h : (lowerVariantSwitch L next occ rest rows).run fb = .ok (⟨⟩, fb')) :
    ((rows.any fun r => (L.classify r.head).isCase) = false ∧
      (next (rows.map (L.untested occ)) rest).run fb = .ok (⟨⟩, fb')) ∨
    ((rows.any fun r => (L.classify r.head).isCase) = true ∧
      ((switchCases fb layout).forM (inBlock fun p =>
        lowerCase L next occ rest rows item (substAt layout args) p.2 p.1)).run
          (fb.forkMany occ.value item layout.cases.length) = .ok (⟨⟩, fb')) := by
  unfold lowerVariantSwitch at h
  simp only [hdecl, hfind, Option.map_some, Option.getD_some] at h
  cases hany : rows.any fun r => (L.classify r.head).isCase with
  | false =>
    simp only [hany, Bool.not_false, if_true] at h
    exact .inl ⟨rfl, h⟩
  | true =>
    simp only [hany, Bool.not_true, Bool.false_eq_true, if_false] at h
    rw [run_bind_ok (FnBuilder.run_mapM_newBlock _ fb),
      run_bind_ok (FnBuilder.run_terminate _ _)] at h
    exact .inr ⟨rfl, h⟩

theorem lowerCase_inv {item : ItemId} {subst : Subst} {case : ℕ} {layout : CaseLayout}
    (h : (lowerCase L next occ rest rows item subst case layout).run fb = .ok (⟨⟩, fb')) :
    ∃ kept occs mid, rows.mapM (L.keepCase item case layout.payload.length occ) = .ok kept ∧
      (extractPayload occ item case (layout.payload.map fun ty => substitute ty subst)).run fb =
        .ok (occs, mid) ∧
      (next kept.reduceOption (occs ++ rest)).run mid = .ok (⟨⟩, fb') := by
  unfold lowerCase at h
  simp only [List.length_map] at h
  obtain ⟨kept, fb₁, hkept, hrest⟩ := run_bind_eq_ok.mp h
  have hkept' : rows.mapM (L.keepCase item case layout.payload.length occ) = .ok kept ∧
      fb₁ = fb := by
    cases hrows : rows.mapM (L.keepCase item case layout.payload.length occ) with
    | error e =>
      rw [hrows] at hkept
      cases hkept
    | ok kept' =>
      rw [hrows] at hkept
      cases hkept
      exact ⟨rfl, rfl⟩
  obtain ⟨hrows, rfl⟩ := hkept'
  obtain ⟨-, hrest⟩ := run_guard_eq_ok.mp hrest
  obtain ⟨occs, mid, hextract, hnext⟩ := run_bind_eq_ok.mp hrest
  exact ⟨kept, occs, mid, hrows, hextract, hnext⟩

end

/-! ### A decision grows its builder -/

/-- The action only grows a builder that has come as far as the bound. -/
def GrowsAt (N : ℕ) (x : Build Unit) : Prop :=
  ∀ {fb fb' : FnBuilder} {code : List Instruction}, fb.Formed → fb.Stands code →
    N ≤ fb.nextValue → x.run fb = .ok (⟨⟩, fb') → fb.Grows fb' ∧ fb'.Formed

/-- So does the rest of a decision, over occurrences below the bound. -/
def GrowsFrom (next : List MatrixRow → List Occurrence → Build Unit) : Prop :=
  ∀ rows occs N, (∀ o ∈ occs, o.value.index < N) → GrowsAt N (next rows occs)

section
variable {N : ℕ} {fb fb' mid : FnBuilder} {code : List Instruction}

theorem fork_grows {x y : Build Unit} {condition : ValueId} (hx : GrowsAt N x)
    (hy : GrowsAt N y) (hformed : fb.Formed) (hs : fb.Stands code) (hN : N ≤ fb.nextValue)
    (hthen : x.run ((fb.fork condition).movedTo ⟨fb.blocks.length⟩) = .ok (⟨⟩, mid))
    (helse : y.run (mid.movedTo ⟨fb.blocks.length + 1⟩) = .ok (⟨⟩, fb')) :
    (fb.Grows fb' ∧ fb'.Formed) ∧ mid.Formed ∧ (fb.fork condition).Below mid ∧ mid.Below fb' ∧
      (mid.movedTo ⟨fb.blocks.length + 1⟩).Stands [] := by
  have hthenStands := FnBuilder.stands_movedTo (b := ⟨fb.blocks.length⟩)
    (FnBuilder.target_fork hs condition (i := 0) (by omega))
  obtain ⟨hmid, hmidFormed⟩ := hx ((hformed.fork condition).movedTo _) hthenStands hN hthen
  have hkept := hmid.kept (i := fb.blocks.length + 1) (Nat.succ_ne_self _)
    (FnBuilder.target_fork hs condition (i := 1) (by omega))
  have helseStands : (mid.movedTo ⟨fb.blocks.length + 1⟩).Stands [] := hkept
  have hvalues : fb.nextValue ≤ mid.nextValue := hmid.nextValue
  obtain ⟨hlast, hlastFormed⟩ := hy (hmidFormed.movedTo _) helseStands
    (hN.trans hvalues) helse
  have hfork := FnBuilder.grows_fork hs condition
  have hmidBelow := FnBuilder.Below.of_movedTo hmid.toBelow
  have hlastBelow := FnBuilder.Below.of_movedTo hlast.toBelow
  refine ⟨⟨⟨hfork.toBelow.trans (hmidBelow.trans hlastBelow), fun {i p} hi h => ?_⟩,
    hlastFormed⟩, hmidFormed, hmidBelow, hlastBelow, helseStands⟩
  have hlt : i < fb.blocks.length := (List.getElem?_eq_some_iff.mp h).choose
  have hthenNe : i ≠ fb.blocks.length := by omega
  have helseNe : i ≠ fb.blocks.length + 1 := by omega
  exact hlast.kept helseNe (hmid.kept hthenNe (hfork.kept hi h))

/-- The branches of a switch, lowered one after the other, each in a block that
is still empty when its turn comes. -/
theorem forM_blocks {α : Type} (body : α → Build Unit) (fb : FnBuilder) {l : List (α × BlockId)}
    (hbody : ∀ x ∈ l, GrowsAt N (body x.1)) (hformed : fb.Formed) (hN : N ≤ fb.nextValue)
    (hempty : ∀ x ∈ l, fb.blocks[x.2.index]? = some ⟨x.2, [], none⟩)
    (hnodup : (l.map (·.2.index)).Nodup)
    (h : (l.forM (inBlock body)).run fb = .ok (⟨⟩, fb')) :
    fb.Below fb' ∧ fb'.Formed ∧
      (∀ {i : ℕ} {p : PendingBlock}, (∀ x ∈ l, i ≠ x.2.index) → fb.blocks[i]? = some p →
        fb'.blocks[i]? = some p) ∧
      ∀ x ∈ l, ∃ u u', fb.Below u ∧ u.Formed ∧ u.blocks[x.2.index]? = some ⟨x.2, [], none⟩ ∧
        (body x.1).run (u.movedTo x.2) = .ok (⟨⟩, u') ∧ u'.Below fb' := by
  induction l generalizing fb with
  | nil =>
    obtain rfl : fb = fb' := by
      cases h
      rfl
    exact ⟨.refl fb, hformed, fun _ h => h, by simp⟩
  | cons x l ih =>
    rw [List.forM_eq_forM, List.forM_cons] at h
    obtain ⟨_, u', hx, hl⟩ := run_bind_eq_ok.mp h
    unfold inBlock at hx
    rw [run_bind_ok (FnBuilder.run_switchTo _ _)] at hx
    rw [List.map_cons, List.nodup_cons] at hnodup
    have hx' : (body x.1).run (fb.movedTo x.2) = .ok (⟨⟩, u') := hx
    have hstands := FnBuilder.stands_movedTo (hempty x (by simp))
    obtain ⟨hgrows, hformed'⟩ := hbody x (by simp) (hformed.movedTo x.2) hstands hN hx'
    have hkept : ∀ {i : ℕ} {p : PendingBlock}, i ≠ x.2.index → fb.blocks[i]? = some p →
        u'.blocks[i]? = some p := fun hi hp => hgrows.kept hi hp
    have hbelow := FnBuilder.Below.of_movedTo hgrows.toBelow
    have hempty' : ∀ y ∈ l, u'.blocks[y.2.index]? = some ⟨y.2, [], none⟩ := by
      intro y hy
      refine hkept (fun heq => hnodup.1 ?_) (hempty y (by simp [hy]))
      rw [← heq]
      exact List.mem_map_of_mem (f := fun z => z.2.index) hy
    obtain ⟨hbelow', hformed'', hkept', hall⟩ := ih u' (fun y hy => hbody y (by simp [hy])) hformed'
      (hN.trans hbelow.nextValue) hempty' hnodup.2 hl
    refine ⟨hbelow.trans hbelow', hformed'', fun {i p} hi hp => ?_, fun y hy => ?_⟩
    · exact hkept' (fun y hy => hi y (by simp [hy])) (hkept (hi x (by simp)) hp)
    · rcases List.mem_cons.mp hy with rfl | hy
      · exact ⟨fb, u', .refl fb, hformed, hempty y (by simp), hx', hbelow'⟩
      · obtain ⟨u, v, hu, huformed, hublock, hrun, hv⟩ := hall y hy
        exact ⟨u, v, hbelow.trans hu, huformed, hublock, hrun, hv⟩

/-! ### The prologue of an arm -/

/-- Several instructions, one after the other. -/
def FnBuilder.emitAll (fb : FnBuilder) (is : List Instruction) : FnBuilder := is.foldl emit fb

@[simp] theorem localBindings_emitAll (fb : FnBuilder) (is : List Instruction) :
    (fb.emitAll is).localBindings = fb.localBindings := by
  induction is generalizing fb with
  | nil => rfl
  | cons i is ih => exact ih (fb.emit i)

theorem emits_emitAll (hs : fb.Stands code) (is : List Instruction) :
    fb.Emits is (fb.emitAll is) := by
  induction is generalizing fb code with
  | nil => exact .refl fb
  | cons i is ih =>
    have hi := FnBuilder.emits_emit hs i
    exact hi.trans (ih (hi.stands hs))

theorem FnBuilder.Formed.emitAll (h : fb.Formed) (is : List Instruction) : (fb.emitAll is).Formed := by
  induction is generalizing fb with
  | nil => exact h
  | cons i is ih => exact ih (h.emit i)

section
variable {L : Lowering} {winner : MatrixRow}

/-- What an arm does before its body. -/
def prologue (L : Lowering) (winner : MatrixRow)
    (sources : AList (fun _ : ValueId => PayloadSource)) : List Instruction :=
  (winner.decomposed.map fun d =>
    .decomposeVariant d.1 d.2.1 d.2.2 (winner.claims sources d.1 d.2.1 d.2.2)) ++
  (winner.discarded.reverse.filter fun o => L.isAffine o.ty).map fun o => .drop o.value

/-- The locals of an arm, bound where its body starts. -/
def boundTo (bindings : List (LocalId × ValueId))
    (locals : AList (fun _ : LocalId => LocalBinding)) : AList (fun _ : LocalId => LocalBinding) :=
  bindings.foldl (fun acc b => acc.insert b.1 (.direct b.2)) locals

theorem run_decompositions (l : List (ValueId × ItemId × ℕ)) (fb : FnBuilder) :
    (l.forM fun (shell, variant, case) => (do
      let sources := (← get).payloadSources
      pushInstruction (.decomposeVariant shell variant case
        (winner.claims sources shell variant case)) : Build Unit)).run fb =
      .ok (⟨⟩, fb.emitAll (l.map fun d => .decomposeVariant d.1 d.2.1 d.2.2
        (winner.claims fb.payloadSources d.1 d.2.1 d.2.2))) := by
  induction l generalizing fb with
  | nil => rfl
  | cons d l ih =>
    have hone : (do
        let sources := (← get).payloadSources
        pushInstruction (.decomposeVariant d.1 d.2.1 d.2.2
          (winner.claims sources d.1 d.2.1 d.2.2)) : Build Unit).run fb =
          .ok (⟨⟩, fb.emit (.decomposeVariant d.1 d.2.1 d.2.2
            (winner.claims fb.payloadSources d.1 d.2.1 d.2.2))) := rfl
    rw [List.forM_eq_forM, List.forM_cons, run_bind_ok hone]
    exact ih _

theorem run_drops (l : List Occurrence) (fb : FnBuilder) :
    (l.forM fun occ => if L.isAffine occ.ty then pushInstruction (.drop occ.value)
      else (pure () : Build Unit)).run fb =
      .ok (⟨⟩, fb.emitAll ((l.filter fun o => L.isAffine o.ty).map fun o => .drop o.value)) := by
  induction l generalizing fb with
  | nil => rfl
  | cons o l ih =>
    rw [List.forM_eq_forM, List.forM_cons]
    by_cases ho : L.isAffine o.ty = true
    · rw [if_pos ho, List.filter_cons, if_pos ho,
        run_bind_ok (FnBuilder.run_pushInstruction fb _)]
      exact ih _
    · have hskip : (pure () : Build Unit).run fb = .ok (⟨⟩, fb) := rfl
      rw [if_neg ho, List.filter_cons, if_neg ho, run_bind_ok hskip]
      exact ih _

/-- What stands before the body of an arm is its prologue. -/
theorem run_enterArm (L : Lowering) (winner : MatrixRow) (hformed : fb.Formed) (hs : fb.Stands code) :
    ∃ body, (enterArm L winner).run fb = .ok (⟨⟩, body) ∧
      fb.Emits (prologue L winner fb.payloadSources) body ∧ body.Formed ∧
      body.localBindings = boundTo winner.bindings fb.localBindings := by
  let bound : FnBuilder := { fb with localBindings := boundTo winner.bindings fb.localBindings }
  have hbound : bound.Stands code := hs
  have hformed' : bound.Formed := ⟨hformed.ids, hformed.sources, hformed.reads⟩
  refine ⟨bound.emitAll (prologue L winner fb.payloadSources), ?_, ?_, hformed'.emitAll _,
    localBindings_emitAll _ _⟩
  · unfold enterArm emitVariantDecomposition
    have hlocals : (modify fun fb : FnBuilder => { fb with
        localBindings := winner.bindings.foldl
          (fun bindings b => bindings.insert b.1 (.direct b.2)) fb.localBindings } : Build Unit).run
            fb = .ok (⟨⟩, bound) := rfl
    rw [run_bind_ok hlocals, run_bind_ok (run_decompositions _ _), run_drops]
    simp [prologue, FnBuilder.emitAll, List.foldl_append]
    rfl
  · have hemits := emits_emitAll hbound (prologue L winner fb.payloadSources)
    exact ⟨⟨⟨hemits.grows.nextValue, hemits.grows.block, hemits.grows.sources⟩, hemits.grows.kept⟩,
      hemits.current, hemits.stands⟩

end

/-! ### Every column grows the builder -/

section
variable {L : Lowering} {next : List MatrixRow → List Occurrence → Build Unit}
  {occ : Occurrence} {rest : List Occurrence} {rows : List MatrixRow}

theorem lowerBoolSwitch_grows (hnext : GrowsFrom next)
    (hoccs : ∀ o ∈ occ :: rest, o.value.index < N) :
    GrowsAt N (lowerBoolSwitch L next occ rest rows) := by
  intro fb fb' code hformed hs hN h
  have hrest : ∀ o ∈ rest, o.value.index < N := fun o ho => hoccs o (by simp [ho])
  rcases lowerBoolSwitch_inv h with ⟨-, hrun⟩ | ⟨-, mid, hthen, helse⟩
  · exact hnext _ _ N hrest hformed hs hN hrun
  · exact (fork_grows (hnext _ _ N hrest) (hnext _ _ N hrest) hformed hs hN hthen helse).1

theorem FnBuilder.emits_compared (hs : fb.Stands code) (occ : Occurrence) (lit : LiteralTest) :
    fb.Emits [.value ⟨fb.nextValue⟩ occ.ty (.const lit.const),
      .value ⟨fb.nextValue + 1⟩ .bool (.eq occ.value ⟨fb.nextValue⟩)] (fb.compared occ lit) := by
  have hconst := FnBuilder.emits_define hs occ.ty (.const lit.const)
  exact hconst.trans (FnBuilder.emits_define (hconst.stands hs) .bool _)

theorem lowerLiteralChain_grows (hnext : GrowsFrom next)
    (hoccs : ∀ o ∈ occ :: rest, o.value.index < N) :
    GrowsAt N (lowerLiteralChain L next occ rest rows) := by
  intro fb fb' code hformed hs hN h
  have hrest : ∀ o ∈ rest, o.value.index < N := fun o ho => hoccs o (by simp [ho])
  rcases lowerLiteralChain_inv h with ⟨first, -, -, hrun⟩ | ⟨first, lit, mid, -, -, hthen, helse⟩
  · exact hnext _ _ N hrest hformed hs hN hrun
  · have hemits := FnBuilder.emits_compared hs occ lit
    have hgrows := (fork_grows (hnext _ _ N hrest) (hnext _ _ N hoccs)
      ((hformed.define _ _).define _ _) (hemits.stands hs) (hN.trans hemits.grows.nextValue)
      hthen helse).1
    exact ⟨hemits.grows.trans hgrows.1 (.inl hemits.current), hgrows.2⟩

theorem lowerCase_grows {item : ItemId} {subst : Subst} {case : ℕ} {layout : CaseLayout}
    (hnext : GrowsFrom next) (hoccs : ∀ o ∈ occ :: rest, o.value.index < N) :
    GrowsAt N (lowerCase L next occ rest rows item subst case layout) := by
  intro fb fb' code hformed hs hN h
  obtain ⟨kept, occs, mid, -, hextract, hrun⟩ := lowerCase_inv h
  have hocc : occ.value.index < fb.nextValue := (hoccs occ (by simp)).trans_le hN
  obtain ⟨mid', hrun', hemits, hformed', hvalue, -⟩ := run_extract item case
    hformed hs hocc (layout.payload.map fun ty => substitute ty subst) 0
  obtain ⟨rfl, rfl⟩ : occs = payloadOccs fb.nextValue (layout.payload.map fun ty =>
      substitute ty subst) ∧ mid = mid' := by
    have heq := hextract.symm.trans hrun'
    cases heq
    exact ⟨rfl, rfl⟩
  have hoccs' : ∀ o ∈ payloadOccs fb.nextValue (layout.payload.map fun ty => substitute ty subst) ++
      rest, o.value.index < mid.nextValue := by
    intro o ho
    rw [hvalue]
    rcases List.mem_append.mp ho with ho | ho
    · exact payloadOccs_lt ho
    · have hlt := hoccs o (by simp [ho])
      omega
  obtain ⟨hgrows, hformed''⟩ := hnext _ _ mid.nextValue hoccs' hformed' (hemits.stands hs) le_rfl hrun
  exact ⟨hemits.grows.trans hgrows (.inl hemits.current), hformed''⟩

theorem switchCases_index (fb : FnBuilder) (layout : VariantLayout) :
    (switchCases fb layout).map (·.2.index) =
      List.range' fb.blocks.length layout.cases.length := by
  have hlen : layout.cases.zipIdx.length =
      ((List.range' fb.blocks.length layout.cases.length).map BlockId.mk).length := by simp
  have hsnd : (layout.cases.zipIdx.zip
      ((List.range' fb.blocks.length layout.cases.length).map BlockId.mk)).map Prod.snd =
        (List.range' fb.blocks.length layout.cases.length).map BlockId.mk :=
    List.map_snd_zip (by rw [hlen])
  have hindex := congrArg (List.map fun b : BlockId => b.index) hsnd
  rw [List.map_map, List.map_map] at hindex
  exact hindex.trans (List.map_id _)

theorem switchCases_empty (hs : fb.Stands code) (layout : VariantLayout) (scrutinee : ValueId)
    (item : ItemId) : ∀ x ∈ switchCases fb layout,
      (fb.forkMany scrutinee item layout.cases.length).blocks[x.2.index]? =
        some ⟨x.2, [], none⟩ := by
  intro x hx
  have hindex : x.2.index ∈ List.range' fb.blocks.length layout.cases.length := by
    rw [← switchCases_index]
    exact List.mem_map_of_mem (f := fun z => z.2.index) hx
  obtain ⟨i, hi, heq⟩ := List.mem_range'.mp hindex
  rw [Nat.one_mul] at heq
  have hblock := FnBuilder.target_forkMany hs scrutinee item hi
  rw [← heq] at hblock
  exact hblock

theorem lowerVariantSwitch_grows {item : ItemId} {args : List Ty} {layout : VariantLayout}
    (hdecl : declarationOf occ.ty = some (item, args))
    (hfind : L.module.findVariant item = some layout) (hnext : GrowsFrom next)
    (hoccs : ∀ o ∈ occ :: rest, o.value.index < N) :
    GrowsAt N (lowerVariantSwitch L next occ rest rows) := by
  intro fb fb' code hformed hs hN h
  have hrest : ∀ o ∈ rest, o.value.index < N := fun o ho => hoccs o (by simp [ho])
  rcases lowerVariantSwitch_inv hdecl hfind h with ⟨-, hrun⟩ | ⟨-, hrun⟩
  · exact hnext _ _ N hrest hformed hs hN hrun
  · have hfork := FnBuilder.grows_forkMany hs occ.value item layout.cases.length
    have hnodup : ((switchCases fb layout).map (·.2.index)).Nodup := by
      rw [switchCases_index]
      exact List.nodup_range'
    obtain ⟨hbelow, hformed', hkept, -⟩ := forM_blocks (N := N) (l := switchCases fb layout)
      (fun p : CaseLayout × ℕ =>
        lowerCase L next occ rest rows item (substAt layout args) p.2 p.1)
      (fb.forkMany occ.value item layout.cases.length) (fun x _ => lowerCase_grows hnext hoccs) (hformed.forkMany _ _ _)
      (hN.trans hfork.nextValue) (switchCases_empty hs layout _ _) hnodup hrun
    refine ⟨⟨hfork.toBelow.trans hbelow, fun {i p} hi hp => ?_⟩, hformed'⟩
    refine hkept (fun x hx heq => ?_) (hfork.kept hi hp)
    have hlt : i < fb.blocks.length := (List.getElem?_eq_some_iff.mp hp).choose
    have hindex : x.2.index ∈ List.range' fb.blocks.length layout.cases.length := by
      rw [← switchCases_index]
      exact List.mem_map_of_mem (f := fun z => z.2.index) hx
    have hge := (List.mem_range'_1.mp hindex).1
    omega

theorem lowerDecision_cons (L : Lowering) (lowerArm : ArmSink → ℕ → Build Unit) (sink : ArmSink)
    (n : ℕ) (rows : List MatrixRow) (occ : Occurrence) (rest : List Occurrence) :
    lowerDecision L lowerArm sink (n + 1) rows (occ :: rest) =
      if ((declarationOf occ.ty).bind fun p => L.module.findVariant p.1).isSome then
        lowerVariantSwitch L (lowerDecision L lowerArm sink n) occ rest rows
      else if occ.ty = .bool then lowerBoolSwitch L (lowerDecision L lowerArm sink n) occ rest rows
      else lowerLiteralChain L (lowerDecision L lowerArm sink n) occ rest rows := by
  rw [lowerDecision]
  split
  · rfl
  · cases occ.ty <;> simp

/-- A whole decision grows the builder, by induction on the depth. -/
theorem lowerDecision_grows (L : Lowering) (arm : ArmLowering) (sink : ArmSink) (n : ℕ) :
    GrowsFrom (lowerDecision L arm.lower sink n) := by
  induction n with
  | zero =>
    intro rows occs N hoccs fb fb' code hformed hs hN h
    cases h
  | succ n ih =>
    intro rows occs N hoccs fb fb' code hformed hs hN h
    cases occs with
    | nil =>
      unfold lowerDecision at h
      cases hwinner : rows.head? with
      | none =>
        rw [hwinner] at h
        cases h
      | some winner =>
        simp only [hwinner] at h
        obtain ⟨body, hbody, hemits, hformed', -⟩ := run_enterArm L winner hformed hs
        rw [run_bind_ok hbody] at h
        obtain ⟨hgrows, hformed''⟩ := arm.grows hformed' (hemits.stands hs) h
        exact ⟨hemits.grows.trans hgrows (.inl hemits.current), hformed''⟩
    | cons occ rest =>
      rw [lowerDecision_cons] at h
      split at h
      · rename_i hvariant
        obtain ⟨layout, hlayout⟩ := Option.isSome_iff_exists.mp hvariant
        obtain ⟨⟨item, args⟩, hdecl, hfind⟩ := Option.bind_eq_some_iff.mp hlayout
        exact lowerVariantSwitch_grows hdecl hfind ih hoccs hformed hs hN h
      · split at h
        · exact lowerBoolSwitch_grows ih hoccs hformed hs hN h
        · exact lowerLiteralChain_grows ih hoccs hformed hs hN h

end

end

end Napitia.Lower
