import Napitia.Typeck.Usefulness

/-!
# The pattern reported missing

The witness of a useful row is put together on the way out of the walk, each case
gathering as many positions as its payload has. It is a row of patterns at the types
of the walk, and it matches values that no row of the matrix does.
-/
namespace Napitia.Typeck

section
variable (variants : VariantSpace) (D : OpenDomain)

/-- A row at the types that matches values the matrix does not cover. -/
def Separates (matrix : List Row) (tys : List Ty) (witness : Row) : Prop :=
  RowTyped variants D tys witness ∧ Useful variants D matrix witness tys

end

/-- Every witness the analysis may end with is as described. -/
def Witnesses (x : StateM ℕ Usefulness) (good : Row → Prop) : Prop :=
  ∀ b witness, (x.run b).1 = .useful witness → good witness

section
variable {good good' : Row → Prop} {x : StateM ℕ Usefulness}

theorem Witnesses.map (h : Witnesses x good) {f : Row → Row} (hf : ∀ w, good w → good' (f w)) :
    Witnesses (do pure ((← x).map f)) good' := by
  intro b witness hw
  have hrun : ((x.run b).1.map f) = .useful witness := hw
  cases hu : (x.run b).1 with
  | useful w =>
    rw [hu] at hrun
    cases hrun
    exact hf w (h b w hu)
  | notUseful =>
    rw [hu] at hrun
    cases hrun
  | budgetExceeded =>
    rw [hu] at hrun
    cases hrun

theorem Witnesses.charged (h : Witnesses x good) :
    Witnesses (do
      if (← get) = 0 then return .budgetExceeded
      modify (· - 1)
      x) good := by
  intro b witness hw
  by_cases hb : b = 0
  · subst hb
    cases hw
  · have hrun : (x.run (b - 1)).1 = .useful witness := by simpa [hb] using hw
    exact h (b - 1) witness hrun

theorem Witnesses.answer {u : Usefulness} (h : ∀ w, u = .useful w → good w) :
    Witnesses (pure u) good :=
  fun _ w hw => h w hw

theorem tryEach_witnesses {α : Type} {l : List α} {f : α → StateM ℕ Usefulness}
    (h : ∀ a ∈ l, Witnesses (f a) good) : Witnesses (tryEach (l.map f)) good := by
  induction l with
  | nil =>
    intro b witness hw
    cases hw
  | cons a l ih =>
    intro b witness hw
    have hrest := ih fun a' ha' => h a' (List.mem_cons_of_mem _ ha')
    rw [List.map_cons, tryEach_cons_run] at hw
    cases hfirst : ((f a).run b).1 with
    | useful w =>
      rw [hfirst] at hw
      cases hw
      exact h a List.mem_cons_self b _ hfirst
    | notUseful =>
      rw [hfirst] at hw
      exact hrest _ witness hw
    | budgetExceeded =>
      rw [hfirst] at hw
      cases hw

end

section
variable {variants : VariantSpace} {D : OpenDomain} {matrix : List Row} {ty : Ty} {tys : List Ty}
  {witness : Row}

theorem Separates.gather {item : ItemId} {cases : List (List Ty)} {case : ℕ} {payload : List Ty}
    (hspace : space variants ty = .variant item cases) (hcase : cases[case]? = some payload)
    (htyped : ∀ r ∈ matrix, RowTyped variants D (ty :: tys) r)
    (h : Separates variants D (specializeVariant matrix item case payload.length) (payload ++ tys)
      witness) :
    Separates variants D matrix (ty :: tys) (gatherCase item case payload.length witness) := by
  obtain ⟨hrow, huseful⟩ := h
  have hargs : RowTyped variants D payload (witness.take payload.length) :=
    List.forall₂_take_append _ _ _ hrow
  have hrest : RowTyped variants D tys (witness.drop payload.length) :=
    List.forall₂_drop_append _ _ _ hrow
  refine ⟨.cons (.variant hspace hcase hargs) hrest, ?_⟩
  rw [gatherCase, useful_variant hspace hcase hargs htyped, hargs.length_eq,
    List.take_append_drop]
  exact huseful

theorem Separates.bool {b : Bool} (hspace : space variants ty = .bool)
    (htyped : ∀ r ∈ matrix, RowTyped variants D (ty :: tys) r)
    (h : Separates variants D (specializeBool matrix b) tys witness) :
    Separates variants D matrix (ty :: tys) (.bool b :: witness) :=
  ⟨.cons (.bool hspace) h.1, (useful_bool hspace htyped).mpr h.2⟩

theorem Separates.literal {key : LiteralKey} (hspace : space variants ty = .openEnded)
    (hkey : D.literal key ∈ D.inhabits ty)
    (htyped : ∀ r ∈ matrix, RowTyped variants D (ty :: tys) r)
    (h : Separates variants D (specializeLiteral matrix key) tys witness) :
    Separates variants D matrix (ty :: tys) (.literal key :: witness) :=
  ⟨.cons (.literal hspace hkey) h.1, (useful_literal hspace hkey htyped).mpr h.2⟩

theorem Separates.wildcard (hspace : space variants ty = .openEnded)
    (htyped : ∀ r ∈ matrix, RowTyped variants D (ty :: tys) r)
    (h : Separates variants D (defaultMatrix matrix) tys witness) :
    Separates variants D matrix (ty :: tys) (.wildcard :: witness) :=
  ⟨.cons .wildcard h.1, (useful_wildcard_open hspace htyped).mpr h.2⟩

theorem witnesses_wildcard {n : ℕ} {rest : Row}
    (ih : ∀ {matrix : List Row} {row : Row} {tys : List Ty},
      (∀ r ∈ matrix, RowTyped variants D tys r) → RowTyped variants D tys row →
      Witnesses (isUsefulAtDepth variants n matrix row tys) (Separates variants D matrix tys))
    (htyped : ∀ r ∈ matrix, RowTyped variants D (ty :: tys) r)
    (hrest : RowTyped variants D tys rest) :
    Witnesses (match space variants ty with
      | .bool => tryEach ([false, true].map fun b => do
          let found ← isUsefulAtDepth variants n (specializeBool matrix b) rest tys
          pure (found.map (.bool b :: ·)))
      | .variant item cases => tryEach (cases.zipIdx.map fun p => do
          let found ← isUsefulAtDepth variants n
            (specializeVariant matrix item p.2 p.1.length)
            (List.replicate p.1.length .wildcard ++ rest) (p.1 ++ tys)
          pure (found.map (gatherCase item p.2 p.1.length)))
      | .openEnded => do
        let found ← isUsefulAtDepth variants n (defaultMatrix matrix) rest tys
        pure (found.map (.wildcard :: ·)))
      (Separates variants D matrix (ty :: tys)) := by
  cases hspace : space variants ty with
  | bool =>
    apply tryEach_witnesses
    intro b _
    exact (ih (rowTyped_specializeBool htyped) hrest).map fun w hw => hw.bool hspace htyped
  | «variant» item cases =>
    apply tryEach_witnesses
    intro p hp
    have hcase : cases[p.2]? = some p.1 := List.mem_zipIdx_iff_getElem?.mp hp
    have hspecial := rowTyped_specializeVariant hspace hcase htyped
    exact (ih hspecial ((rowTyped_replicate p.1).append hrest)).map
      fun w hw => hw.gather hspace hcase htyped
  | openEnded =>
    exact (ih (rowTyped_defaultMatrix htyped) hrest).map fun w hw => hw.wildcard hspace htyped

theorem isUsefulAtDepth_witnesses {n : ℕ} {row : Row}
    (htyped : ∀ r ∈ matrix, RowTyped variants D tys r) (hrow : RowTyped variants D tys row) :
    Witnesses (isUsefulAtDepth variants n matrix row tys) (Separates variants D matrix tys) := by
  induction n generalizing matrix row tys with
  | zero => exact fun _ _ hw => by cases hw
  | succ n ih =>
    unfold isUsefulAtDepth
    apply Witnesses.charged
    cases hrow with
    | nil =>
      apply Witnesses.answer
      intro w hw
      cases matrix with
      | nil =>
        cases hw
        exact ⟨.nil, useful_nil.mpr (.inl rfl)⟩
      | cons r rs => cases hw
    | @cons p ty rest tys hp hrest =>
      cases p with
      | wildcard => exact witnesses_wildcard ih htyped hrest
      | bool c =>
        cases hp with
        | bool hspace =>
          exact (ih (rowTyped_specializeBool htyped) hrest).map fun w hw => hw.bool hspace htyped
      | literal key =>
        cases hp with
        | literal hspace hkey =>
          exact (ih (rowTyped_specializeLiteral htyped) hrest).map
            fun w hw => hw.literal hspace hkey htyped
      | «variant» item case args =>
        cases hp with
        | variant hspace hcase hargs =>
          have hargs : RowTyped variants D _ args := hargs
          have hspecial := rowTyped_specializeVariant hspace hcase htyped
          dsimp only
          rw [patternPayload_eq hspace hcase, hargs.length_eq]
          exact (ih hspecial (hargs.append hrest)).map fun w hw => hw.gather hspace hcase htyped

/-! ### The analysis of a `match` -/

/-- The arms the loop has been through are the rows of its matrix, whatever else it
has found out. -/
theorem checkArms_matrix {rest : List (ResolvedPattern × ℕ)} {checked : ArmsChecked} {b : ℕ}
    (h : ((checkArms variants ty rest checked).run b).1.budgetExceeded = false) :
    ((checkArms variants ty rest checked).run b).1.matrix =
      checked.matrix ++ rest.map fun p => [p.1] := by
  induction rest generalizing checked b with
  | nil => exact (List.append_nil _).symm
  | cons p rest ih =>
    obtain ⟨pattern, i⟩ := p
    rw [checkArms_cons_run] at h ⊢
    generalize (isUseful variants checked.matrix [pattern] [ty]).run b = verdict at h ⊢
    obtain ⟨u, b'⟩ := verdict
    cases u with
    | useful w =>
      dsimp only at h ⊢
      rw [ih h]
      simp [ArmsChecked.push]
    | notUseful =>
      dsimp only at h ⊢
      rw [ih h]
      simp [ArmsChecked.push, ArmsChecked.mark]
    | budgetExceeded => cases h

/-- What a `match` is reported to miss is a pattern of the scrutinee's type, and some
value that matches it is matched by no arm. -/
theorem analyzeMatch_missing {patterns : List ResolvedPattern} {witness : ResolvedPattern}
    (htyped : ∀ p ∈ patterns, Typed variants D p ty)
    (hmissing : (analyzeMatch ty patterns variants).missing = some witness) :
    Typed variants D witness ty ∧
      ∃ v, Inhabits variants D v ty ∧ witness.Matches v ∧ ∀ p ∈ patterns, ¬ p.Matches v := by
  unfold analyzeMatch analyzeMatchWithBudget at hmissing
  have hmatrix := @checkArms_matrix variants ty patterns.zipIdx {} maxUsefulnessSteps
  generalize (checkArms variants ty patterns.zipIdx {}).run maxUsefulnessSteps = loop
    at hmissing hmatrix
  obtain ⟨checked, b⟩ := loop
  dsimp only at hmissing hmatrix
  cases hexceeded : checked.budgetExceeded with
  | true => simp [hexceeded] at hmissing
  | false =>
    have hrows : checked.matrix = patterns.map fun p => [p] := by
      have harms := congrArg (List.map fun p => [p]) (List.zipIdx_map_fst 0 patterns)
      rw [List.map_map] at harms
      rw [hmatrix hexceeded, List.nil_append]
      exact harms
    simp only [hexceeded, Bool.false_eq_true, if_false, hrows] at hmissing
    have hwitnesses := isUsefulAtDepth_witnesses (n := Limits.maxPatternDepth + 1)
      (rowTyped_arms htyped) (.cons .wildcard .nil : RowTyped variants D [ty] [.wildcard])
    cases hu : ((isUseful variants (patterns.map fun p => [p]) [.wildcard] [ty]).run b).1 with
    | useful w =>
      obtain ⟨hrow, huseful⟩ := hwitnesses b w hu
      obtain ⟨p, ps, rfl, hp, hps⟩ := hrow.cons_inv
      cases hps
      rw [hu] at hmissing
      cases hmissing
      exact ⟨hp, useful_arm.mp huseful⟩
    | notUseful =>
      rw [hu] at hmissing
      cases hmissing
    | budgetExceeded =>
      rw [hu] at hmissing
      cases hmissing

/-- Over a `Maybe[bool]`, an arm for `Some(true)` alone leaves `Some(false)` out. -/
theorem analyzeMatch_missing_maybe :
    (analyzeMatch (.applied ⟨0⟩ [.bool]) [.variant ⟨0⟩ 0 [.bool true]] maybeSpace).missing =
        some (.variant ⟨0⟩ 0 [.bool false]) ∧
      Typed maybeSpace plainDomain (.variant ⟨0⟩ 0 [.bool false]) (.applied ⟨0⟩ [.bool]) ∧
      ∃ v, Inhabits maybeSpace plainDomain v (.applied ⟨0⟩ [.bool]) ∧
        (ResolvedPattern.variant ⟨0⟩ 0 [.bool false]).Matches v ∧
        ∀ p ∈ [ResolvedPattern.variant ⟨0⟩ 0 [.bool true]], ¬ p.Matches v := by
  have hspace : space maybeSpace (.applied ⟨0⟩ [.bool]) = .variant ⟨0⟩ [[.bool], []] := rfl
  have htyped : ∀ p ∈ [ResolvedPattern.variant ⟨0⟩ 0 [.bool true]],
      Typed maybeSpace plainDomain p (.applied ⟨0⟩ [.bool]) := by
    intro p hp
    obtain rfl := List.mem_singleton.mp hp
    exact .variant hspace rfl (.cons (.bool rfl) .nil)
  have hmissing : (analyzeMatch (.applied ⟨0⟩ [.bool]) [.variant ⟨0⟩ 0 [.bool true]]
      maybeSpace).missing = some (.variant ⟨0⟩ 0 [.bool false]) := rfl
  exact ⟨hmissing, analyzeMatch_missing htyped hmissing⟩

end

end Napitia.Typeck
