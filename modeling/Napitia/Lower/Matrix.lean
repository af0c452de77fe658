import Napitia.Lower.Decision
import Napitia.Typeck.Usefulness

/-!
# The matrix of a decision, as typeck reads it

A row of the decision tree, with every name resolved, is a row of the analysis
behind exhaustiveness. Keeping the rows of one literal, of one case or of an
untested column is then the specialization the analysis itself uses.
-/
namespace Napitia.Lower
open Nir Typeck

/-- The declared variants of a module, as the analysis of a `match` is given them. -/
def spaceOf (m : Module) : VariantSpace where
  payloads := List.toAList (m.variants.map fun e => ⟨e.1, e.2.cases.map (·.payload)⟩)
  typeParams := List.toAList (m.variants.map fun e => ⟨e.1, e.2.typeParams.map (·.1)⟩)

private theorem dlookup_map_eq_find {β γ : Type} (f : γ → β) (item : ItemId)
    (entries : List (ItemId × γ)) :
    List.dlookup item (entries.map fun e => (⟨e.1, f e.2⟩ : Σ _ : ItemId, β)) =
      (entries.find? (·.1 = item)).map fun e => f e.2 := by
  induction entries with
  | nil => rfl
  | cons e entries ih =>
    by_cases he : e.1 = item
    · subst he
      simp
    · rw [List.map_cons, List.dlookup_cons_ne _ _ (Ne.symm he), ih, List.find?_cons_of_neg (by simpa)]

theorem spaceOf_payloads (m : Module) (item : ItemId) :
    (spaceOf m).payloads.lookup item =
      (m.findVariant item).map fun v => v.cases.map (·.payload) := by
  refine (AList.lookup_to_alist _).trans ?_
  refine (dlookup_map_eq_find (fun v : VariantLayout => v.cases.map (·.payload)) _ _).trans ?_
  rw [Module.findVariant, Option.map_map]
  rfl

theorem spaceOf_typeParams (m : Module) (item : ItemId) :
    (spaceOf m).typeParams.lookup item =
      (m.findVariant item).map fun v => v.typeParams.map (·.1) := by
  refine (AList.lookup_to_alist _).trans ?_
  refine (dlookup_map_eq_find (fun v : VariantLayout => v.typeParams.map (·.1)) _ _).trans ?_
  rw [Module.findVariant, Option.map_map]
  rfl

mutual

theorem substituteAtDepth_of_isEmpty {subst : Subst} (hempty : subst.entries.isEmpty = true) :
    ∀ (n : ℕ) (ty : Ty), substituteAtDepth subst n ty = ty
  | 0, ty => by simp [substituteAtDepth]
  | n + 1, .applied item args => by
    simp [substituteAtDepth, map_substituteAtDepth_of_isEmpty hempty n args]
  | n + 1, .param id => by
    have hnone : subst.lookup id = none := by
      rw [AList.lookup_eq_none, AList.mem_keys, AList.keys, List.isEmpty_iff.mp hempty]
      simp
    simp [substituteAtDepth, hnone]
  | n + 1, .i8 | n + 1, .i16 | n + 1, .i32 | n + 1, .i64 | n + 1, .isize | n + 1, .u8
  | n + 1, .u16 | n + 1, .u32 | n + 1, .u64 | n + 1, .usize | n + 1, .f32 | n + 1, .f64
  | n + 1, .bool | n + 1, .char | n + 1, .str | n + 1, .unit | n + 1, .never | n + 1, .var _
  | n + 1, .named _ | n + 1, .error => by simp [substituteAtDepth]

theorem map_substituteAtDepth_of_isEmpty {subst : Subst} (hempty : subst.entries.isEmpty = true) :
    ∀ (n : ℕ) (tys : List Ty), tys.map (substituteAtDepth subst n) = tys
  | _, [] => rfl
  | n, ty :: tys => by
    simp [substituteAtDepth_of_isEmpty hempty n ty, map_substituteAtDepth_of_isEmpty hempty n tys]

end

theorem instantiate_eq_map (subst : Subst) (payload : List Ty) :
    instantiate subst payload = payload.map fun ty => substitute ty subst := by
  unfold instantiate
  split
  · rename_i hempty
    exact (map_substituteAtDepth_of_isEmpty hempty _ payload).symm
  · rfl

theorem space_variant {m : Module} {ty : Ty} {item : ItemId} {cases : List (List Ty)}
    (h : space (spaceOf m) ty = .variant item cases) :
    ∃ args layout, (ty = .named item ∧ args = [] ∨ ty = .applied item args) ∧
      m.findVariant item = some layout ∧
      cases = layout.cases.map fun c => c.payload.map fun t => substitute t
        (((layout.typeParams.map (·.1)).zip args).foldl (fun s p => s.insert p.1 p.2) ∅) := by
  have hitem : ∀ i args, variantSpace (spaceOf m) i args = .variant item cases →
      i = item ∧ ∃ layout, m.findVariant item = some layout ∧
        cases = layout.cases.map fun c => c.payload.map fun t => substitute t
          (((layout.typeParams.map (·.1)).zip args).foldl (fun s p => s.insert p.1 p.2) ∅) := by
    intro i args hv
    unfold variantSpace at hv
    rw [spaceOf_payloads] at hv
    cases hfind : m.findVariant i with
    | none => simp [hfind] at hv
    | some layout =>
      simp only [hfind, Option.map_some, Space.variant.injEq] at hv
      obtain ⟨rfl, rfl⟩ := hv
      refine ⟨rfl, layout, hfind, ?_⟩
      simp [payloadSubst, spaceOf_typeParams, hfind, instantiate_eq_map, List.map_map,
        Function.comp_def]
  cases ty with
  | named i =>
    obtain ⟨rfl, layout, hfind, hcases⟩ := hitem i [] h
    exact ⟨[], layout, .inl ⟨rfl, rfl⟩, hfind, hcases⟩
  | applied i args =>
    obtain ⟨rfl, layout, hfind, hcases⟩ := hitem i args h
    exact ⟨args, layout, .inr rfl, hfind, hcases⟩
  | _ => simp [space] at h

/-- A literal, as the pattern that tests it. -/
def LiteralTest.resolved : LiteralTest → ResolvedPattern
  | .int value => .literal (.int value)
  | .str value => .literal (.str value)
  | .char value => .literal (.char value)
  | .bool value => .bool value

theorem LiteralTest.resolved_injective : Function.Injective LiteralTest.resolved := by
  intro a b h
  cases a <;> cases b <;> simp_all [LiteralTest.resolved]

section
variable (L : Lowering)

mutual

/-- The pattern typeck hands to the analysis. -/
def Lowering.resolvePattern : HirPattern → ResolvedPattern
  | .wildcard _ => .wildcard
  | .bind id _ =>
    match L.patternCase.lookup id with
    | some (variant, case) => .variant variant case []
    | none => .wildcard
  | .variant id args =>
    match L.patternCase.lookup id with
    | some (variant, case) => .variant variant case (Lowering.resolvePatterns args)
    | none => .variant ⟨2 ^ 32 - 1⟩ (2 ^ 64 - 1) (Lowering.resolvePatterns args)
  | .int value => .literal (.int value)
  | .str value => .literal (.str value)
  | .char value => .literal (.char value)
  | .bool value => .bool value

def Lowering.resolvePatterns : List HirPattern → List ResolvedPattern
  | [] => []
  | p :: ps => Lowering.resolvePattern p :: Lowering.resolvePatterns ps

end

theorem resolvePatterns_eq_map (ps : List HirPattern) :
    L.resolvePatterns ps = ps.map L.resolvePattern := by
  induction ps with
  | nil => simp [Lowering.resolvePatterns]
  | cons p ps ih => simp [Lowering.resolvePatterns, ih]

def Lowering.resolveSlot : PatternSlot → ResolvedPattern
  | .wildcard | .owned => .wildcard
  | .real p => L.resolvePattern p

/-- The row of the analysis a row of the decision stands for. -/
def Lowering.resolveRow (r : MatrixRow) : Row := r.patterns.map L.resolveSlot

/-- What a classified slot is to the analysis. -/
def Lowering.resolveClass : Classified → ResolvedPattern
  | .wildcard | .bind _ => .wildcard
  | .case variant case args => .variant variant case (args.map L.resolvePattern)
  | .literal test => test.resolved

variable {L}

theorem resolveSlot_eq (slot : PatternSlot) :
    L.resolveSlot slot = L.resolveClass (L.classify slot) := by
  cases slot with
  | wildcard => rfl
  | owned => rfl
  | real p =>
    cases p with
    | wildcard id => simp [Lowering.resolveSlot, Lowering.resolvePattern, Lowering.classify,
        Lowering.resolveClass]
    | bind id binding =>
      cases hcase : L.patternCase.lookup id <;>
        simp [Lowering.resolveSlot, Lowering.resolvePattern, Lowering.classify,
          Lowering.resolveClass, hcase]
    | «variant» id args =>
      cases hcase : L.patternCase.lookup id <;>
        simp [Lowering.resolveSlot, Lowering.resolvePattern, Lowering.classify,
          Lowering.resolveClass, hcase, resolvePatterns_eq_map]
    | int value => simp [Lowering.resolveSlot, Lowering.resolvePattern, Lowering.classify,
        Lowering.resolveClass, LiteralTest.resolved]
    | str value => simp [Lowering.resolveSlot, Lowering.resolvePattern, Lowering.classify,
        Lowering.resolveClass, LiteralTest.resolved]
    | char value => simp [Lowering.resolveSlot, Lowering.resolvePattern, Lowering.classify,
        Lowering.resolveClass, LiteralTest.resolved]
    | bool value => simp [Lowering.resolveSlot, Lowering.resolvePattern, Lowering.classify,
        Lowering.resolveClass, LiteralTest.resolved]

theorem resolveRow_cons {r : MatrixRow} (hne : r.patterns ≠ []) :
    L.resolveRow r =
      L.resolveClass (L.classify r.head) :: r.patterns.tail.map L.resolveSlot := by
  obtain ⟨slot, rest, hr⟩ := List.exists_cons_of_ne_nil hne
  simp [Lowering.resolveRow, MatrixRow.head, hr, resolveSlot_eq]

@[simp] theorem resolveRow_tested (r : MatrixRow) :
    L.resolveRow r.tested = r.patterns.tail.map L.resolveSlot := rfl

@[simp] theorem resolveRow_bound (r : MatrixRow) (binding : LocalId) (occ : Occurrence) :
    L.resolveRow (r.bound binding occ) = r.patterns.tail.map L.resolveSlot := rfl

@[simp] theorem resolveRow_passed (r : MatrixRow) (occ : Occurrence) :
    L.resolveRow (r.passed occ) = r.patterns.tail.map L.resolveSlot := rfl

theorem resolveRow_untested (r : MatrixRow) (occ : Occurrence) :
    L.resolveRow (L.untested occ r) = r.patterns.tail.map L.resolveSlot := by
  unfold Lowering.untested
  cases L.classify r.head <;> rfl

/-! ### Specialization -/

/-- What a column of rows still asks of an occurrence: whether some row tests it. -/
def Tested (rows : List Row) : Prop := ∃ r ∈ rows, r.head? ≠ some .wildcard

section
variable {D : OpenDomain} {ty : Ty} {tys : List Ty}

/-- The rows of a decision stand at the types of its occurrences. -/
def RowsTyped (L : Lowering) (D : OpenDomain) (rows : List MatrixRow) (tys : List Ty) : Prop :=
  ∀ r ∈ rows, RowTyped (spaceOf L.module) D tys (L.resolveRow r)

theorem RowTyped.patterns_ne_nil {r : MatrixRow}
    (h : RowTyped (spaceOf L.module) D (ty :: tys) (L.resolveRow r)) : r.patterns ≠ [] := by
  intro hnil
  have hlen := h.length_eq
  simp [Lowering.resolveRow, hnil] at hlen

theorem RowTyped.head {r : MatrixRow}
    (h : RowTyped (spaceOf L.module) D (ty :: tys) (L.resolveRow r)) :
    Typed (spaceOf L.module) D (L.resolveClass (L.classify r.head)) ty := by
  rw [resolveRow_cons (RowTyped.patterns_ne_nil h)] at h
  cases h with
  | cons hp _ => exact hp

theorem resolve_keepLiteral_bool {rows : List MatrixRow} (occ : Occurrence) (b : Bool)
    (hrows : RowsTyped L D rows (ty :: tys)) :
    (rows.filterMap (L.keepLiteral (.bool b) occ)).map L.resolveRow =
      specializeBool (rows.map L.resolveRow) b := by
  rw [specializeBool, List.map_filterMap, List.filterMap_map]
  apply List.filterMap_congr
  intro r hr
  rw [Function.comp_apply, resolveRow_cons (RowTyped.patterns_ne_nil (hrows r hr))]
  unfold Lowering.keepLiteral
  cases hc : L.classify r.head with
  | wildcard => simp [Lowering.resolveClass]
  | bind binding => simp [Lowering.resolveClass]
  | case item c args => simp [Lowering.resolveClass]
  | literal test =>
    cases test with
    | bool c =>
      by_cases hcb : c = b <;> simp [Lowering.resolveClass, LiteralTest.resolved, hcb]
    | _ => simp [Lowering.resolveClass, LiteralTest.resolved]

/-- The literal an open column is tested for. -/
def LiteralTest.key : LiteralTest → Option LiteralKey
  | .int value => some (.int value)
  | .str value => some (.str value)
  | .char value => some (.char value)
  | .bool _ => none

theorem LiteralTest.resolved_of_key {test : LiteralTest} {key : LiteralKey}
    (h : test.key = some key) : test.resolved = .literal key := by
  cases test <;> simp_all [LiteralTest.key, LiteralTest.resolved]

theorem resolve_keepLiteral {rows : List MatrixRow} (occ : Occurrence) {lit : LiteralTest}
    {key : LiteralKey} (hkey : lit.key = some key) (hrows : RowsTyped L D rows (ty :: tys)) :
    (rows.filterMap (L.keepLiteral lit occ)).map L.resolveRow =
      specializeLiteral (rows.map L.resolveRow) key := by
  have hlit := LiteralTest.resolved_of_key hkey
  rw [specializeLiteral, List.map_filterMap, List.filterMap_map]
  apply List.filterMap_congr
  intro r hr
  rw [Function.comp_apply, resolveRow_cons (RowTyped.patterns_ne_nil (hrows r hr))]
  unfold Lowering.keepLiteral
  cases hc : L.classify r.head with
  | wildcard => simp [Lowering.resolveClass]
  | bind binding => simp [Lowering.resolveClass]
  | case item c args => simp [Lowering.resolveClass]
  | literal test =>
    by_cases htest : test = lit
    · subst htest
      simp [Lowering.resolveClass, hlit]
    · have hne : test.resolved ≠ .literal key := by
        rw [← hlit]
        exact fun h => htest (LiteralTest.resolved_injective h)
      cases test <;> simp_all [Lowering.resolveClass, LiteralTest.resolved]

/-- The rows that do not start with the literal. -/
def others (key : LiteralKey) (rows : List Row) : List Row :=
  rows.filter fun
    | .literal k :: _ => k ≠ key
    | _ => true

theorem resolve_others {rows : List MatrixRow} {lit : LiteralTest} {key : LiteralKey}
    (hkey : lit.key = some key) (hrows : RowsTyped L D rows (ty :: tys)) :
    (rows.filter fun r => !(L.classify r.head).isLiteral lit).map L.resolveRow =
      others key (rows.map L.resolveRow) := by
  have hlit := LiteralTest.resolved_of_key hkey
  rw [others, List.filter_map]
  congr 1
  apply List.filter_congr
  intro r hr
  rw [Function.comp_apply, resolveRow_cons (RowTyped.patterns_ne_nil (hrows r hr))]
  cases hc : L.classify r.head with
  | wildcard => simp [Lowering.resolveClass, Classified.isLiteral]
  | bind binding => simp [Lowering.resolveClass, Classified.isLiteral]
  | case item c args => simp [Lowering.resolveClass, Classified.isLiteral]
  | literal test =>
    have hiff : test = lit ↔ test.resolved = .literal key := by
      rw [← hlit]
      exact LiteralTest.resolved_injective.eq_iff.symm
    cases test <;> simp_all [Lowering.resolveClass, LiteralTest.resolved, Classified.isLiteral]

theorem resolve_untested {rows : List MatrixRow} (occ : Occurrence)
    (hrows : RowsTyped L D rows (ty :: tys)) (huntested : ¬ Tested (rows.map L.resolveRow)) :
    (rows.map (L.untested occ)).map L.resolveRow = defaultMatrix (rows.map L.resolveRow) := by
  rw [defaultMatrix, List.map_map, List.filterMap_map, ← List.filterMap_eq_map]
  apply List.filterMap_congr
  intro r hr
  have hhead : (L.resolveRow r).head? = some .wildcard := by
    by_contra hne
    exact huntested ⟨_, List.mem_map_of_mem hr, hne⟩
  rw [resolveRow_cons (RowTyped.patterns_ne_nil (hrows r hr))] at hhead
  simp only [List.head?_cons, Option.some.injEq] at hhead
  simp only [Function.comp_apply, resolveRow_untested]
  rw [resolveRow_cons (RowTyped.patterns_ne_nil (hrows r hr)), hhead]

/-- A constructor pattern stands at its own declaration, with as many arguments
as its case has payload positions. -/
theorem Typed.case_arity {item item' : ItemId} {cases : List (List Ty)} {c : ℕ}
    {args : List ResolvedPattern} (hspace : space (spaceOf L.module) ty = .variant item cases)
    (h : Typed (spaceOf L.module) D (.variant item' c args) ty) :
    item' = item ∧ ∃ payload, cases[c]? = some payload ∧ args.length = payload.length := by
  cases h with
  | «variant» hsp hc hargs =>
    rw [hspace] at hsp
    cases hsp
    exact ⟨rfl, _, hc, hargs.length_eq⟩

/-- Keeping the rows of one case never fails on typed rows, and is the
specialization of the analysis. -/
theorem resolve_keepCase {rows : List MatrixRow} (occ : Occurrence) {item : ItemId}
    {cases : List (List Ty)} {case : ℕ} {payload : List Ty}
    (hspace : space (spaceOf L.module) ty = .variant item cases)
    (hcase : cases[case]? = some payload) (hrows : RowsTyped L D rows (ty :: tys)) :
    ∃ kept, rows.mapM (L.keepCase item case payload.length occ) = .ok kept ∧
      kept.reduceOption.map L.resolveRow =
        specializeVariant (rows.map L.resolveRow) item case payload.length := by
  induction rows with
  | nil => exact ⟨[], rfl, rfl⟩
  | cons r rows ih =>
    obtain ⟨kept, hkept, hmap⟩ := ih fun r' hr' => hrows r' (by simp [hr'])
    have htyped := hrows r (by simp)
    have hhead := RowTyped.head htyped
    have hone : ∃ o, L.keepCase item case payload.length occ r = .ok o ∧
        (o.toList.map L.resolveRow) =
          specializeVariant [L.resolveRow r] item case payload.length := by
      rw [resolveRow_cons (RowTyped.patterns_ne_nil htyped)]
      unfold Lowering.keepCase
      cases hc : L.classify r.head with
      | wildcard =>
        refine ⟨_, rfl, ?_⟩
        have hslot : ∀ slot : PatternSlot, slot = .owned ∨ slot = .wildcard →
            L.resolveSlot slot = .wildcard := by
          rintro slot (rfl | rfl) <;> rfl
        cases hr : r.head <;>
          simp [specializeVariant, Lowering.resolveClass, Lowering.resolveRow, hslot]
      | bind binding =>
        refine ⟨_, rfl, ?_⟩
        simp [specializeVariant, Lowering.resolveClass, Lowering.resolveRow,
          Lowering.resolveSlot]
      | literal test =>
        refine ⟨_, rfl, ?_⟩
        cases test <;> simp [specializeVariant, Lowering.resolveClass, LiteralTest.resolved]
      | case item' c args =>
        rw [hc, Lowering.resolveClass] at hhead
        obtain ⟨rfl, payload', hpayload, harity⟩ := Typed.case_arity hspace hhead
        by_cases hcc : c = case
        · subst hcc
          rw [hcase] at hpayload
          cases hpayload
          rw [List.length_map] at harity
          refine ⟨_, by simp only [and_self, if_true, harity, ne_eq, not_true, if_false]; rfl, ?_⟩
          simp [specializeVariant, Lowering.resolveClass, Lowering.resolveRow, List.map_map,
            Function.comp_def, Lowering.resolveSlot]
        · refine ⟨none, by simp only [hcc, and_false, if_false]; rfl, ?_⟩
          simp [specializeVariant, Lowering.resolveClass, hcc]
    obtain ⟨o, ho, homap⟩ := hone
    refine ⟨o :: kept, ?_, ?_⟩
    · rw [List.mapM_cons, ho, hkept]
      rfl
    · have hsplit : specializeVariant ((r :: rows).map L.resolveRow) item case payload.length =
          specializeVariant [L.resolveRow r] item case payload.length ++
            specializeVariant (rows.map L.resolveRow) item case payload.length := by
        rw [specializeVariant, specializeVariant, specializeVariant, ← List.filterMap_append]
        rfl
      rw [hsplit, ← homap, ← hmap]
      cases o <;> rfl

end

end

end Napitia.Lower
