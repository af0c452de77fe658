import Napitia.Lower.Decision

/-!
# The leaves of a decision

Which arms a decision comes to, leaf by leaf, in the order their bodies are lowered. Only
the patterns of the arms and the types of the occurrences decide it. A switch over no
cases ends its block without a leaf.
-/
namespace Napitia.Lower
open Nir

/-- An arm still in question, with its slots for the occurrences that are left. -/
structure Candidate where
  arm : ℕ
  slots : List PatternSlot

/-- What a row is for the decision. -/
def MatrixRow.candidate (r : MatrixRow) : Candidate := ⟨r.armIndex, r.patterns⟩

namespace Candidate

def head (c : Candidate) : PatternSlot := c.slots.headD .wildcard

/-- The candidate past the first occurrence, with slots for what lies inside it. -/
def past (inside : List PatternSlot) (c : Candidate) : Candidate :=
  { c with slots := inside ++ c.slots.tail }

end Candidate

section
variable (L : Lowering)

/-- The candidate where the occurrence is the literal. -/
def Lowering.staysLiteral (lit : LiteralTest) (c : Candidate) : Option Candidate :=
  match L.classify c.head with
  | .literal l => if l = lit then some (c.past []) else none
  | .wildcard | .bind _ => some (c.past [])
  | .case .. => none

/-- The candidate where the occurrence is of the case. -/
def Lowering.staysCase (item : ItemId) (case arity : ℕ) (c : Candidate) : Option Candidate :=
  match L.classify c.head with
  | .case variant k args =>
    if variant = item ∧ k = case then some (c.past (args.map .real)) else none
  | .bind _ => some (c.past (List.replicate arity .owned))
  | .wildcard => some (c.past (List.replicate arity (match c.head with
      | .owned => .owned
      | _ => .wildcard)))
  | .literal _ => none

/-- The payload types of a case at an occurrence of this type. -/
def casePayload (layout : VariantLayout) (args : List Ty) (case : CaseLayout) : List Ty :=
  case.payload.map fun ty => substitute ty
    (((layout.typeParams.map (·.1)).zip args).foldl (fun s p => s.insert p.1 p.2) ∅)

/-- A column that no candidate tests has no switch. -/
def Lowering.variantLeaves (next : List Candidate → List Ty → List (Option ℕ)) (item : ItemId)
    (args : List Ty) (layout : VariantLayout) (rest : List Ty) (cs : List Candidate) :
    List (Option ℕ) :=
  if !cs.any fun c => (L.classify c.head).isCase then next (cs.map (·.past [])) rest
  else if layout.cases = [] then [none]
  else layout.cases.zipIdx.flatMap fun case =>
    next (cs.filterMap (L.staysCase item case.2 case.1.payload.length))
      (casePayload layout args case.1 ++ rest)

def Lowering.boolLeaves (next : List Candidate → List Ty → List (Option ℕ)) (rest : List Ty)
    (cs : List Candidate) : List (Option ℕ) :=
  if !cs.any fun c => (L.classify c.head).isBool then next (cs.map (·.past [])) rest
  else next (cs.filterMap (L.staysLiteral (.bool true))) rest ++
    next (cs.filterMap (L.staysLiteral (.bool false))) rest

def Lowering.literalLeaves (next : List Candidate → List Ty → List (Option ℕ)) (ty : Ty)
    (rest : List Ty) (cs : List Candidate) : List (Option ℕ) :=
  match cs.head? with
  | none => []
  | some first =>
    match L.classify first.head with
    | .wildcard | .bind _ => next [first.past []] rest
    | .literal lit => next (cs.filterMap (L.staysLiteral lit)) rest ++
        next (cs.filter fun c => !(L.classify c.head).isLiteral lit) (ty :: rest)
    | .case .. => []

def Lowering.leaves : ℕ → List Candidate → List Ty → List (Option ℕ)
  | 0, _, _ => []
  | _ + 1, cs, [] => (cs.head?.map fun c => some c.arm).toList
  | n + 1, cs, ty :: rest =>
    match (declarationOf ty).bind fun p => (L.module.findVariant p.1).map fun v => (p, v) with
    | some (p, layout) => L.variantLeaves (leaves n) p.1 p.2 layout rest cs
    | none => match ty with
      | .bool => L.boolLeaves (leaves n) rest cs
      | _ => L.literalLeaves (leaves n) ty rest cs

/-- The leaves of a `match` on a value of this type. -/
def Lowering.matchLeaves (ty : Ty) (arms : List HirPattern) : List (Option ℕ) :=
  L.leaves (Limits.maxPatternDepth + 1)
    (arms.zipIdx.map fun arm => ⟨arm.2, [.real arm.1]⟩) [ty]

/-! ### Rows as candidates -/

section
variable {L} (occ : Occurrence) (r : MatrixRow)

@[simp] theorem head_candidate : r.candidate.head = r.head := rfl

theorem candidate_untested : (L.untested occ r).candidate = r.candidate.past [] := by
  unfold Lowering.untested
  split <;> rfl

theorem keepLiteral_candidate (lit : LiteralTest) :
    (L.keepLiteral lit occ r).map MatrixRow.candidate = L.staysLiteral lit r.candidate := by
  unfold Lowering.keepLiteral Lowering.staysLiteral
  rw [head_candidate]
  cases L.classify r.head with
  | literal l =>
    by_cases h : l = lit
    · simp [h, MatrixRow.tested, MatrixRow.candidate, Candidate.past]
    · simp [h]
  | wildcard => rfl
  | bind binding => rfl
  | case variant case args => rfl

theorem keepCase_candidate {item : ItemId} {case arity : ℕ} {kept : Option MatrixRow}
    (h : L.keepCase item case arity occ r = .ok kept) :
    kept.map MatrixRow.candidate = L.staysCase item case arity r.candidate := by
  unfold Lowering.keepCase at h
  unfold Lowering.staysCase
  rw [head_candidate]
  cases hc : L.classify r.head with
  | literal l =>
    rw [hc] at h
    cases h
    rfl
  | bind binding =>
    rw [hc] at h
    cases h
    rfl
  | wildcard =>
    rw [hc] at h
    cases h
    rfl
  | case variant k args =>
    simp only [hc] at h ⊢
    by_cases hkey : variant = item ∧ k = case
    · rw [if_pos hkey] at h ⊢
      split at h
      · cases h
      · cases h
        rfl
    · rw [if_neg hkey] at h ⊢
      cases h
      rfl

theorem any_candidate (tests : Classified → Bool) (rows : List MatrixRow) :
    ((rows.map MatrixRow.candidate).any fun c => tests (L.classify c.head)) =
      rows.any fun r => tests (L.classify r.head) := by
  rw [List.any_map]
  rfl

theorem untested_candidates (rows : List MatrixRow) :
    (rows.map (L.untested occ)).map MatrixRow.candidate =
      (rows.map MatrixRow.candidate).map (·.past []) := by
  rw [List.map_map, List.map_map]
  exact List.map_congr_left fun r _ => candidate_untested occ r

theorem keepLiteral_candidates (lit : LiteralTest) (rows : List MatrixRow) :
    (rows.filterMap (L.keepLiteral lit occ)).map MatrixRow.candidate =
      (rows.map MatrixRow.candidate).filterMap (L.staysLiteral lit) := by
  rw [List.map_filterMap, List.filterMap_map]
  exact List.filterMap_congr fun r _ => keepLiteral_candidate occ r lit

theorem keepCase_candidates {item : ItemId} {case arity : ℕ} {rows : List MatrixRow}
    {kept : List (Option MatrixRow)} (h : rows.mapM (L.keepCase item case arity occ) = .ok kept) :
    kept.reduceOption.map MatrixRow.candidate =
      (rows.map MatrixRow.candidate).filterMap (L.staysCase item case arity) := by
  induction rows generalizing kept with
  | nil =>
    cases h
    rfl
  | cons r rows ih =>
    rw [List.mapM_cons] at h
    cases hr : L.keepCase item case arity occ r with
    | error e =>
      rw [hr] at h
      cases h
    | ok k =>
      cases hrows : rows.mapM (L.keepCase item case arity occ) with
      | error e =>
        rw [hr, hrows] at h
        cases h
      | ok ks =>
        rw [hr, hrows] at h
        cases h
        have hk := keepCase_candidate occ r hr
        have hks := ih hrows
        rw [List.map_cons, List.filterMap_cons, ← hk, ← hks]
        cases k <;> rfl

theorem others_candidates (lit : LiteralTest) (rows : List MatrixRow) :
    (rows.filter fun r => !(L.classify r.head).isLiteral lit).map MatrixRow.candidate =
      (rows.map MatrixRow.candidate).filter fun c => !(L.classify c.head).isLiteral lit := by
  rw [List.filter_map]
  rfl

end

end

end Napitia.Lower
