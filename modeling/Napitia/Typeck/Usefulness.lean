import Mathlib.Data.Set.Finite.Basic
import Napitia.Typeck.Exhaustive

/-!
# What the analysis of a `match` decides

The values a pattern is tested against, what it means for one to match, and that
the usefulness walk decides exactly whether some value matches a row and no row
before it. The exactness of the whole analysis follows arm by arm.
-/
namespace Napitia.Typeck

/-- The values of the types whose constructors are not enumerated. Each such type
has infinitely many of them, and each literal is one value. -/
structure OpenDomain where
  Carrier : Type
  literal : LiteralKey → Carrier
  literal_injective : Function.Injective literal
  inhabits : Ty → Set Carrier
  infinite : ∀ ty, (inhabits ty).Infinite

/-- A value, as far as a pattern can tell. -/
inductive Datum (D : OpenDomain) where
  | bool (value : Bool)
  | atom (value : D.Carrier)
  | variant (item : ItemId) (case : ℕ) (payload : List (Datum D))

section
variable (variants : VariantSpace) (D : OpenDomain)

/-- A value of a type. -/
inductive Inhabits : Datum D → Ty → Prop
  | bool {b : Bool} {ty : Ty} : space variants ty = .bool → Inhabits (.bool b) ty
  | atom {x : D.Carrier} {ty : Ty} : space variants ty = .openEnded → x ∈ D.inhabits ty →
      Inhabits (.atom x) ty
  | variant {item : ItemId} {cases : List (List Ty)} {case : ℕ} {tys : List Ty}
      {payload : List (Datum D)} {ty : Ty} : space variants ty = .variant item cases →
      cases[case]? = some tys → List.Forall₂ Inhabits payload tys →
      Inhabits (.variant item case payload) ty

/-- A pattern that may stand at a type. -/
inductive Typed : ResolvedPattern → Ty → Prop
  | wildcard {ty : Ty} : Typed .wildcard ty
  | bool {b : Bool} {ty : Ty} : space variants ty = .bool → Typed (.bool b) ty
  | literal {key : LiteralKey} {ty : Ty} : space variants ty = .openEnded →
      D.literal key ∈ D.inhabits ty → Typed (.literal key) ty
  | variant {item : ItemId} {cases : List (List Ty)} {case : ℕ} {tys : List Ty}
      {args : List ResolvedPattern} {ty : Ty} : space variants ty = .variant item cases →
      cases[case]? = some tys → List.Forall₂ Typed args tys →
      Typed (.variant item case args) ty

variable {D}

mutual

/-- Whether a pattern matches a value. -/
def ResolvedPattern.Matches : ResolvedPattern → Datum D → Prop
  | .wildcard, _ => True
  | .bool b, .bool c => b = c
  | .literal key, .atom x => x = D.literal key
  | .variant item case args, .variant item' case' payload =>
    item = item' ∧ case = case' ∧ MatchesAll args payload
  | _, _ => False

/-- Whether each pattern of a row matches the value at its position. -/
def MatchesAll : Row → List (Datum D) → Prop
  | [], [] => True
  | p :: ps, v :: vs => p.Matches v ∧ MatchesAll ps vs
  | _, _ => False

end

/-- Some row of the matrix matches the values. -/
def Covers (matrix : List Row) (vs : List (Datum D)) : Prop := ∃ r ∈ matrix, MatchesAll r vs

variable (D)

/-- Some values of the types match the row and no row of the matrix. -/
def Useful (matrix : List Row) (row : Row) (tys : List Ty) : Prop :=
  ∃ vs : List (Datum D), List.Forall₂ (Inhabits variants D) vs tys ∧ MatchesAll row vs ∧
    ¬ Covers matrix vs

/-- The patterns of a row may stand at the types. -/
def RowTyped (tys : List Ty) (row : Row) : Prop := List.Forall₂ (Typed variants D) row tys

end

section Matching
variable {D : OpenDomain}

@[simp] theorem matches_wildcard (v : Datum D) : ResolvedPattern.wildcard.Matches v := by
  simp [ResolvedPattern.Matches]

@[simp] theorem matchesAll_nil : MatchesAll [] ([] : List (Datum D)) := by simp [MatchesAll]

@[simp] theorem matchesAll_cons {p : ResolvedPattern} {ps : Row} {v : Datum D}
    {vs : List (Datum D)} : MatchesAll (p :: ps) (v :: vs) ↔ p.Matches v ∧ MatchesAll ps vs := by
  simp [MatchesAll]

@[simp] theorem matches_variant {item item' : ItemId} {case case' : ℕ} {args : Row}
    {payload : List (Datum D)} :
    (ResolvedPattern.variant item case args).Matches (.variant item' case' payload) ↔
      item = item' ∧ case = case' ∧ MatchesAll args payload := by
  simp [ResolvedPattern.Matches]

@[simp] theorem matches_bool {b c : Bool} :
    (ResolvedPattern.bool b).Matches (.bool c : Datum D) ↔ b = c := by
  simp [ResolvedPattern.Matches]

@[simp] theorem matches_literal {key : LiteralKey} {x : D.Carrier} :
    (ResolvedPattern.literal key).Matches (.atom x : Datum D) ↔ x = D.literal key := by
  simp [ResolvedPattern.Matches]

theorem MatchesAll.length {ps : Row} {vs : List (Datum D)} (h : MatchesAll ps vs) :
    ps.length = vs.length := by
  induction ps generalizing vs with
  | nil =>
    cases vs with
    | nil => rfl
    | cons v vs => simp [MatchesAll] at h
  | cons p ps ih =>
    cases vs with
    | nil => simp [MatchesAll] at h
    | cons v vs =>
      have htail := ih (matchesAll_cons.mp h).2
      simp [htail]

theorem matchesAll_append {ps qs : Row} {xs ys : List (Datum D)} (hlen : ps.length = xs.length) :
    MatchesAll (ps ++ qs) (xs ++ ys) ↔ MatchesAll ps xs ∧ MatchesAll qs ys := by
  induction ps generalizing xs with
  | nil =>
    have hnil : xs = [] := List.length_eq_zero_iff.mp hlen.symm
    simp [hnil]
  | cons p ps ih =>
    cases xs with
    | nil => simp at hlen
    | cons x xs =>
      have hlen' : ps.length = xs.length := by simpa using hlen
      simp only [List.cons_append, matchesAll_cons, ih hlen', and_assoc]

theorem matchesAll_replicate {n : ℕ} {xs : List (Datum D)} (hlen : xs.length = n) :
    MatchesAll (List.replicate n .wildcard) xs := by
  induction n generalizing xs with
  | zero =>
    have hnil : xs = [] := List.length_eq_zero_iff.mp hlen
    simp [hnil]
  | succ n ih =>
    cases xs with
    | nil => simp at hlen
    | cons x xs =>
      have hlen' : xs.length = n := by simpa using hlen
      simp [List.replicate_succ, ih hlen']

end Matching

section Specializing
variable {variants : VariantSpace} {D : OpenDomain} {matrix : List Row} {ty : Ty} {tys : List Ty}
  {vs : List (Datum D)}

/-- A matrix narrowed row by row covers what it covered, when each row of it
matches what the row it came from matches. -/
theorem covers_filterMap {f : Row → Option Row} {vs ws : List (Datum D)}
    (h : ∀ r ∈ matrix, (∃ r', f r = some r' ∧ MatchesAll r' ws) ↔ MatchesAll r vs) :
    Covers (matrix.filterMap f) ws ↔ Covers matrix vs := by
  unfold Covers
  constructor
  · rintro ⟨r', hr', hmatch⟩
    obtain ⟨r, hr, hf⟩ := List.mem_filterMap.mp hr'
    exact ⟨r, hr, (h r hr).mp ⟨r', hf, hmatch⟩⟩
  · rintro ⟨r, hr, hmatch⟩
    obtain ⟨r', hf, hmatch'⟩ := (h r hr).mpr hmatch
    exact ⟨r', List.mem_filterMap.mpr ⟨r, hr, hf⟩, hmatch'⟩

theorem RowTyped.cons_inv {row : Row} (h : RowTyped variants D (ty :: tys) row) :
    ∃ p ps, row = p :: ps ∧ Typed variants D p ty ∧ RowTyped variants D tys ps := by
  cases h with
  | cons hp hps => exact ⟨_, _, rfl, hp, hps⟩

theorem Typed.payload {item item' : ItemId} {cases : List (List Ty)} {case : ℕ}
    {args : List ResolvedPattern} (h : Typed variants D (.variant item case args) ty)
    (hspace : space variants ty = .variant item' cases) :
    item = item' ∧ ∃ payload, cases[case]? = some payload ∧ RowTyped variants D payload args := by
  cases h with
  | variant hspace' hcase hargs =>
    rw [hspace] at hspace'
    cases hspace'
    exact ⟨rfl, _, hcase, hargs⟩

theorem covers_specializeVariant {item : ItemId} {cases : List (List Ty)} {case : ℕ}
    {payload : List Ty} {xs : List (Datum D)} (hspace : space variants ty = .variant item cases)
    (hcase : cases[case]? = some payload) (hlen : xs.length = payload.length)
    (htyped : ∀ r ∈ matrix, RowTyped variants D (ty :: tys) r) :
    Covers (specializeVariant matrix item case payload.length) (xs ++ vs) ↔
      Covers matrix (.variant item case xs :: vs) := by
  unfold specializeVariant
  apply covers_filterMap
  intro r hr
  obtain ⟨p, ps, rfl, hp, -⟩ := (htyped r hr).cons_inv
  cases p with
  | wildcard =>
    have hwild := matchesAll_replicate hlen
    have hsplit : MatchesAll (List.replicate payload.length .wildcard ++ ps) (xs ++ vs) ↔
        MatchesAll (List.replicate payload.length .wildcard) xs ∧ MatchesAll ps vs :=
      matchesAll_append (by simp [hlen])
    simp [hsplit, hwild]
  | bool b => simp [ResolvedPattern.Matches]
  | literal key => simp [ResolvedPattern.Matches]
  | «variant» v c args =>
    by_cases hsame : v = item ∧ c = case
    · obtain ⟨rfl, rfl⟩ := hsame
      obtain ⟨-, payload', hcase', hargs⟩ := hp.payload hspace
      rw [hcase] at hcase'
      cases hcase'
      have hsplit : MatchesAll (args ++ ps) (xs ++ vs) ↔ MatchesAll args xs ∧ MatchesAll ps vs :=
        matchesAll_append (hargs.length_eq.trans hlen.symm)
      simp [hsplit]
    · simp only [matchesAll_cons, matches_variant]
      constructor
      · rintro ⟨r', hsome, -⟩
        simp [hsame] at hsome
      · rintro ⟨⟨hv, hc, -⟩, -⟩
        exact absurd ⟨hv, hc⟩ hsame

theorem covers_specializeBool {b : Bool}
    (htyped : ∀ r ∈ matrix, RowTyped variants D (ty :: tys) r) :
    Covers (specializeBool matrix b) vs ↔ Covers matrix (.bool b :: vs) := by
  unfold specializeBool
  apply covers_filterMap
  intro r hr
  obtain ⟨p, ps, rfl, -, -⟩ := (htyped r hr).cons_inv
  cases p with
  | wildcard => simp
  | bool c =>
    by_cases hsame : c = b
    · simp [hsame]
    · simp [hsame]
  | literal key => simp [ResolvedPattern.Matches]
  | «variant» v c args => simp [ResolvedPattern.Matches]

theorem covers_specializeLiteral {key : LiteralKey}
    (htyped : ∀ r ∈ matrix, RowTyped variants D (ty :: tys) r) :
    Covers (specializeLiteral matrix key) vs ↔ Covers matrix (.atom (D.literal key) :: vs) := by
  unfold specializeLiteral
  apply covers_filterMap
  intro r hr
  obtain ⟨p, ps, rfl, -, -⟩ := (htyped r hr).cons_inv
  cases p with
  | wildcard => simp
  | bool c => simp [ResolvedPattern.Matches]
  | literal k =>
    by_cases hsame : k = key
    · simp [hsame]
    · have hne : D.literal key ≠ D.literal k := fun h => hsame (D.literal_injective h).symm
      simp [hsame, hne]
  | «variant» v c args => simp [ResolvedPattern.Matches]

/-- Whether the row begins with the given literal. -/
def Row.beginsWith (D : OpenDomain) (x : D.Carrier) : Row → Prop
  | .literal key :: _ => x = D.literal key
  | _ => False

/-- The default matrix covers what the matrix covers in front of a value that no
row names. -/
theorem covers_defaultMatrix {x : D.Carrier}
    (htyped : ∀ r ∈ matrix, RowTyped variants D (ty :: tys) r)
    (hfresh : ∀ r ∈ matrix, ¬ Row.beginsWith D x r) :
    Covers (defaultMatrix matrix) vs ↔ Covers matrix (.atom x :: vs) := by
  unfold defaultMatrix
  apply covers_filterMap
  intro r hr
  obtain ⟨p, ps, rfl, -, -⟩ := (htyped r hr).cons_inv
  cases p with
  | wildcard => simp
  | bool c => simp [ResolvedPattern.Matches]
  | literal k =>
    have hne : x ≠ D.literal k := hfresh _ hr
    simp [hne]
  | «variant» v c args => simp [ResolvedPattern.Matches]

theorem Covers.of_defaultMatrix {v : Datum D} (h : Covers (defaultMatrix matrix) vs) :
    Covers matrix (v :: vs) := by
  obtain ⟨r', hr', hmatch⟩ := h
  unfold defaultMatrix at hr'
  obtain ⟨r, hr, hf⟩ := List.mem_filterMap.mp hr'
  refine ⟨r, hr, ?_⟩
  split at hf
  · cases hf
    simpa using hmatch
  · cases hf

theorem exists_fresh (matrix : List Row) (ty : Ty) :
    ∃ x ∈ D.inhabits ty, ∀ r ∈ matrix, ¬ Row.beginsWith D x r := by
  have hfinite : Set.Finite {x | ∃ r ∈ matrix, Row.beginsWith D x r} := by
    induction matrix with
    | nil => simp
    | cons r rs ih =>
      have hone : Set.Finite {x | Row.beginsWith D x r} := by
        cases r with
        | nil => simp [Row.beginsWith]
        | cons p ps =>
          cases p with
          | literal key => simp [Row.beginsWith]
          | _ => simp [Row.beginsWith]
      refine (hone.union ih).subset ?_
      rintro x ⟨r', hr', hx⟩
      rcases List.mem_cons.mp hr' with rfl | hr'
      · exact .inl hx
      · exact .inr ⟨r', hr', hx⟩
  obtain ⟨x, hx, hnot⟩ := ((D.infinite ty).sdiff hfinite).nonempty
  exact ⟨x, hx, fun r hr hbegin => hnot ⟨r, hr, hbegin⟩⟩

theorem rowTyped_filterMap {f : Row → Option Row} {tys' : List Ty}
    (htyped : ∀ r ∈ matrix, RowTyped variants D (ty :: tys) r)
    (hf : ∀ p ps r', f (p :: ps) = some r' → Typed variants D p ty → RowTyped variants D tys ps →
      RowTyped variants D tys' r') :
    ∀ r' ∈ matrix.filterMap f, RowTyped variants D tys' r' := by
  intro r' hr'
  obtain ⟨r, hr, hsome⟩ := List.mem_filterMap.mp hr'
  obtain ⟨p, ps, rfl, hp, hps⟩ := (htyped r hr).cons_inv
  exact hf p ps r' hsome hp hps

theorem rowTyped_replicate (payload : List Ty) :
    RowTyped variants D payload (List.replicate payload.length .wildcard) := by
  induction payload with
  | nil => exact .nil
  | cons ty payload ih => exact .cons .wildcard ih

theorem RowTyped.append {payload : List Ty} {ps qs : Row} (hps : RowTyped variants D payload ps)
    (hqs : RowTyped variants D tys qs) : RowTyped variants D (payload ++ tys) (ps ++ qs) :=
  List.rel_append hps hqs

theorem rowTyped_specializeVariant {item : ItemId} {cases : List (List Ty)} {case : ℕ}
    {payload : List Ty} (hspace : space variants ty = .variant item cases)
    (hcase : cases[case]? = some payload)
    (htyped : ∀ r ∈ matrix, RowTyped variants D (ty :: tys) r) :
    ∀ r ∈ specializeVariant matrix item case payload.length,
      RowTyped variants D (payload ++ tys) r := by
  refine rowTyped_filterMap htyped fun p ps r' hsome hp hps => ?_
  cases p with
  | wildcard =>
    cases hsome
    exact (rowTyped_replicate payload).append hps
  | bool c => cases hsome
  | literal key => cases hsome
  | «variant» v c args =>
    by_cases hsame : v = item ∧ c = case
    · obtain ⟨rfl, rfl⟩ := hsame
      obtain ⟨-, payload', hcase', hargs⟩ := hp.payload hspace
      rw [hcase] at hcase'
      cases hcase'
      simp only [and_self, if_true, Option.some.injEq] at hsome
      rw [← hsome]
      exact hargs.append hps
    · simp [hsame] at hsome

theorem rowTyped_specializeBool {b : Bool}
    (htyped : ∀ r ∈ matrix, RowTyped variants D (ty :: tys) r) :
    ∀ r ∈ specializeBool matrix b, RowTyped variants D tys r := by
  refine rowTyped_filterMap htyped fun p ps r' hsome hp hps => ?_
  cases p with
  | wildcard =>
    cases hsome
    exact hps
  | bool c =>
    by_cases hsame : c = b
    · simp only [hsame, if_true, Option.some.injEq] at hsome
      exact hsome ▸ hps
    · simp [hsame] at hsome
  | literal key => cases hsome
  | «variant» v c args => cases hsome

theorem rowTyped_specializeLiteral {key : LiteralKey}
    (htyped : ∀ r ∈ matrix, RowTyped variants D (ty :: tys) r) :
    ∀ r ∈ specializeLiteral matrix key, RowTyped variants D tys r := by
  refine rowTyped_filterMap htyped fun p ps r' hsome hp hps => ?_
  cases p with
  | wildcard =>
    cases hsome
    exact hps
  | bool c => cases hsome
  | literal k =>
    by_cases hsame : k = key
    · simp only [hsame, if_true, Option.some.injEq] at hsome
      exact hsome ▸ hps
    · simp [hsame] at hsome
  | «variant» v c args => cases hsome

theorem rowTyped_defaultMatrix
    (htyped : ∀ r ∈ matrix, RowTyped variants D (ty :: tys) r) :
    ∀ r ∈ defaultMatrix matrix, RowTyped variants D tys r := by
  refine rowTyped_filterMap htyped fun p ps r' hsome hp hps => ?_
  cases p with
  | wildcard =>
    cases hsome
    exact hps
  | bool c => cases hsome
  | literal k => cases hsome
  | «variant» v c args => cases hsome

end Specializing

section Deciding
variable {variants : VariantSpace} {D : OpenDomain} {matrix : List Row} {ty : Ty} {tys : List Ty}
  {rest : Row}

theorem useful_nil : Useful variants D matrix [] [] ↔ matrix = [] ∨ ¬ Covers (D := D) matrix [] := by
  constructor
  · rintro ⟨vs, hvs, -, hnot⟩
    cases hvs
    exact .inr hnot
  · rintro (rfl | hnot)
    · exact ⟨[], .nil, matchesAll_nil, by simp [Covers]⟩
    · exact ⟨[], .nil, matchesAll_nil, hnot⟩

theorem useful_cons {p : ResolvedPattern} :
    Useful variants D matrix (p :: rest) (ty :: tys) ↔
      ∃ v vs, Inhabits variants D v ty ∧ List.Forall₂ (Inhabits variants D) vs tys ∧
        p.Matches v ∧ MatchesAll rest vs ∧ ¬ Covers matrix (v :: vs) := by
  constructor
  · rintro ⟨_, hvs, hmatch, hnot⟩
    cases hvs with
    | cons hv hvs =>
      obtain ⟨hp, hrest⟩ := matchesAll_cons.mp hmatch
      exact ⟨_, _, hv, hvs, hp, hrest, hnot⟩
  · rintro ⟨v, vs, hv, hvs, hp, hrest, hnot⟩
    exact ⟨v :: vs, .cons hv hvs, matchesAll_cons.mpr ⟨hp, hrest⟩, hnot⟩

theorem Inhabits.bool_inv {v : Datum D} (h : Inhabits variants D v ty)
    (hspace : space variants ty = .bool) : ∃ b, v = .bool b := by
  cases h with
  | bool _ => exact ⟨_, rfl⟩
  | atom hspace' _ => simp [hspace] at hspace'
  | variant hspace' _ _ => simp [hspace] at hspace'

theorem Inhabits.open_inv {v : Datum D} (h : Inhabits variants D v ty)
    (hspace : space variants ty = .openEnded) : ∃ x ∈ D.inhabits ty, v = .atom x := by
  cases h with
  | bool hspace' => simp [hspace] at hspace'
  | atom _ hx => exact ⟨_, hx, rfl⟩
  | variant hspace' _ _ => simp [hspace] at hspace'

theorem Inhabits.variant_inv {v : Datum D} {item : ItemId} {cases : List (List Ty)}
    (h : Inhabits variants D v ty) (hspace : space variants ty = .variant item cases) :
    ∃ case payload xs, cases[case]? = some payload ∧ v = .variant item case xs ∧
      List.Forall₂ (Inhabits variants D) xs payload := by
  cases h with
  | bool hspace' => simp [hspace] at hspace'
  | atom hspace' _ => simp [hspace] at hspace'
  | variant hspace' hcase hxs =>
    rw [hspace] at hspace'
    cases hspace'
    exact ⟨_, _, _, hcase, rfl, hxs⟩

theorem forall₂_append_inv {payload : List Ty} {vs : List (Datum D)}
    (h : List.Forall₂ (Inhabits variants D) vs (payload ++ tys)) :
    ∃ xs ys, vs = xs ++ ys ∧ List.Forall₂ (Inhabits variants D) xs payload ∧
      List.Forall₂ (Inhabits variants D) ys tys :=
  ⟨_, _, (List.take_append_drop payload.length vs).symm, List.forall₂_take_append _ _ _ h,
    List.forall₂_drop_append _ _ _ h⟩

theorem useful_variant {item : ItemId} {cases : List (List Ty)} {case : ℕ} {payload : List Ty}
    {args : Row} (hspace : space variants ty = .variant item cases)
    (hcase : cases[case]? = some payload) (hargs : RowTyped variants D payload args)
    (htyped : ∀ r ∈ matrix, RowTyped variants D (ty :: tys) r) :
    Useful variants D matrix (.variant item case args :: rest) (ty :: tys) ↔
      Useful variants D (specializeVariant matrix item case args.length) (args ++ rest)
        (payload ++ tys) := by
  rw [hargs.length_eq, useful_cons]
  constructor
  · rintro ⟨v, vs, hv, hvs, hp, hrest, hnot⟩
    obtain ⟨case', payload', xs, hcase', rfl, hxs⟩ := hv.variant_inv hspace
    obtain ⟨-, rfl, hmatch⟩ := matches_variant.mp hp
    rw [hcase] at hcase'
    cases hcase'
    refine ⟨xs ++ vs, List.rel_append hxs hvs, ?_, ?_⟩
    · exact (matchesAll_append hmatch.length).mpr ⟨hmatch, hrest⟩
    · rwa [covers_specializeVariant hspace hcase hxs.length_eq htyped]
  · rintro ⟨ws, hws, hmatch, hnot⟩
    obtain ⟨xs, vs, rfl, hxs, hvs⟩ := forall₂_append_inv hws
    rw [covers_specializeVariant hspace hcase hxs.length_eq htyped] at hnot
    have hlen : args.length = xs.length := hargs.length_eq.trans hxs.length_eq.symm
    obtain ⟨hargs', hrest⟩ := (matchesAll_append hlen).mp hmatch
    exact ⟨_, vs, .variant hspace hcase hxs, hvs, by simpa using hargs', hrest, hnot⟩

theorem useful_bool {b : Bool} (hspace : space variants ty = .bool)
    (htyped : ∀ r ∈ matrix, RowTyped variants D (ty :: tys) r) :
    Useful variants D matrix (.bool b :: rest) (ty :: tys) ↔
      Useful variants D (specializeBool matrix b) rest tys := by
  rw [useful_cons]
  constructor
  · rintro ⟨v, vs, hv, hvs, hp, hrest, hnot⟩
    obtain ⟨c, rfl⟩ := hv.bool_inv hspace
    obtain rfl := matches_bool.mp hp
    exact ⟨vs, hvs, hrest, by rwa [covers_specializeBool htyped]⟩
  · rintro ⟨vs, hvs, hrest, hnot⟩
    rw [covers_specializeBool htyped] at hnot
    exact ⟨.bool b, vs, .bool hspace, hvs, by simp, hrest, hnot⟩

theorem useful_literal {key : LiteralKey} (hspace : space variants ty = .openEnded)
    (hkey : D.literal key ∈ D.inhabits ty)
    (htyped : ∀ r ∈ matrix, RowTyped variants D (ty :: tys) r) :
    Useful variants D matrix (.literal key :: rest) (ty :: tys) ↔
      Useful variants D (specializeLiteral matrix key) rest tys := by
  rw [useful_cons]
  constructor
  · rintro ⟨v, vs, hv, hvs, hp, hrest, hnot⟩
    obtain ⟨x, -, rfl⟩ := hv.open_inv hspace
    obtain rfl := matches_literal.mp hp
    exact ⟨vs, hvs, hrest, by rwa [covers_specializeLiteral htyped]⟩
  · rintro ⟨vs, hvs, hrest, hnot⟩
    rw [covers_specializeLiteral htyped] at hnot
    exact ⟨.atom (D.literal key), vs, .atom hspace hkey, hvs, by simp, hrest, hnot⟩

theorem useful_wildcard_bool (hspace : space variants ty = .bool)
    (htyped : ∀ r ∈ matrix, RowTyped variants D (ty :: tys) r) :
    Useful variants D matrix (.wildcard :: rest) (ty :: tys) ↔
      ∃ b, Useful variants D (specializeBool matrix b) rest tys := by
  rw [useful_cons]
  constructor
  · rintro ⟨v, vs, hv, hvs, -, hrest, hnot⟩
    obtain ⟨b, rfl⟩ := hv.bool_inv hspace
    exact ⟨b, vs, hvs, hrest, by rwa [covers_specializeBool htyped]⟩
  · rintro ⟨b, vs, hvs, hrest, hnot⟩
    rw [covers_specializeBool htyped] at hnot
    exact ⟨.bool b, vs, .bool hspace, hvs, by simp, hrest, hnot⟩

theorem useful_wildcard_variant {item : ItemId} {cases : List (List Ty)}
    (hspace : space variants ty = .variant item cases)
    (htyped : ∀ r ∈ matrix, RowTyped variants D (ty :: tys) r) :
    Useful variants D matrix (.wildcard :: rest) (ty :: tys) ↔
      ∃ case payload, cases[case]? = some payload ∧
        Useful variants D (specializeVariant matrix item case payload.length)
          (List.replicate payload.length .wildcard ++ rest) (payload ++ tys) := by
  rw [useful_cons]
  constructor
  · rintro ⟨v, vs, hv, hvs, -, hrest, hnot⟩
    obtain ⟨case, payload, xs, hcase, rfl, hxs⟩ := hv.variant_inv hspace
    have hwild := matchesAll_replicate hxs.length_eq
    refine ⟨case, payload, hcase, xs ++ vs, List.rel_append hxs hvs, ?_, ?_⟩
    · exact (matchesAll_append hwild.length).mpr ⟨hwild, hrest⟩
    · rwa [covers_specializeVariant hspace hcase hxs.length_eq htyped]
  · rintro ⟨case, payload, hcase, ws, hws, hmatch, hnot⟩
    obtain ⟨xs, vs, rfl, hxs, hvs⟩ := forall₂_append_inv hws
    rw [covers_specializeVariant hspace hcase hxs.length_eq htyped] at hnot
    have hlen : (List.replicate payload.length ResolvedPattern.wildcard).length = xs.length := by
      simp [hxs.length_eq]
    obtain ⟨-, hrest⟩ := (matchesAll_append hlen).mp hmatch
    exact ⟨_, vs, .variant hspace hcase hxs, hvs, by simp, hrest, hnot⟩

/-- A catch-all over an open type is as useful as what follows it, past the rows
that begin with a catch-all themselves. -/
theorem useful_wildcard_open (hspace : space variants ty = .openEnded)
    (htyped : ∀ r ∈ matrix, RowTyped variants D (ty :: tys) r) :
    Useful variants D matrix (.wildcard :: rest) (ty :: tys) ↔
      Useful variants D (defaultMatrix matrix) rest tys := by
  rw [useful_cons]
  constructor
  · rintro ⟨v, vs, hv, hvs, -, hrest, hnot⟩
    exact ⟨vs, hvs, hrest, fun h => hnot h.of_defaultMatrix⟩
  · rintro ⟨vs, hvs, hrest, hnot⟩
    obtain ⟨x, hx, hfresh⟩ := exists_fresh (D := D) matrix ty
    rw [covers_defaultMatrix htyped hfresh] at hnot
    exact ⟨.atom x, vs, .atom hspace hx, hvs, by simp, hrest, hnot⟩

end Deciding

section Walk
variable {variants : VariantSpace} {D : OpenDomain}

/-- What a verdict says about a question: nothing, when the analysis gave up. -/
def Usefulness.Decides (u : Usefulness) (P : Prop) : Prop :=
  match u with
  | .useful _ => P
  | .notUseful => ¬ P
  | .budgetExceeded => True

theorem Usefulness.Decides.congr {u : Usefulness} {P Q : Prop} (h : u.Decides P) (hPQ : Q ↔ P) :
    u.Decides Q := by
  cases u with
  | useful w => exact hPQ.mpr h
  | notUseful => exact fun hQ => h (hPQ.mp hQ)
  | budgetExceeded => trivial

/-- An analysis that decides a question from whatever budget it is given. -/
def Answers (x : StateM ℕ Usefulness) (P : Prop) : Prop := ∀ b, (x.run b).1.Decides P

theorem Answers.congr {x : StateM ℕ Usefulness} {P Q : Prop} (h : Answers x P) (hPQ : Q ↔ P) :
    Answers x Q :=
  fun b => (h b).congr hPQ

theorem Answers.map {x : StateM ℕ Usefulness} {P : Prop} (h : Answers x P) (f : Row → Row) :
    Answers (do pure ((← x).map f)) P := by
  intro b
  have hx := h b
  show ((x.run b).1.map f).Decides P
  cases hu : (x.run b).1 with
  | useful w =>
    rw [hu] at hx
    exact hx
  | notUseful =>
    rw [hu] at hx
    exact hx
  | budgetExceeded => trivial

theorem Answers.charged {x : StateM ℕ Usefulness} {P : Prop} (h : Answers x P) :
    Answers (do
      if (← get) = 0 then return .budgetExceeded
      modify (· - 1)
      x) P := by
  intro b
  by_cases hb : b = 0
  · subst hb
    trivial
  · simpa [hb] using h (b - 1)

theorem tryEach_cons_run (x : StateM ℕ Usefulness) (xs : List (StateM ℕ Usefulness)) (b : ℕ) :
    ((tryEach (x :: xs)).run b).1 =
      match (x.run b).1 with
      | .notUseful => ((tryEach xs).run (x.run b).2).1
      | other => other := by
  have hbind : (tryEach (x :: xs)).run b =
      (match (x.run b).1 with | .notUseful => tryEach xs | other => pure other).run (x.run b).2 := rfl
  rw [hbind]
  cases (x.run b).1 <;> rfl

theorem tryEach_answers {α : Type} {l : List α} {f : α → StateM ℕ Usefulness} {P : α → Prop}
    (h : ∀ a ∈ l, Answers (f a) (P a)) : Answers (tryEach (l.map f)) (∃ a ∈ l, P a) := by
  induction l with
  | nil =>
    rintro b ⟨a, ha, -⟩
    simp at ha
  | cons a l ih =>
    intro b
    have hfirst : ((f a).run b).1.Decides (P a) := h a (List.mem_cons_self ..) b
    have hrest := ih (fun a' ha' => h a' (List.mem_cons_of_mem _ ha')) ((f a).run b).2
    rw [List.map_cons, tryEach_cons_run]
    cases hx : ((f a).run b).1 with
    | useful w =>
      rw [hx] at hfirst
      exact ⟨a, List.mem_cons_self .., hfirst⟩
    | notUseful =>
      rw [hx] at hfirst
      have hnot : ¬ P a := hfirst
      apply hrest.congr
      simp [hnot]
    | budgetExceeded => trivial

theorem patternPayload_eq {ty : Ty} {item : ItemId} {cases : List (List Ty)} {case : ℕ}
    {payload : List Ty} (hspace : space variants ty = .variant item cases)
    (hcase : cases[case]? = some payload) : patternPayload variants item case ty = payload := by
  have hone : ∀ args, variantSpace variants item args = .variant item cases →
      instantiate (payloadSubst variants item args)
        (((variants.payloads.lookup item).bind (·[case]?)).getD []) = payload := by
    intro args hargs
    unfold variantSpace at hargs
    cases hlookup : variants.payloads.lookup item with
    | none => simp [hlookup] at hargs
    | some declared =>
      simp only [hlookup, Space.variant.injEq, true_and] at hargs
      rw [← hargs, List.getElem?_map] at hcase
      obtain ⟨symbolic, hsymbolic, hpayload⟩ := Option.map_eq_some_iff.mp hcase
      simpa [hsymbolic] using hpayload
  have hitem : ∀ {i : ItemId} {args : List Ty},
      variantSpace variants i args = .variant item cases → i = item := by
    intro i args hargs
    unfold variantSpace at hargs
    split at hargs
    · cases hargs
      rfl
    · cases hargs
  unfold patternPayload
  cases ty with
  | named i =>
    obtain rfl := hitem hspace
    exact hone [] hspace
  | applied i args =>
    obtain rfl := hitem hspace
    simpa using hone args hspace
  | _ => simp [space] at hspace

theorem answers_wildcard {n : ℕ} {matrix : List Row} {rest : Row} {ty : Ty} {tys : List Ty}
    (ih : ∀ {matrix : List Row} {row : Row} {tys : List Ty},
      (∀ r ∈ matrix, RowTyped variants D tys r) → RowTyped variants D tys row →
      Answers (isUsefulAtDepth variants n matrix row tys) (Useful variants D matrix row tys))
    (htyped : ∀ r ∈ matrix, RowTyped variants D (ty :: tys) r) (hrest : RowTyped variants D tys rest) :
    Answers (match space variants ty with
      | .bool => tryEach ([false, true].map fun b => do
          let found ← isUsefulAtDepth variants n (specializeBool matrix b) rest tys
          pure (found.map (.bool b :: ·)))
      | .variant item cases => tryEach (cases.zipIdx.map fun p => do
          let found ← isUsefulAtDepth variants n
            (specializeVariant matrix item p.2 p.1.length)
            (List.replicate p.1.length .wildcard ++ rest) (p.1 ++ tys)
          pure (found.map (gatherCase item p.2 p.1.length)))
      | .openEnded => do
        let found ← isUsefulAtDepth variants n (defaultMatrix matrix) rest tys
        pure (found.map (.wildcard :: ·)))
      (Useful variants D matrix (.wildcard :: rest) (ty :: tys)) := by
  cases hspace : space variants ty with
  | bool =>
    have heach := tryEach_answers fun b (_ : b ∈ [false, true]) =>
      (ih (@rowTyped_specializeBool variants D matrix ty tys b htyped) hrest).map (.bool b :: ·)
    apply heach.congr
    rw [useful_wildcard_bool hspace htyped]
    simp
  | «variant» item cases =>
    have heach := tryEach_answers fun (p : List Ty × ℕ) (hp : p ∈ cases.zipIdx) =>
      (ih (rowTyped_specializeVariant hspace (List.mem_zipIdx_iff_getElem?.mp hp) htyped)
        ((rowTyped_replicate p.1).append hrest)).map (gatherCase item p.2 p.1.length)
    apply heach.congr
    rw [useful_wildcard_variant hspace htyped]
    constructor
    · rintro ⟨case, payload, hcase, huseful⟩
      exact ⟨(payload, case), List.mem_zipIdx_iff_getElem?.mpr hcase, huseful⟩
    · rintro ⟨⟨payload, case⟩, hp, huseful⟩
      exact ⟨case, payload, List.mem_zipIdx_iff_getElem?.mp hp, huseful⟩
  | openEnded =>
    apply ((ih (rowTyped_defaultMatrix htyped) hrest).map _).congr
    exact useful_wildcard_open hspace htyped

theorem isUsefulAtDepth_answers {n : ℕ} {matrix : List Row} {row : Row} {tys : List Ty}
    (htyped : ∀ r ∈ matrix, RowTyped variants D tys r) (hrow : RowTyped variants D tys row) :
    Answers (isUsefulAtDepth variants n matrix row tys) (Useful variants D matrix row tys) := by
  induction n generalizing matrix row tys with
  | zero => exact fun _ => trivial
  | succ n ih =>
    unfold isUsefulAtDepth
    apply Answers.charged
    cases hrow with
    | nil =>
      intro b
      cases matrix with
      | nil => exact useful_nil.mpr (.inl rfl)
      | cons r rs =>
        have hnil : r = [] := by cases htyped r (List.mem_cons_self ..); rfl
        rintro hu
        obtain h | h := useful_nil.mp hu
        · cases h
        · exact h ⟨r, List.mem_cons_self .., hnil ▸ matchesAll_nil⟩
    | @cons p ty rest tys hp hrest =>
      cases p with
      | wildcard => exact answers_wildcard ih htyped hrest
      | bool c =>
        cases hp with
        | bool hspace =>
          apply ((ih (rowTyped_specializeBool htyped) hrest).map _).congr
          exact useful_bool hspace htyped
      | literal key =>
        cases hp with
        | literal hspace hkey =>
          apply ((ih (rowTyped_specializeLiteral htyped) hrest).map _).congr
          exact useful_literal hspace hkey htyped
      | «variant» item case args =>
        cases hp with
        | variant hspace hcase hargs =>
          have hargs : RowTyped variants D _ args := hargs
          have hspecial := rowTyped_specializeVariant hspace hcase htyped
          rw [← hargs.length_eq] at hspecial
          dsimp only
          rw [patternPayload_eq hspace hcase]
          apply ((ih hspecial (hargs.append hrest)).map _).congr
          exact useful_variant hspace hcase hargs htyped

/-- One arm is useful after others when it matches a value that none of them does. -/
theorem useful_arm {ty : Ty} {earlier : List ResolvedPattern} {p : ResolvedPattern} :
    Useful variants D (earlier.map fun q => [q]) [p] [ty] ↔
      ∃ v, Inhabits variants D v ty ∧ p.Matches v ∧ ∀ q ∈ earlier, ¬ q.Matches v := by
  rw [useful_cons]
  constructor
  · rintro ⟨v, vs, hv, hvs, hp, -, hnot⟩
    cases hvs
    refine ⟨v, hv, hp, fun q hq hmatch => hnot ?_⟩
    exact ⟨[q], List.mem_map.mpr ⟨q, hq, rfl⟩, by simpa using hmatch⟩
  · rintro ⟨v, hv, hp, hnot⟩
    refine ⟨v, [], hv, .nil, hp, matchesAll_nil, ?_⟩
    rintro ⟨r, hr, hmatch⟩
    obtain ⟨q, hq, rfl⟩ := List.mem_map.mp hr
    exact hnot q hq (matchesAll_cons.mp hmatch).1

theorem rowTyped_arms {ty : Ty} {arms : List ResolvedPattern}
    (h : ∀ p ∈ arms, Typed variants D p ty) :
    ∀ r ∈ arms.map fun q => [q], RowTyped variants D [ty] r := by
  intro r hr
  obtain ⟨q, hq, rfl⟩ := List.mem_map.mp hr
  exact .cons (h q hq) .nil

theorem isUseful_arm_answers {ty : Ty} {earlier : List ResolvedPattern} {p : ResolvedPattern}
    (hearlier : ∀ q ∈ earlier, Typed variants D q ty) (hp : Typed variants D p ty) :
    Answers (isUseful variants (earlier.map fun q => [q]) [p] [ty])
      (Useful variants D (earlier.map fun q => [q]) [p] [ty]) :=
  isUsefulAtDepth_answers (rowTyped_arms hearlier) (.cons hp .nil)

/-- The arms found unreachable so far are those that match nothing new. -/
def MarksUnreachable (variants : VariantSpace) (D : OpenDomain) (ty : Ty)
    (arms : List ResolvedPattern) (unreachable : List ℕ) : Prop :=
  ∀ i, i ∈ unreachable ↔ ∃ p, arms[i]? = some p ∧
    ¬ Useful variants D ((arms.take i).map fun q => [q]) [p] [ty]

theorem MarksUnreachable.snoc {ty : Ty} {arms : List ResolvedPattern} {p : ResolvedPattern}
    {marks marks' : List ℕ} (h : MarksUnreachable variants D ty arms marks)
    (hmarks : ∀ i, i ∈ marks' ↔ i ∈ marks ∨
      (i = arms.length ∧ ¬ Useful variants D (arms.map fun q => [q]) [p] [ty])) :
    MarksUnreachable variants D ty (arms ++ [p]) marks' := by
  intro i
  rw [hmarks, h i]
  rcases Nat.lt_trichotomy i arms.length with hi | hi | hi
  · rw [List.getElem?_append_left hi, List.take_append_of_le_length hi.le]
    have hne : i ≠ arms.length := hi.ne
    simp [hne]
  · subst hi
    simp
  · have hnone : arms[i]? = none := List.getElem?_eq_none hi.le
    have hnone' : (arms ++ [p])[i]? = none := List.getElem?_eq_none (by simp; omega)
    simp [hnone, hnone', hi.ne']

theorem checkArms_cons_run {ty : Ty} {p : ResolvedPattern} {i : ℕ}
    {rest : List (ResolvedPattern × ℕ)} {checked : ArmsChecked} {b : ℕ} :
    (checkArms variants ty ((p, i) :: rest) checked).run b =
      match (isUseful variants checked.matrix [p] [ty]).run b with
      | (.useful _, b') => (checkArms variants ty rest (checked.push p)).run b'
      | (.notUseful, b') => (checkArms variants ty rest ((checked.mark i).push p)).run b'
      | (.budgetExceeded, b') => ({ checked with budgetExceeded := true }, b') := by
  have hbind : (checkArms variants ty ((p, i) :: rest) checked).run b =
      (match ((isUseful variants checked.matrix [p] [ty]).run b).1 with
        | .useful _ => checkArms variants ty rest (checked.push p)
        | .notUseful => checkArms variants ty rest ((checked.mark i).push p)
        | .budgetExceeded => pure { checked with budgetExceeded := true }).run
          ((isUseful variants checked.matrix [p] [ty]).run b).2 := rfl
  rw [hbind]
  obtain ⟨u, b'⟩ := (isUseful variants checked.matrix [p] [ty]).run b
  cases u <;> rfl

/-- The state of the arm loop after `arms`, all of them analysed. -/
structure ArmsDone (variants : VariantSpace) (D : OpenDomain) (ty : Ty)
    (arms : List ResolvedPattern) (checked : ArmsChecked) : Prop where
  matrix : checked.matrix = arms.map fun q => [q]
  marks : MarksUnreachable variants D ty arms checked.unreachable

theorem checkArms_done {ty : Ty} {arms rest : List ResolvedPattern} {checked : ArmsChecked} {b : ℕ}
    (harms : ∀ p ∈ arms ++ rest, Typed variants D p ty)
    (hdone : ArmsDone variants D ty arms checked)
    (hbudget : ((checkArms variants ty (rest.zipIdx arms.length) checked).run b).1.budgetExceeded =
      false) :
    ArmsDone variants D ty (arms ++ rest)
      ((checkArms variants ty (rest.zipIdx arms.length) checked).run b).1 := by
  induction rest generalizing arms checked b with
  | nil =>
    rw [List.append_nil]
    exact hdone
  | cons p rest ih =>
    have harms' : ∀ q ∈ (arms ++ [p]) ++ rest, Typed variants D q ty := by
      intro q hq
      apply harms
      simpa using hq
    have hlen : (arms ++ [p]).length = arms.length + 1 := by simp
    have hverdict : ((isUseful variants checked.matrix [p] [ty]).run b).1.Decides
        (Useful variants D (arms.map fun q => [q]) [p] [ty]) := by
      rw [hdone.matrix]
      exact isUseful_arm_answers (fun q hq => harms q (by simp [hq])) (harms p (by simp)) b
    rw [List.zipIdx_cons, checkArms_cons_run] at hbudget ⊢
    rw [show arms ++ p :: rest = (arms ++ [p]) ++ rest by simp]
    generalize (isUseful variants checked.matrix [p] [ty]).run b = verdict at hbudget hverdict ⊢
    obtain ⟨u, b'⟩ := verdict
    cases u with
    | useful w =>
      dsimp only at hbudget ⊢
      rw [← hlen] at hbudget ⊢
      refine ih harms' ⟨?_, ?_⟩ hbudget
      · simp [ArmsChecked.push, hdone.matrix]
      · apply hdone.marks.snoc
        have huseful : Useful variants D (arms.map fun q => [q]) [p] [ty] := hverdict
        simp [ArmsChecked.push, huseful]
    | notUseful =>
      dsimp only at hbudget ⊢
      rw [← hlen] at hbudget ⊢
      refine ih harms' ⟨?_, ?_⟩ hbudget
      · simp [ArmsChecked.push, ArmsChecked.mark, hdone.matrix]
      · apply hdone.marks.snoc
        have hnot : ¬ Useful variants D (arms.map fun q => [q]) [p] [ty] := hverdict
        simp [ArmsChecked.push, ArmsChecked.mark, hnot]
    | budgetExceeded => simp at hbudget

theorem analyzeMatchWithBudget_decides {ty : Ty} {patterns : List ResolvedPattern} {budget : ℕ}
    (htyped : ∀ p ∈ patterns, Typed variants D p ty)
    (hbudget : (analyzeMatchWithBudget ty patterns variants budget).budgetExceeded = false) :
    ((analyzeMatchWithBudget ty patterns variants budget).missing = none ↔
        ¬ Useful variants D (patterns.map fun q => [q]) [.wildcard] [ty]) ∧
      MarksUnreachable variants D ty patterns
        (analyzeMatchWithBudget ty patterns variants budget).unreachable := by
  have hstart : ArmsDone variants D ty [] {} := ⟨rfl, by simp [MarksUnreachable]⟩
  have hloop := @checkArms_done variants D ty [] patterns {} budget (by simpa using htyped) hstart
  unfold analyzeMatchWithBudget at hbudget ⊢
  rw [List.length_nil, List.nil_append] at hloop
  generalize (checkArms variants ty patterns.zipIdx {}).run budget = loop at hbudget hloop ⊢
  obtain ⟨checked, b⟩ := loop
  dsimp only at hbudget hloop ⊢
  cases hexceeded : checked.budgetExceeded with
  | true => simp [hexceeded] at hbudget
  | false =>
    simp only [hexceeded, Bool.false_eq_true, if_false] at hbudget ⊢
    obtain ⟨hmatrix, hmarks⟩ := hloop hexceeded
    have hlast : ((isUseful variants checked.matrix [.wildcard] [ty]).run b).1.Decides
        (Useful variants D (patterns.map fun q => [q]) [.wildcard] [ty]) := by
      rw [hmatrix]
      exact isUseful_arm_answers htyped .wildcard b
    cases hu : ((isUseful variants checked.matrix [.wildcard] [ty]).run b).1 with
    | useful w =>
      rw [hu] at hlast
      have huseful : Useful variants D (patterns.map fun q => [q]) [.wildcard] [ty] := hlast
      simp [huseful, hmarks]
    | notUseful =>
      rw [hu] at hlast
      have hnot : ¬ Useful variants D (patterns.map fun q => [q]) [.wildcard] [ty] := hlast
      simp [hnot, hmarks]
    | budgetExceeded => simp [hu] at hbudget

/-- The verdict on a `match` is exact: nothing is reported missing exactly when
every value is matched by some arm, and an arm is reported unreachable exactly
when an earlier arm matches whatever it matches. -/
theorem analyzeMatch_exact {ty : Ty} {patterns : List ResolvedPattern}
    (htyped : ∀ p ∈ patterns, Typed variants D p ty)
    (hbudget : (analyzeMatch ty patterns variants).budgetExceeded = false) :
    ((analyzeMatch ty patterns variants).missing = none ↔
        ∀ v, Inhabits variants D v ty → ∃ p ∈ patterns, p.Matches v) ∧
      ∀ i, i ∈ (analyzeMatch ty patterns variants).unreachable ↔
        ∃ p, patterns[i]? = some p ∧ ∀ v, Inhabits variants D v ty → p.Matches v →
          ∃ j q, j < i ∧ patterns[j]? = some q ∧ q.Matches v := by
  obtain ⟨hmissing, hmarks⟩ := analyzeMatchWithBudget_decides htyped hbudget
  constructor
  · rw [analyzeMatch, hmissing, useful_arm]
    constructor
    · intro hnot v hv
      by_contra hnone
      exact hnot ⟨v, hv, matches_wildcard v, fun q hq hmatch => hnone ⟨q, hq, hmatch⟩⟩
    · rintro hall ⟨v, hv, -, hnone⟩
      obtain ⟨q, hq, hmatch⟩ := hall v hv
      exact hnone q hq hmatch
  · intro i
    rw [analyzeMatch, hmarks i]
    refine exists_congr fun p => and_congr_right fun _ => ?_
    rw [useful_arm]
    constructor
    · intro hnot v hv hp
      by_contra hnone
      refine hnot ⟨v, hv, hp, fun q hq hmatch => hnone ?_⟩
      obtain ⟨j, hj, hjq⟩ := List.mem_take_iff_getElem.mp hq
      exact ⟨j, q, by omega, by rw [← hjq, List.getElem?_eq_getElem], hmatch⟩
    · rintro hall ⟨v, hv, hp, hnone⟩
      obtain ⟨j, q, hj, hq, hmatch⟩ := hall v hv hp
      apply hnone q _ hmatch
      obtain ⟨hlt, hjq⟩ := List.getElem?_eq_some_iff.mp hq
      exact List.mem_take_iff_getElem.mpr ⟨j, by omega, hjq⟩

/-- Open values that are literals, or nothing a pattern can name. -/
def plainDomain : OpenDomain where
  Carrier := LiteralKey ⊕ ℕ
  literal := .inl
  literal_injective := Sum.inl_injective
  inhabits := fun _ => Set.univ
  infinite := fun _ => Set.infinite_univ

/-- The declaration of `Maybe[T]`, with the cases `Some(T)` and `None`. -/
def maybeSpace : VariantSpace where
  payloads := AList.insert ⟨0⟩ [[.param ⟨0⟩], []] ∅
  typeParams := AList.insert ⟨0⟩ [⟨0⟩] ∅

def maybeArms : List ResolvedPattern :=
  [.variant ⟨0⟩ 0 [.bool true], .variant ⟨0⟩ 0 [.bool false], .variant ⟨0⟩ 1 []]

/-- The three arms over a `Maybe[bool]` are exhaustive. -/
theorem analyzeMatch_exact_maybe :
    (analyzeMatch (.applied ⟨0⟩ [.bool]) maybeArms maybeSpace).missing = none ∧
      ∀ v, Inhabits maybeSpace plainDomain v (.applied ⟨0⟩ [.bool]) →
        ∃ p ∈ maybeArms, p.Matches v := by
  have htyped : ∀ p ∈ maybeArms, Typed maybeSpace plainDomain p (.applied ⟨0⟩ [.bool]) := by
    have hspace : space maybeSpace (.applied ⟨0⟩ [.bool]) = .variant ⟨0⟩ [[.bool], []] := rfl
    have hbool : ∀ b, Typed maybeSpace plainDomain (.bool b) .bool := fun b => .bool rfl
    intro p hp
    simp only [maybeArms, List.mem_cons, List.not_mem_nil, or_false] at hp
    rcases hp with rfl | rfl | rfl
    · exact .variant hspace rfl (.cons (hbool true) .nil)
    · exact .variant hspace rfl (.cons (hbool false) .nil)
    · exact .variant hspace rfl .nil
  have hmissing : (analyzeMatch (.applied ⟨0⟩ [.bool]) maybeArms maybeSpace).missing = none := rfl
  exact ⟨hmissing, (analyzeMatch_exact htyped rfl).1.mp hmissing⟩

end Walk

end Napitia.Typeck
