import Napitia.Typeck.Usefulness

/-!
# What the depth limit of the analysis counts

The walk takes one position of its row at a time, and each one counts against the
depth limit: the payload positions of a case one after the other, not only how far
patterns nest. Here the walk says which of its two limits it reports, and whether it
ever reports the depth is settled by the longest way it takes.
-/
namespace Napitia.Typeck

/-- The two limits of the walk. -/
inductive Limit where
  | depth | steps
  deriving DecidableEq, Repr

inductive Verdict where
  | useful | notUseful
  | exceeded (limit : Limit)
  deriving DecidableEq, Repr

/-- The verdict without its reason, for a verdict without its witness. -/
def Verdict.Explains : Verdict → Usefulness → Prop
  | .useful, .useful _ => True
  | .notUseful, .notUseful => True
  | .exceeded _, .budgetExceeded => True
  | _, _ => False

/-- The first of several alternatives that is not useless. -/
def explainEach : List (StateM ℕ Verdict) → StateM ℕ Verdict
  | [] => pure .notUseful
  | first :: rest => do
    match ← first with
    | .notUseful => explainEach rest
    | other => pure other

/-- The walk of the analysis, with the limit it reports in place of the witness. -/
def explainAtDepth (variants : VariantSpace) :
    ℕ → List Row → Row → List Ty → StateM ℕ Verdict
  | 0, _, _, _ => pure (.exceeded .depth)
  | n + 1, matrix, row, tys => do
    if (← get) = 0 then return .exceeded .steps
    modify (· - 1)
    match row, tys with
    | [], _ => pure (if matrix.isEmpty then .useful else .notUseful)
    | _ :: _, [] => pure .notUseful
    | .variant item case args :: rest, ty :: tys =>
      explainAtDepth variants n (specializeVariant matrix item case args.length)
        (args ++ rest) (patternPayload variants item case ty ++ tys)
    | .bool b :: rest, _ :: tys => explainAtDepth variants n (specializeBool matrix b) rest tys
    | .literal key :: rest, _ :: tys =>
      explainAtDepth variants n (specializeLiteral matrix key) rest tys
    | .wildcard :: rest, ty :: tys =>
      match space variants ty with
      | .bool => explainEach ([false, true].map fun b =>
          explainAtDepth variants n (specializeBool matrix b) rest tys)
      | .variant item cases => explainEach (cases.zipIdx.map fun p =>
          explainAtDepth variants n (specializeVariant matrix item p.2 p.1.length)
            (List.replicate p.1.length .wildcard ++ rest) (p.1 ++ tys))
      | .openEnded => explainAtDepth variants n (defaultMatrix matrix) rest tys

/-- The limit the analysis of a `match` reports, from the arms that are left and the
matrix of those before them. -/
def explainArms (variants : VariantSpace) (ty : Ty) :
    List ResolvedPattern → List Row → StateM ℕ (Option Limit)
  | [], matrix => do
    match ← explainAtDepth variants (Limits.maxPatternDepth + 1) matrix [.wildcard] [ty] with
    | .exceeded limit => pure (some limit)
    | _ => pure none
  | pattern :: rest, matrix => do
    match ← explainAtDepth variants (Limits.maxPatternDepth + 1) matrix [pattern] [ty] with
    | .exceeded limit => pure (some limit)
    | _ => explainArms variants ty rest (matrix ++ [[pattern]])

/-! ### The same walk -/

/-- One computation explains another: it takes the same steps to the same verdict. -/
def Explaining (x : StateM ℕ Verdict) (y : StateM ℕ Usefulness) : Prop :=
  ∀ b, (x.run b).1.Explains (y.run b).1 ∧ (x.run b).2 = (y.run b).2

section
variable {x : StateM ℕ Verdict} {y : StateM ℕ Usefulness}

theorem Verdict.Explains.map {v : Verdict} {u : Usefulness} (h : v.Explains u) (f : Row → Row) :
    v.Explains (u.map f) := by
  cases u with
  | useful w => cases v <;> exact h
  | notUseful => exact h
  | budgetExceeded => exact h

theorem Explaining.map (h : Explaining x y) (f : Row → Row) :
    Explaining x (do pure ((← y).map f)) :=
  fun b => ⟨(h b).1.map f, (h b).2⟩

theorem Explaining.charged (h : Explaining x y) :
    Explaining (do
      if (← get) = 0 then return .exceeded .steps
      modify (· - 1)
      x) (do
      if (← get) = 0 then return .budgetExceeded
      modify (· - 1)
      y) := by
  intro b
  by_cases hb : b = 0
  · subst hb
    exact ⟨trivial, rfl⟩
  · simpa [hb] using h (b - 1)

theorem explainEach_cons_run (x : StateM ℕ Verdict) (xs : List (StateM ℕ Verdict)) (b : ℕ) :
    (explainEach (x :: xs)).run b =
      if (x.run b).1 = .notUseful then (explainEach xs).run (x.run b).2 else x.run b := by
  have hbind : (explainEach (x :: xs)).run b =
      (match (x.run b).1 with | .notUseful => explainEach xs | other => pure other).run
        (x.run b).2 := rfl
  rw [hbind]
  obtain ⟨v, b'⟩ := x.run b
  cases v <;> rfl

theorem explainEach_explains {α : Type} {l : List α} {f : α → StateM ℕ Verdict}
    {g : α → StateM ℕ Usefulness} (h : ∀ a ∈ l, Explaining (f a) (g a)) :
    Explaining (explainEach (l.map f)) (tryEach (l.map g)) := by
  induction l with
  | nil => exact fun b => ⟨trivial, rfl⟩
  | cons a l ih =>
    intro b
    obtain ⟨hverdict, hstate⟩ := h a List.mem_cons_self b
    have hrest := ih fun a' ha' => h a' (List.mem_cons_of_mem _ ha')
    rw [List.map_cons, List.map_cons, explainEach_cons_run, tryEach, StateT.run_bind]
    generalize (f a).run b = first at hverdict hstate ⊢
    generalize (g a).run b = first' at hverdict hstate ⊢
    obtain ⟨v, c⟩ := first
    obtain ⟨u, c'⟩ := first'
    dsimp only at hverdict hstate
    subst hstate
    cases u with
    | useful w =>
      cases v with
      | useful => exact ⟨trivial, rfl⟩
      | _ => exact hverdict.elim
    | notUseful =>
      cases v with
      | notUseful => exact hrest c
      | _ => exact hverdict.elim
    | budgetExceeded =>
      cases v with
      | exceeded limit => exact ⟨trivial, rfl⟩
      | _ => exact hverdict.elim

theorem explainAtDepth_explains (variants : VariantSpace) (n : ℕ) (matrix : List Row) (row : Row)
    (tys : List Ty) : Explaining (explainAtDepth variants n matrix row tys)
      (isUsefulAtDepth variants n matrix row tys) := by
  induction n generalizing matrix row tys with
  | zero => exact fun b => ⟨trivial, rfl⟩
  | succ n ih =>
    unfold explainAtDepth isUsefulAtDepth
    apply Explaining.charged
    cases row with
    | nil =>
      intro b
      cases matrix with
      | nil => exact ⟨trivial, rfl⟩
      | cons r rs => exact ⟨trivial, rfl⟩
    | cons p rest =>
      cases tys with
      | nil =>
        cases p <;> exact fun b => ⟨trivial, rfl⟩
      | cons ty tys =>
        cases p with
        | wildcard =>
          dsimp only
          cases space variants ty with
          | bool => exact explainEach_explains fun b _ => (ih _ _ _).map _
          | «variant» item cases => exact explainEach_explains fun p _ => (ih _ _ _).map _
          | openEnded => exact (ih _ _ _).map _
        | bool b => exact (ih _ _ _).map _
        | literal key => exact (ih _ _ _).map _
        | «variant» item case args => exact (ih _ _ _).map _

end

/-! ### The limit the analysis reports -/

/-- The limit in a verdict. -/
def Verdict.limit : Verdict → Option Limit
  | .exceeded limit => some limit
  | _ => none

section
variable {variants : VariantSpace} {ty : Ty} {rest : List ResolvedPattern} {matrix : List Row}
  {b : ℕ}

theorem explainArms_nil_run : ((explainArms variants ty [] matrix).run b).1 =
    ((explainAtDepth variants (Limits.maxPatternDepth + 1) matrix [.wildcard] [ty]).run b).1.limit := by
  have hbind : (explainArms variants ty [] matrix).run b =
      (match ((explainAtDepth variants (Limits.maxPatternDepth + 1) matrix [.wildcard] [ty]).run
          b).1 with
        | .exceeded limit => pure (some limit)
        | _ => pure none : StateM ℕ (Option Limit)).run
      ((explainAtDepth variants (Limits.maxPatternDepth + 1) matrix [.wildcard] [ty]).run b).2 := rfl
  rw [hbind]
  cases ((explainAtDepth variants (Limits.maxPatternDepth + 1) matrix [.wildcard] [ty]).run b).1 <;>
    rfl

theorem explainArms_cons_run {p : ResolvedPattern} :
    (explainArms variants ty (p :: rest) matrix).run b =
      match (explainAtDepth variants (Limits.maxPatternDepth + 1) matrix [p] [ty]).run b with
      | (.exceeded limit, b') => (some limit, b')
      | (_, b') => (explainArms variants ty rest (matrix ++ [[p]])).run b' := by
  have hbind : (explainArms variants ty (p :: rest) matrix).run b =
      (match ((explainAtDepth variants (Limits.maxPatternDepth + 1) matrix [p] [ty]).run b).1 with
        | .exceeded limit => pure (some limit)
        | _ => explainArms variants ty rest (matrix ++ [[p]])).run
      ((explainAtDepth variants (Limits.maxPatternDepth + 1) matrix [p] [ty]).run b).2 := rfl
  rw [hbind]
  obtain ⟨v, b'⟩ := (explainAtDepth variants (Limits.maxPatternDepth + 1) matrix [p] [ty]).run b
  cases v <;> rfl

/-- Whether the analysis has given up, past the arms. -/
def GivesUp (variants : VariantSpace) (ty : Ty) (result : ArmsChecked × ℕ) : Prop :=
  result.1.budgetExceeded = true ∨
    ((isUseful variants result.1.matrix [.wildcard] [ty]).run result.2).1 = .budgetExceeded

theorem givesUp_iff {i : ℕ} {checked : ArmsChecked} (hchecked : checked.budgetExceeded = false) :
    GivesUp variants ty ((checkArms variants ty (rest.zipIdx i) checked).run b) ↔
      ((explainArms variants ty rest checked.matrix).run b).1.isSome = true := by
  induction rest generalizing i b checked with
  | nil =>
    have hlast := (explainAtDepth_explains variants (Limits.maxPatternDepth + 1) checked.matrix
      [.wildcard] [ty] b).1
    have hrun : (checkArms variants ty (([] : List ResolvedPattern).zipIdx i) checked).run b =
        (checked, b) := rfl
    rw [explainArms_nil_run, hrun, GivesUp, isUseful, hchecked]
    generalize ((explainAtDepth variants (Limits.maxPatternDepth + 1) checked.matrix
      [.wildcard] [ty]).run b).1 = v at hlast ⊢
    generalize ((isUsefulAtDepth variants (Limits.maxPatternDepth + 1) checked.matrix
      [.wildcard] [ty]).run b).1 = u at hlast ⊢
    cases u <;> cases v <;> simp_all [Verdict.Explains, Verdict.limit]
  | cons p rest ih =>
    obtain ⟨hverdict, hstate⟩ := explainAtDepth_explains variants (Limits.maxPatternDepth + 1)
      checked.matrix [p] [ty] b
    rw [List.zipIdx_cons, checkArms_cons_run, explainArms_cons_run, isUseful]
    generalize (explainAtDepth variants (Limits.maxPatternDepth + 1) checked.matrix [p] [ty]).run b
      = explained at hverdict hstate ⊢
    generalize (isUsefulAtDepth variants (Limits.maxPatternDepth + 1) checked.matrix [p] [ty]).run b
      = verdict at hverdict hstate ⊢
    obtain ⟨v, c⟩ := explained
    obtain ⟨u, c'⟩ := verdict
    dsimp only at hverdict hstate
    subst hstate
    cases u with
    | useful w =>
      cases v with
      | useful => exact ih (show (checked.push p).budgetExceeded = false from hchecked)
      | _ => exact hverdict.elim
    | notUseful =>
      cases v with
      | notUseful => exact ih (show ((checked.mark i).push p).budgetExceeded = false from hchecked)
      | _ => exact hverdict.elim
    | budgetExceeded =>
      cases v with
      | exceeded limit => simp [GivesUp]
      | _ => exact hverdict.elim

/-- The analysis gives up when it reports one of its limits. -/
theorem explainArms_explains {patterns : List ResolvedPattern} {budget : ℕ} :
    (analyzeMatchWithBudget ty patterns variants budget).budgetExceeded =
      ((explainArms variants ty patterns []).run budget).1.isSome := by
  rw [Bool.eq_iff_iff, ← givesUp_iff (i := 0) (show ({} : ArmsChecked).budgetExceeded = false from rfl)]
  unfold analyzeMatchWithBudget GivesUp
  generalize (checkArms variants ty patterns.zipIdx {}).run budget = loop
  obtain ⟨checked, b⟩ := loop
  dsimp only
  cases hexceeded : checked.budgetExceeded with
  | true => simp
  | false =>
    generalize ((isUseful variants checked.matrix [.wildcard] [ty]).run b).1 = u
    cases u <;> simp

end

/-! ### What a walk costs -/

/-- A computation that needs this much of its budget for its result, and reports
`spent` when it has less. -/
structure Costs {α : Type} (spent : α) (x : StateM ℕ α) (cost : ℕ) (result : α) : Prop where
  result_ne : result ≠ spent
  enough : ∀ b, cost ≤ b → x.run b = (result, b - cost)
  short : ∀ b, b < cost → (x.run b).1 = spent

section
variable {α β : Type} {spent : α} {spent' : β} {x : StateM ℕ α} {c c' : ℕ} {a : α} {r : β}

theorem Costs.pure (h : a ≠ spent) : Costs spent (pure a) 0 a :=
  ⟨h, fun _ _ => rfl, fun b hb => absurd hb (Nat.not_lt_zero b)⟩

theorem Costs.bind {f : α → StateM ℕ β} (h : Costs spent x c a) (hf : Costs spent' (f a) c' r)
    (hspent : ∀ b, ((f spent).run b).1 = spent') : Costs spent' (x >>= f) (c + c') r := by
  have hrun : ∀ b, (x >>= f).run b = (f (x.run b).1).run (x.run b).2 := fun _ => rfl
  refine ⟨hf.result_ne, fun b hb => ?_, fun b hb => ?_⟩
  · rw [hrun, h.enough b (by omega), hf.enough _ (by omega), Nat.sub_sub]
  · by_cases hc : c ≤ b
    · rw [hrun, h.enough b hc]
      exact hf.short _ (by omega)
    · rw [hrun, h.short b (by omega)]
      exact hspent _

theorem Costs.result_iff (h : Costs spent x c a) {w : α} (hw : w ≠ spent) :
    (∃ b, (x.run b).1 = w) ↔ a = w := by
  constructor
  · rintro ⟨b, hb⟩
    by_cases hc : c ≤ b
    · rw [h.enough b hc] at hb
      exact hb
    · rw [h.short b (by omega)] at hb
      exact absurd hb.symm hw
  · intro ha
    exact ⟨c, by rw [h.enough c le_rfl, ha]⟩

end

section
variable {x : StateM ℕ Verdict} {c : ℕ} {v : Verdict}

theorem Costs.charged (h : Costs (.exceeded .steps) x c v) :
    Costs (.exceeded .steps) (do
      if (← get) = 0 then return .exceeded .steps
      modify (· - 1)
      x) (c + 1) v := by
  refine ⟨h.result_ne, fun b hb => ?_, fun b hb => ?_⟩
  · have hne : b ≠ 0 := by omega
    have hrun := h.enough (b - 1) (by omega)
    have hsub : b - 1 - c = b - (c + 1) := by omega
    rw [hsub] at hrun
    simpa [hne] using hrun
  · by_cases hzero : b = 0
    · subst hzero
      rfl
    · have hrun := h.short (b - 1) (by omega)
      simpa [hzero] using hrun

/-- The first verdict that is not useless. -/
def firstVerdict : List Verdict → Verdict
  | [] => .notUseful
  | .notUseful :: rest => firstVerdict rest
  | v :: _ => v

theorem explainEach_costs {α : Type} {l : List α} {f : α → StateM ℕ Verdict} {v : α → Verdict}
    (h : ∀ a ∈ l, ∃ c, Costs (.exceeded .steps) (f a) c (v a)) :
    ∃ c, Costs (.exceeded .steps) (explainEach (l.map f)) c (firstVerdict (l.map v)) := by
  induction l with
  | nil => exact ⟨0, .pure (by simp)⟩
  | cons a l ih =>
    obtain ⟨c, hc⟩ := h a List.mem_cons_self
    obtain ⟨c', hc'⟩ := ih fun a' ha' => h a' (List.mem_cons_of_mem _ ha')
    have hspent : ∀ b, ((match Verdict.exceeded .steps with
        | .notUseful => explainEach (l.map f)
        | other => pure other : StateM ℕ Verdict).run b).1 = .exceeded .steps := fun _ => rfl
    rw [List.map_cons, List.map_cons]
    by_cases hnot : v a = .notUseful
    · rw [hnot] at hc ⊢
      exact ⟨c + c', hc.bind hc' hspent⟩
    · refine ⟨c + 0, hc.bind (r := firstVerdict (v a :: l.map v)) ?_ hspent⟩
      have hne := hc.result_ne
      generalize v a = w at hnot hne ⊢
      cases w with
      | notUseful => exact absurd rfl hnot
      | useful => exact .pure hne
      | exceeded limit => exact .pure hne

/-- Of several alternatives the depth is reported when one has it reported and the
ones before it are useless. -/
theorem firstVerdict_eq_depth {α : Type} {l : List α} {v : α → Verdict} {P U : α → Prop}
    (hdepth : ∀ a ∈ l, v a = .exceeded .depth ↔ P a)
    (hsteps : ∀ a ∈ l, v a ≠ .exceeded .steps)
    (huseful : ∀ a ∈ l, v a = .useful → U a) (hnot : ∀ a ∈ l, v a = .notUseful → ¬ U a) :
    firstVerdict (l.map v) = .exceeded .depth ↔
      ∃ before a after, l = before ++ a :: after ∧ P a ∧ ∀ a' ∈ before, ¬ U a' := by
  induction l with
  | nil => simp [firstVerdict]
  | cons a l ih =>
    have hrest := ih (fun a' ha' => hdepth a' (List.mem_cons_of_mem _ ha'))
      (fun a' ha' => hsteps a' (List.mem_cons_of_mem _ ha'))
      (fun a' ha' => huseful a' (List.mem_cons_of_mem _ ha'))
      (fun a' ha' => hnot a' (List.mem_cons_of_mem _ ha'))
    have hhere := hdepth a List.mem_cons_self
    rw [List.map_cons]
    cases hv : v a with
    | exceeded limit =>
      cases limit with
      | steps => exact absurd hv (hsteps a List.mem_cons_self)
      | depth => exact ⟨fun _ => ⟨[], a, l, rfl, hhere.mp hv, by simp⟩, fun _ => rfl⟩
    | useful =>
      constructor
      · intro h
        cases h
      · rintro ⟨before, a', after, hl, hP, hbefore⟩
        cases before with
        | nil =>
          cases hl
          rw [hhere.mpr hP] at hv
          cases hv
        | cons first before =>
          cases hl
          exact absurd (huseful a List.mem_cons_self hv) (hbefore a List.mem_cons_self)
    | notUseful =>
      change firstVerdict (l.map v) = .exceeded .depth ↔ _
      rw [hrest]
      constructor
      · rintro ⟨before, a', after, hl, hP, hbefore⟩
        refine ⟨a :: before, a', after, by rw [hl]; rfl, hP, fun b hb => ?_⟩
        rcases List.mem_cons.mp hb with rfl | hb
        · exact hnot _ List.mem_cons_self hv
        · exact hbefore b hb
      · rintro ⟨before, a', after, hl, hP, hbefore⟩
        cases before with
        | nil =>
          cases hl
          rw [hhere.mpr hP] at hv
          cases hv
        | cons first before =>
          cases hl
          exact ⟨before, a', after, rfl, hP, fun b hb => hbefore b (List.mem_cons_of_mem _ hb)⟩

end

/-! ### How far a walk goes -/

/-- What a walk is asked: whether the row is useful beside the matrix. -/
structure Question where
  matrix : List Row
  row : Row
  tys : List Ty

/-- One position taken. A catch-all goes on with each constructor of its type as long
as those before it leave nothing to be matched. -/
inductive Takes (variants : VariantSpace) (D : OpenDomain) : Question → Question → Prop
  | case {matrix : List Row} {item : ItemId} {case : ℕ} {args rest : Row} {ty : Ty}
      {tys : List Ty} : Takes variants D ⟨matrix, .variant item case args :: rest, ty :: tys⟩
        ⟨specializeVariant matrix item case args.length, args ++ rest,
          patternPayload variants item case ty ++ tys⟩
  | bool {matrix : List Row} {b : Bool} {rest : Row} {ty : Ty} {tys : List Ty} :
      Takes variants D ⟨matrix, .bool b :: rest, ty :: tys⟩ ⟨specializeBool matrix b, rest, tys⟩
  | literal {matrix : List Row} {key : LiteralKey} {rest : Row} {ty : Ty} {tys : List Ty} :
      Takes variants D ⟨matrix, .literal key :: rest, ty :: tys⟩
        ⟨specializeLiteral matrix key, rest, tys⟩
  | eachBool {matrix : List Row} {rest : Row} {ty : Ty} {tys : List Ty} (b : Bool) :
      space variants ty = .bool →
      (b = true → ¬ Useful variants D (specializeBool matrix false) rest tys) →
      Takes variants D ⟨matrix, .wildcard :: rest, ty :: tys⟩ ⟨specializeBool matrix b, rest, tys⟩
  | eachCase {matrix : List Row} {item : ItemId} {cases : List (List Ty)} {case : ℕ}
      {payload : List Ty} {rest : Row} {ty : Ty} {tys : List Ty} :
      space variants ty = .variant item cases → cases[case]? = some payload →
      (∀ p ∈ cases.zipIdx, p.2 < case → ¬ Useful variants D
        (specializeVariant matrix item p.2 p.1.length)
        (List.replicate p.1.length .wildcard ++ rest) (p.1 ++ tys)) →
      Takes variants D ⟨matrix, .wildcard :: rest, ty :: tys⟩
        ⟨specializeVariant matrix item case payload.length,
          List.replicate payload.length .wildcard ++ rest, payload ++ tys⟩
  | open {matrix : List Row} {rest : Row} {ty : Ty} {tys : List Ty} :
      space variants ty = .openEnded →
      Takes variants D ⟨matrix, .wildcard :: rest, ty :: tys⟩ ⟨defaultMatrix matrix, rest, tys⟩

/-- The walk takes this many positions, one after the other. -/
def Deep (variants : VariantSpace) (D : OpenDomain) : ℕ → Question → Prop
  | 0, _ => True
  | n + 1, q => ∃ q', Takes variants D q q' ∧ Deep variants D n q'

theorem zipIdx_split {α : Type} {l : List α} {P U : α × ℕ → Prop} :
    (∃ before p after, l.zipIdx = before ++ p :: after ∧ P p ∧ ∀ q ∈ before, ¬ U q) ↔
      ∃ a i, l[i]? = some a ∧ P (a, i) ∧ ∀ q ∈ l.zipIdx, q.2 < i → ¬ U q := by
  have hindex : ∀ {j : ℕ} {q : α × ℕ}, l.zipIdx[j]? = some q → q.2 = j := by
    intro j q hq
    rw [List.getElem?_zipIdx] at hq
    obtain ⟨a, -, rfl⟩ := Option.map_eq_some_iff.mp hq
    exact Nat.zero_add j
  constructor
  · rintro ⟨before, ⟨a, i⟩, after, hl, hP, hbefore⟩
    have hat : l.zipIdx[before.length]? = some (a, i) := by simp [hl]
    have hi : i = before.length := hindex hat
    have hmem : (a, i) ∈ l.zipIdx := List.mem_of_getElem? hat
    refine ⟨a, i, List.mk_mem_zipIdx_iff_getElem?.mp hmem, hP, fun q hq hlt => hbefore q ?_⟩
    obtain ⟨j, hj⟩ := List.mem_iff_getElem?.mp hq
    rw [hindex hj] at hlt
    rw [hl, List.getElem?_append_left (by omega)] at hj
    exact List.mem_of_getElem? hj
  · rintro ⟨a, i, ha, hP, hearlier⟩
    have hat : l.zipIdx[i]? = some (a, i) := by simp [List.getElem?_zipIdx, ha]
    have hlt : i < l.zipIdx.length := (List.getElem?_eq_some_iff.mp hat).choose
    refine ⟨l.zipIdx.take i, (a, i), l.zipIdx.drop (i + 1), ?_, hP, fun q hq => ?_⟩
    · have hget : l.zipIdx[i] = (a, i) := Option.some.inj ((List.getElem?_eq_getElem hlt).symm.trans hat)
      rw [← hget, List.getElem_cons_drop, List.take_append_drop]
    · obtain ⟨j, hj, rfl⟩ := List.mem_take_iff_getElem.mp hq
      have hjlt : j < i := by omega
      have hq' : l.zipIdx[j]? = some l.zipIdx[j] := List.getElem?_eq_getElem (by omega)
      refine hearlier _ (List.mem_of_getElem? hq') ?_
      rw [hindex hq']
      exact hjlt

section
variable {variants : VariantSpace} {D : OpenDomain} {matrix : List Row} {ty : Ty} {tys : List Ty}
  {row rest : Row} {x : StateM ℕ Verdict} {c n : ℕ} {v : Verdict}

/-- What a verdict says about a question. -/
def Verdict.Decides (v : Verdict) (P : Prop) : Prop :=
  (v = .useful → P) ∧ (v = .notUseful → ¬ P)

theorem Costs.decides {y : StateM ℕ Usefulness} {P : Prop}
    (h : Costs (.exceeded .steps) x c v) (hxy : Explaining x y) (hy : Answers y P) :
    v.Decides P := by
  have hexplains := (hxy c).1
  have hanswer := hy c
  rw [h.enough c le_rfl] at hexplains
  generalize (y.run c).1 = u at hexplains hanswer
  constructor
  · rintro rfl
    cases u with
    | useful w => exact hanswer
    | _ => exact hexplains.elim
  · rintro rfl
    cases u with
    | notUseful => exact hanswer
    | _ => exact hexplains.elim

/-- A computation that reports the depth, given budget enough, exactly under the
condition. -/
def Gauges (x : StateM ℕ Verdict) (P : Prop) : Prop :=
  ∃ c v, Costs (.exceeded .steps) x c v ∧ (v = .exceeded .depth ↔ P)

theorem Gauges.congr {P Q : Prop} (h : Gauges x P) (hPQ : Q ↔ P) : Gauges x Q := by
  obtain ⟨c, v, hc, hv⟩ := h
  exact ⟨c, v, hc, hv.trans hPQ.symm⟩

theorem Gauges.charged {P : Prop} (h : Gauges x P) : Gauges (do
    if (← get) = 0 then return .exceeded .steps
    modify (· - 1)
    x) P := by
  obtain ⟨c, v, hc, hv⟩ := h
  exact ⟨c + 1, v, hc.charged, hv⟩

theorem gauges_pure {P : Prop} (hv : v ≠ .exceeded .steps) (hP : v = .exceeded .depth ↔ P) :
    Gauges (pure v) P :=
  ⟨0, v, .pure hv, hP⟩

theorem explainEach_gauges {α : Type} {l : List α} {f : α → StateM ℕ Verdict}
    {g : α → StateM ℕ Usefulness} {P U : α → Prop} (hf : ∀ a ∈ l, Gauges (f a) (P a))
    (hexplains : ∀ a ∈ l, Explaining (f a) (g a)) (hanswers : ∀ a ∈ l, Answers (g a) (U a)) :
    Gauges (explainEach (l.map f))
      (∃ before a after, l = before ++ a :: after ∧ P a ∧ ∀ a' ∈ before, ¬ U a') := by
  have hinhabited : Nonempty Verdict := ⟨.useful⟩
  choose! c v hc hv using hf
  have hdecides : ∀ a ∈ l, (v a).Decides (U a) := fun a ha =>
    (hc a ha).decides (hexplains a ha) (hanswers a ha)
  obtain ⟨cost, hcost⟩ := explainEach_costs fun a ha => ⟨c a, hc a ha⟩
  exact ⟨cost, _, hcost, firstVerdict_eq_depth hv (fun a ha => (hc a ha).result_ne)
    (fun a ha => (hdecides a ha).1) (fun a ha => (hdecides a ha).2)⟩

theorem gauges_wildcard
    (ih : ∀ {matrix : List Row} {row : Row} {tys : List Ty},
      (∀ r ∈ matrix, RowTyped variants D tys r) → RowTyped variants D tys row →
      Gauges (explainAtDepth variants n matrix row tys) (Deep variants D n ⟨matrix, row, tys⟩))
    (htyped : ∀ r ∈ matrix, RowTyped variants D (ty :: tys) r)
    (hrest : RowTyped variants D tys rest) :
    Gauges (match space variants ty with
      | .bool => explainEach ([false, true].map fun b =>
          explainAtDepth variants n (specializeBool matrix b) rest tys)
      | .variant item cases => explainEach (cases.zipIdx.map fun p =>
          explainAtDepth variants n (specializeVariant matrix item p.2 p.1.length)
            (List.replicate p.1.length .wildcard ++ rest) (p.1 ++ tys))
      | .openEnded => explainAtDepth variants n (defaultMatrix matrix) rest tys)
      (Deep variants D (n + 1) ⟨matrix, .wildcard :: rest, ty :: tys⟩) := by
  cases hspace : space variants ty with
  | bool =>
    have heach := explainEach_gauges (l := [false, true])
      (fun b _ => ih (@rowTyped_specializeBool variants D matrix ty tys b htyped) hrest)
      (fun b _ => explainAtDepth_explains variants n (specializeBool matrix b) rest tys)
      (fun b _ => isUsefulAtDepth_answers (rowTyped_specializeBool htyped) hrest)
    refine heach.congr ⟨?_, ?_⟩
    · rintro ⟨q, htakes, hdeep⟩
      cases htakes with
      | eachBool b _ hearlier =>
        cases b with
        | false => exact ⟨[], false, [true], rfl, hdeep, by simp⟩
        | true => exact ⟨[false], true, [], rfl, hdeep, by simpa using hearlier rfl⟩
      | eachCase hspace' _ _ => simp [hspace] at hspace'
      | «open» hspace' => simp [hspace] at hspace'
    · rintro ⟨before, b, after, hl, hdeep, hbefore⟩
      refine ⟨_, .eachBool b hspace ?_, hdeep⟩
      rintro rfl
      cases before with
      | nil => simp at hl
      | cons first before =>
        have hfirst : first = false := by simpa using (congrArg List.head? hl).symm
        exact hfirst ▸ hbefore first List.mem_cons_self
  | «variant» item cases =>
    have hrow : ∀ p ∈ cases.zipIdx, ∀ r ∈ specializeVariant matrix item p.2 p.1.length,
        RowTyped variants D (p.1 ++ tys) r := fun p hp =>
      rowTyped_specializeVariant hspace (List.mem_zipIdx_iff_getElem?.mp hp) htyped
    have hwild : ∀ p : List Ty × ℕ, RowTyped variants D (p.1 ++ tys)
        (List.replicate p.1.length .wildcard ++ rest) := fun p =>
      (rowTyped_replicate p.1).append hrest
    have heach := explainEach_gauges (l := cases.zipIdx)
      (fun p hp => ih (hrow p hp) (hwild p))
      (fun p _ => explainAtDepth_explains variants n _ _ _)
      (fun p hp => isUsefulAtDepth_answers (hrow p hp) (hwild p))
    refine heach.congr (Iff.trans ?_ zipIdx_split.symm)
    constructor
    · rintro ⟨q, htakes, hdeep⟩
      cases htakes with
      | eachBool _ hspace' _ => simp [hspace] at hspace'
      | eachCase hspace' hcase hearlier =>
        rw [hspace] at hspace'
        cases hspace'
        exact ⟨_, _, hcase, hdeep, hearlier⟩
      | «open» hspace' => simp [hspace] at hspace'
    · rintro ⟨payload, case, hcase, hdeep, hearlier⟩
      exact ⟨_, .eachCase hspace hcase hearlier, hdeep⟩
  | openEnded =>
    refine (ih (rowTyped_defaultMatrix htyped) hrest).congr ⟨?_, ?_⟩
    · rintro ⟨q, htakes, hdeep⟩
      cases htakes with
      | eachBool _ hspace' _ => simp [hspace] at hspace'
      | eachCase hspace' _ _ => simp [hspace] at hspace'
      | «open» _ => exact hdeep
    · intro hdeep
      exact ⟨_, .open hspace, hdeep⟩

/-- The walk reports the depth when it goes as deep as it may, by induction on what
remains of the depth. -/
theorem explainAtDepth_gauges (htyped : ∀ r ∈ matrix, RowTyped variants D tys r)
    (hrow : RowTyped variants D tys row) :
    Gauges (explainAtDepth variants n matrix row tys) (Deep variants D n ⟨matrix, row, tys⟩) := by
  induction n generalizing matrix row tys with
  | zero => exact gauges_pure (by simp) (by simp [Deep])
  | succ n ih =>
    unfold explainAtDepth
    apply Gauges.charged
    cases hrow with
    | nil =>
      have hshallow : ¬ Deep variants D (n + 1) ⟨matrix, [], []⟩ := by
        rintro ⟨q, htakes, -⟩
        cases htakes
      apply gauges_pure
      · cases matrix <;> simp
      · cases matrix <;> simp [hshallow]
    | @cons p ty rest tys hp hrest =>
      cases p with
      | wildcard => exact gauges_wildcard ih htyped hrest
      | bool b =>
        refine (ih (rowTyped_specializeBool htyped) hrest).congr ⟨?_, fun h => ⟨_, .bool, h⟩⟩
        rintro ⟨q, htakes, hdeep⟩
        cases htakes
        exact hdeep
      | literal key =>
        refine (ih (rowTyped_specializeLiteral htyped) hrest).congr ⟨?_, fun h => ⟨_, .literal, h⟩⟩
        rintro ⟨q, htakes, hdeep⟩
        cases htakes
        exact hdeep
      | «variant» item case args =>
        cases hp with
        | variant hspace hcase hargs =>
          have hargs : RowTyped variants D _ args := hargs
          have hspecial := rowTyped_specializeVariant hspace hcase htyped
          rw [← hargs.length_eq] at hspecial
          have hpayload := patternPayload_eq hspace hcase
          have hwalk := ih hspecial (hargs.append hrest)
          rw [← hpayload] at hwalk
          refine hwalk.congr ⟨?_, fun h => ⟨_, .case, h⟩⟩
          rintro ⟨q, htakes, hdeep⟩
          cases htakes
          exact hdeep

/-! ### The depth of a `match` -/

/-- The questions the analysis of a `match` asks: each arm beside those before it, and
a catch-all beside all of them. -/
def questionsFrom (ty : Ty) : List ResolvedPattern → List Row → List Question
  | [], matrix => [⟨matrix, [.wildcard], [ty]⟩]
  | p :: rest, matrix => ⟨matrix, [p], [ty]⟩ :: questionsFrom ty rest (matrix ++ [[p]])

theorem explainArms_costs {arms : List ResolvedPattern}
    (hmatrix : ∀ r ∈ matrix, RowTyped variants D [ty] r)
    (htyped : ∀ p ∈ arms, Typed variants D p ty) :
    ∃ c result, Costs (some .steps) (explainArms variants ty arms matrix) c result ∧
      (result = some .depth ↔
        ∃ q ∈ questionsFrom ty arms matrix, Deep variants D (Limits.maxPatternDepth + 1) q) := by
  induction arms generalizing matrix with
  | nil =>
    obtain ⟨c, v, hc, hv⟩ := explainAtDepth_gauges (n := Limits.maxPatternDepth + 1) hmatrix
      (.cons .wildcard .nil : RowTyped variants D [ty] [.wildcard])
    refine ⟨c + 0, v.limit, hc.bind ?_ fun _ => rfl, ?_⟩
    · have hne := hc.result_ne
      cases v with
      | exceeded limit => exact .pure fun h => hne (by rw [Option.some.inj h])
      | _ => exact .pure (by simp)
    · simp only [questionsFrom, List.mem_singleton, exists_eq_left, ← hv]
      cases v <;> simp [Verdict.limit]
  | cons p arms ih =>
    have hp : RowTyped variants D [ty] [p] := .cons (htyped p List.mem_cons_self) .nil
    obtain ⟨c, v, hc, hv⟩ := explainAtDepth_gauges (n := Limits.maxPatternDepth + 1) hmatrix hp
    have hmatrix' : ∀ r ∈ matrix ++ [[p]], RowTyped variants D [ty] r := by
      intro r hr
      rcases List.mem_append.mp hr with hr | hr
      · exact hmatrix r hr
      · exact List.mem_singleton.mp hr ▸ hp
    obtain ⟨c', result, hc', hresult⟩ := ih hmatrix' fun q hq => htyped q (List.mem_cons_of_mem _ hq)
    by_cases hexceeded : ∃ limit, v = .exceeded limit
    · obtain ⟨limit, rfl⟩ := hexceeded
      have hne := hc.result_ne
      refine ⟨c + 0, some limit, hc.bind ?_ fun _ => rfl, ?_⟩
      · exact .pure fun h => hne (by rw [Option.some.inj h])
      · have hlimit : limit = .depth := by
          cases limit with
          | depth => rfl
          | steps => exact absurd rfl hne
        subst hlimit
        simp only [true_iff]
        exact ⟨_, List.mem_cons_self, hv.mp rfl⟩
    · have hshallow : ¬ Deep variants D (Limits.maxPatternDepth + 1) ⟨matrix, [p], [ty]⟩ :=
        fun hdeep => hexceeded ⟨.depth, hv.mpr hdeep⟩
      refine ⟨c + c', result, hc.bind ?_ fun _ => rfl, ?_⟩
      · cases v with
        | exceeded limit => exact absurd ⟨limit, rfl⟩ hexceeded
        | useful => exact hc'
        | notUseful => exact hc'
      · rw [hresult]
        simp [questionsFrom, hshallow]

/-- The analysis of a `match` gives up where it comes to one of its two limits, and at no budget
is it stopped by its depth limit exactly when none of its questions takes more positions, one
after the other, than the limit. -/
theorem analyzeMatch_depth_iff {patterns : List ResolvedPattern}
    (htyped : ∀ p ∈ patterns, Typed variants D p ty) :
    (∀ budget, (analyzeMatchWithBudget ty patterns variants budget).budgetExceeded =
      ((explainArms variants ty patterns []).run budget).1.isSome) ∧
    ((∀ budget, ((explainArms variants ty patterns []).run budget).1 ≠ some .depth) ↔
      ∀ q ∈ questionsFrom ty patterns [], ¬ Deep variants D (Limits.maxPatternDepth + 1) q) := by
  refine ⟨fun budget => explainArms_explains, ?_⟩
  have hnone : ∀ r ∈ ([] : List Row), RowTyped variants D [ty] r := by simp
  obtain ⟨c, result, hc, hresult⟩ := explainArms_costs hnone htyped
  have hreported := hc.result_iff (w := some .depth) (by simp)
  rw [← not_exists, hreported, hresult]
  simp

end

/-! ### A wide case -/

mutual

/-- How deep constructors nest in a pattern. -/
def ResolvedPattern.nesting : ResolvedPattern → ℕ
  | .variant _ _ args => nestingAll args + 1
  | _ => 0

def nestingAll : Row → ℕ
  | [] => 0
  | p :: ps => max p.nesting (nestingAll ps)

end

/-- A variant with one case, of two hundred numbers. -/
def wideSpace : VariantSpace where
  payloads := AList.insert ⟨0⟩ [List.replicate 200 .i64] ∅
  typeParams := AList.insert ⟨0⟩ [] ∅

/-- The one arm it takes to cover it. -/
def wideArms : List ResolvedPattern := [.variant ⟨0⟩ 0 (List.replicate 200 .wildcard)]

theorem wideArms_typed :
    ∀ p ∈ wideArms, Typed wideSpace plainDomain p (.named ⟨0⟩) := by
  have hspace : space wideSpace (.named ⟨0⟩) = .variant ⟨0⟩ [List.replicate 200 .i64] := rfl
  intro p hp
  obtain rfl := List.mem_singleton.mp hp
  have hrow : RowTyped wideSpace plainDomain (List.replicate 200 .i64)
      (List.replicate 200 .wildcard) := rowTyped_replicate _
  exact .variant hspace rfl hrow

/-- The pattern nests one constructor deep, and still the analysis is stopped by its
depth limit. -/
theorem wide_match_too_deep :
    (∀ p ∈ wideArms, p.nesting ≤ Limits.maxPatternDepth) ∧
      (∀ p ∈ wideArms, Typed wideSpace plainDomain p (.named ⟨0⟩)) ∧
      ((explainArms wideSpace (.named ⟨0⟩) wideArms []).run maxUsefulnessSteps).1 = some .depth ∧
      (analyzeMatch (.named ⟨0⟩) wideArms wideSpace).budgetExceeded = true := by
  refine ⟨by decide +kernel, wideArms_typed, by decide +kernel, by decide +kernel⟩

/-- One of the questions about it takes more positions than the limit allows, and the analysis
gives up. -/
theorem analyzeMatch_depth_iff_wide :
    (analyzeMatch (.named ⟨0⟩) wideArms wideSpace).budgetExceeded = true ∧
    ∃ q ∈ questionsFrom (.named ⟨0⟩) wideArms [],
      Deep wideSpace plainDomain (Limits.maxPatternDepth + 1) q := by
  have hreported : ((explainArms wideSpace (.named ⟨0⟩) wideArms []).run maxUsefulnessSteps).1 =
      some .depth := by
    decide +kernel
  obtain ⟨hexplained, hdepth⟩ := analyzeMatch_depth_iff wideArms_typed
  constructor
  · rw [analyzeMatch, hexplained, hreported]
    rfl
  · by_contra hshallow
    exact hdepth.mpr (fun q hq hdeep => hshallow ⟨q, hq, hdeep⟩) maxUsefulnessSteps hreported

end Napitia.Typeck
