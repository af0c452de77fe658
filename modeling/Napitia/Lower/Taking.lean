import Mathlib.Data.List.ReduceOption
import Napitia.Interpreter.Plan
import Napitia.Lower.Selection

/-!
# What a row takes

`Takes` is what the winning row of a decision has done with the positions it came
past: which occurrences it binds, which it leaves to be destroyed and which
shells it takes apart. A column is decided on rows and on contenders in step, and
what a row takes after the column is what it takes from before it.
-/
namespace Napitia.Lower
open Nir Typeck Interpreter

/-- What a row does with the positions still pending. Apart from the rest it
keeps the positions that a pattern of the row itself takes. -/
structure Take where
  bindings : List (LocalId × ValueId) := []
  discarded : List Occurrence := []
  decomposed : List (ValueId × ItemId × ℕ) := []
  own : List (ValueId × Position) := []

/-- Whether a NaN has to leave a shell for it. -/
def Take.tainted (T : Take) : Bool := T.own.any fun p => p.2.taints

/-- A position taken by a slot, where the slot is a pattern of the row. -/
def PatternSlot.owns (slot : PatternSlot) (occ : Occurrence) (pos : Position) :
    List (ValueId × Position) :=
  if slot.isReal then [(occ.value, pos)] else []

@[simp] theorem tainted_owns (bindings : List (LocalId × ValueId)) (discarded : List Occurrence)
    (decomposed : List (ValueId × ItemId × ℕ)) (slot : PatternSlot) (occ : Occurrence)
    (pos : Position) (T : Take) :
    Take.tainted ⟨bindings, discarded, decomposed, slot.owns occ pos ++ T.own⟩ =
      ((slot.isReal && pos.taints) || T.tainted) := by
  cases hreal : slot.isReal <;> simp [Take.tainted, PatternSlot.owns, hreal]

/-- The row once it has done that with all of them. -/
def MatrixRow.finish (r : MatrixRow) (T : Take) : MatrixRow where
  armIndex := r.armIndex
  patterns := []
  bindings := r.bindings ++ T.bindings
  discarded := r.discarded ++ T.discarded
  decomposed := r.decomposed ++ T.decomposed

/-- The positions behind a shell, read into values numbered from one bound up to
another. -/
structure Unpacks (values : Values) (sources : AList (fun _ : ValueId => PayloadSource))
    (N N' : ℕ) (base : ValueId) (item : ItemId) (case : ℕ) (within : List Position)
    (inside : List Occurrence) : Prop where
  le : N ≤ N'
  stands : List.Forall₂ (fun o p => o.ty = p.ty ∧ values.lookup o.value = some p.value) inside
    within
  fresh : ∀ o ∈ inside, N ≤ o.value.index ∧ o.value.index < N'
  source : ∀ {i : ℕ} {o : Occurrence}, inside[i]? = some o →
    sources.lookup o.value = some ⟨base, item, case, i⟩
  nodup : (inside.map (·.value)).Nodup

/-- How the pending slots of a row take the occurrences they stand at. A slot the
row does not constrain may be passed whole or, where another row takes the shell
apart, payload by payload. -/
inductive Takes (L : Lowering) (values : Values)
    (sources : AList (fun _ : ValueId => PayloadSource)) :
    ℕ → List PatternSlot → List Occurrence → List Position → Take → Prop
  | done {N : ℕ} : Takes L values sources N [] [] [] {}
  | tested {N : ℕ} {slot : PatternSlot} {lit : LiteralTest} {slots : List PatternSlot}
      {occ : Occurrence} {occs : List Occurrence} {pos : Position} {positions : List Position}
      {T : Take} : L.classify slot = .literal lit →
      Takes L values sources N slots occs positions T →
      Takes L values sources N (slot :: slots) (occ :: occs) (pos :: positions) T
  | bound {N : ℕ} {slot : PatternSlot} {binding : LocalId} {slots : List PatternSlot}
      {occ : Occurrence} {occs : List Occurrence} {pos : Position} {positions : List Position}
      {T : Take} : L.classify slot = .bind binding →
      Takes L values sources N slots occs positions T →
      Takes L values sources N (slot :: slots) (occ :: occs) (pos :: positions)
        { T with
          bindings := (binding, occ.value) :: T.bindings
          own := slot.owns occ pos ++ T.own }
  | owned {N : ℕ} {slots : List PatternSlot} {occ : Occurrence} {occs : List Occurrence}
      {pos : Position} {positions : List Position} {T : Take} :
      Takes L values sources N slots occs positions T →
      Takes L values sources N (.owned :: slots) (occ :: occs) (pos :: positions) T
  | passed {N : ℕ} {slot : PatternSlot} {slots : List PatternSlot} {occ : Occurrence}
      {occs : List Occurrence} {pos : Position} {positions : List Position} {T : Take} :
      L.classify slot = .wildcard → slot ≠ .owned →
      Takes L values sources N slots occs positions T →
      Takes L values sources N (slot :: slots) (occ :: occs) (pos :: positions)
        { T with
          discarded := occ :: T.discarded
          own := slot.owns occ pos ++ T.own }
  | opened {N N' : ℕ} {slot : PatternSlot} {item : ItemId} {typeArgs : List Ty} {case : ℕ}
      {args : List HirPattern} {payload : List Value} {inside : List Occurrence}
      {slots : List PatternSlot} {occ : Occurrence} {occs : List Occurrence} {pos : Position}
      {positions : List Position} {T : Take} : L.classify slot = .case item case args →
      args.length = payload.length → (L.variantOf pos.ty).isSome →
      pos.value = .variant item typeArgs case payload →
      Unpacks values sources N N' occ.value item case (L.payloadPositions pos.ty case payload)
        inside →
      Takes L values sources N' (args.map .real ++ slots) (inside ++ occs)
        (L.payloadPositions pos.ty case payload ++ positions) T →
      Takes L values sources N (slot :: slots) (occ :: occs) (pos :: positions)
        { T with
          decomposed := (occ.value, item, case) :: T.decomposed
          own := slot.owns occ pos ++ T.own }
  | split {N N' : ℕ} {slot : PatternSlot} {item : ItemId} {typeArgs : List Ty} {case : ℕ}
      {payload : List Value} {inside : List Occurrence} {slots : List PatternSlot}
      {occ : Occurrence} {occs : List Occurrence} {pos : Position} {positions : List Position}
      {T : Take} : L.classify slot = .wildcard → slot ≠ .owned → (L.variantOf pos.ty).isSome →
      pos.value = .variant item typeArgs case payload →
      Unpacks values sources N N' occ.value item case (L.payloadPositions pos.ty case payload)
        inside →
      Takes L values sources N' (List.replicate payload.length .wildcard ++ slots)
        (inside ++ occs) (L.payloadPositions pos.ty case payload ++ positions) T →
      Takes L values sources N (slot :: slots) (occ :: occs) (pos :: positions) T

section
variable {L : Lowering} {values : Values} {sources : AList (fun _ : ValueId => PayloadSource)}
  {N N' : ℕ} {slots : List PatternSlot} {occs inside : List Occurrence}
  {positions insidePositions : List Position} {T : Take}

theorem Unpacks.mono {base : ValueId} {item : ItemId} {case M : ℕ} {within : List Position}
    (h : Unpacks values sources N N' base item case within inside) (hM : M ≤ N) :
    Unpacks values sources M N' base item case within inside :=
  ⟨hM.trans h.le, h.stands, fun o ho => ⟨hM.trans (h.fresh o ho).1, (h.fresh o ho).2⟩, h.source,
    h.nodup⟩

theorem Unpacks.length {base : ValueId} {item : ItemId} {case : ℕ} {ty : Ty}
    {payload : List Value}
    (h : Unpacks values sources N N' base item case (L.payloadPositions ty case payload) inside) :
    inside.length = payload.length := by
  rw [h.stands.length_eq]
  simp [Lowering.payloadPositions]

theorem Takes.mono {M : ℕ} (h : Takes L values sources N slots occs positions T) (hM : M ≤ N) :
    Takes L values sources M slots occs positions T := by
  induction h generalizing M with
  | done => exact .done
  | tested hc _ ih => exact .tested hc (ih hM)
  | bound hc _ ih => exact .bound hc (ih hM)
  | owned _ ih => exact .owned (ih hM)
  | passed hc hne _ ih => exact .passed hc hne (ih hM)
  | opened hc hlen hty hv hunpacks htakes _ =>
    exact .opened hc hlen hty hv (hunpacks.mono hM) htakes
  | split hc hne hty hv hunpacks htakes _ =>
    exact .split hc hne hty hv (hunpacks.mono hM) htakes

theorem Takes.of_owned (hlen : inside.length = insidePositions.length)
    (h : Takes L values sources N (List.replicate inside.length .owned ++ slots) (inside ++ occs)
      (insidePositions ++ positions) T) :
    Takes L values sources N slots occs positions T := by
  induction inside generalizing insidePositions with
  | nil =>
    have hnil : insidePositions = [] := List.length_eq_zero_iff.mp hlen.symm
    simpa [hnil] using h
  | cons o inside ih =>
    cases insidePositions with
    | nil => simp at hlen
    | cons pos insidePositions =>
      have hlen' : inside.length = insidePositions.length := by simpa using hlen
      rw [List.length_cons, List.replicate_succ, List.cons_append, List.cons_append,
        List.cons_append] at h
      cases h with
      | tested hc _ => simp [Lowering.classify] at hc
      | bound hc _ => simp [Lowering.classify] at hc
      | owned h => exact ih hlen' h
      | passed _ hne _ => exact absurd rfl hne
      | opened hc _ _ _ _ _ => simp [Lowering.classify] at hc
      | split _ hne _ _ _ _ => exact absurd rfl hne

end

/-! ### Rows and contenders -/

/-- A row, and whether its contender has taken a NaN so far. -/
abbrev Scored := MatrixRow × Bool

def contend (x : Scored) : Contender := ⟨x.1.armIndex, x.1.patterns, x.2⟩

/-- A step on rows and a step on contenders keep the same ones, with the same
slots. -/
def Agree (f : MatrixRow → Option MatrixRow) (g : Contender → Option Contender) (x : Scored) :
    Prop :=
  (f x.1 = none ∧ g (contend x) = none) ∨
    ∃ r b, f x.1 = some r ∧ g (contend x) = some (contend (r, b))

theorem scored_filterMap {f : MatrixRow → Option MatrixRow} {g : Contender → Option Contender}
    {rs : List Scored} (h : ∀ x ∈ rs, Agree f g x) :
    ∃ rs' : List Scored, rs'.map Prod.fst = (rs.map Prod.fst).filterMap f ∧
      rs'.map contend = (rs.map contend).filterMap g ∧
      ∀ y ∈ rs', ∃ x ∈ rs, f x.1 = some y.1 ∧ g (contend x) = some (contend y) := by
  induction rs with
  | nil => exact ⟨[], rfl, rfl, by simp⟩
  | cons x rs ih =>
    obtain ⟨rs', hrows, hcontend, hall⟩ := ih fun y hy => h y (by simp [hy])
    rcases h x (by simp) with ⟨hf, hg⟩ | ⟨r, b, hf, hg⟩
    · refine ⟨rs', by simp [hf, hrows], by simp [hg, hcontend], fun y hy => ?_⟩
      obtain ⟨z, hz, hstep⟩ := hall y hy
      exact ⟨z, by simp [hz], hstep⟩
    · refine ⟨(r, b) :: rs', by simp [hf, hrows], by simp [hg, hcontend], fun y hy => ?_⟩
      rcases List.mem_cons.mp hy with rfl | hy
      · exact ⟨x, by simp, hf, hg⟩
      · obtain ⟨z, hz, hstep⟩ := hall y hy
        exact ⟨z, by simp [hz], hstep⟩

section
variable {L : Lowering} {values : Values} {sources : AList (fun _ : ValueId => PayloadSource)}
  {N N' : ℕ} {occ : Occurrence} {occs inside : List Occurrence} {pos : Position}
  {positions : List Position} {x y : Scored} {T' : Take}

/-- What a row did after a step, as what it does from before the step. -/
def Takes.Before (L : Lowering) (values : Values)
    (sources : AList (fun _ : ValueId => PayloadSource)) (N : ℕ) (occs : List Occurrence)
    (positions : List Position) (x y : Scored) (T' : Take) : Prop :=
  ∃ T, Takes L values sources N x.1.patterns occs positions T ∧ x.1.finish T = y.1.finish T' ∧
    (x.2 || T.tainted) = (y.2 || T'.tainted)

theorem contend_head (x : Scored) : (contend x).head = x.1.head := rfl

theorem patterns_eq (hne : x.1.patterns ≠ []) :
    x.1.patterns = x.1.head :: x.1.patterns.tail := by
  obtain ⟨slot, rest, hr⟩ := List.exists_cons_of_ne_nil hne
  simp [MatrixRow.head, hr]

theorem agree_untested (h : L.classify x.1.head = .wildcard ∨
    ∃ binding, L.classify x.1.head = .bind binding) :
    Agree (fun r => some (L.untested occ r)) (L.passOver pos) x := by
  refine .inr ⟨L.untested occ x.1, x.2 || (x.1.head.isReal && pos.taints), rfl, ?_⟩
  unfold Lowering.passOver Lowering.untested
  rw [contend_head]
  rcases h with hc | ⟨binding, hc⟩ <;> simp only [hc] <;> rfl

theorem before_untested (hne : x.1.patterns ≠ []) (hrow : L.untested occ x.1 = y.1)
    (hcont : L.passOver pos (contend x) = some (contend y))
    (h : Takes L values sources N y.1.patterns occs positions T') :
    Takes.Before L values sources N (occ :: occs) (pos :: positions) x y T' := by
  have hslots := patterns_eq hne
  unfold Lowering.passOver at hcont
  rw [contend_head] at hcont
  unfold Lowering.untested at hrow
  cases hc : L.classify x.1.head with
  | case item k args => simp [hc] at hcont
  | literal lit => simp [hc] at hcont
  | bind binding =>
    simp only [hc, Option.some.injEq] at hcont hrow
    have hb : (x.2 || (x.1.head.isReal && pos.taints)) = y.2 :=
      congrArg Contender.tainted hcont
    rw [← hrow] at h
    refine ⟨_, hslots ▸ Takes.bound hc h, ?_, ?_⟩
    · rw [← hrow]
      simp [MatrixRow.finish, MatrixRow.bound]
    · simp [← hb, Bool.or_assoc]
  | wildcard =>
    simp only [hc, Option.some.injEq] at hcont hrow
    have hb : (x.2 || (x.1.head.isReal && pos.taints)) = y.2 :=
      congrArg Contender.tainted hcont
    rw [← hrow] at h
    by_cases howned : x.1.head = .owned
    · rw [howned] at hslots hb
      refine ⟨T', hslots ▸ .owned h, ?_, ?_⟩
      · rw [← hrow]
        simp [MatrixRow.finish, MatrixRow.passed, howned]
      · simp [← hb, PatternSlot.isReal]
    · refine ⟨_, hslots ▸ Takes.passed hc howned h, ?_, ?_⟩
      · rw [← hrow]
        cases hhead : x.1.head with
        | owned => exact absurd hhead howned
        | _ => simp [MatrixRow.finish, MatrixRow.passed, hhead]
      · simp [← hb, Bool.or_assoc]

theorem agree_keepLiteral (lit : LiteralTest) (x : Scored) :
    Agree (L.keepLiteral lit occ) (L.holdsLiteral lit pos) x := by
  unfold Agree Lowering.keepLiteral Lowering.holdsLiteral
  rw [contend_head]
  cases hc : L.classify x.1.head with
  | case item k args => exact .inl ⟨rfl, rfl⟩
  | literal l =>
    by_cases hl : l = lit
    · refine .inr ⟨x.1.tested, x.2, by simp [hl], ?_⟩
      simp [hl, contend, Contender.advance, MatrixRow.tested]
    · exact .inl ⟨by simp [hl], by simp [hl]⟩
  | wildcard =>
    exact .inr ⟨x.1.passed occ, x.2 || (x.1.head.isReal && pos.taints), rfl, rfl⟩
  | bind binding =>
    exact .inr ⟨x.1.bound binding occ, x.2 || (x.1.head.isReal && pos.taints), rfl, rfl⟩

theorem before_keepLiteral {lit : LiteralTest} (hne : x.1.patterns ≠ [])
    (hrow : L.keepLiteral lit occ x.1 = some y.1)
    (hcont : L.holdsLiteral lit pos (contend x) = some (contend y))
    (h : Takes L values sources N y.1.patterns occs positions T') :
    Takes.Before L values sources N (occ :: occs) (pos :: positions) x y T' := by
  cases hc : L.classify x.1.head with
  | case item k args => simp [Lowering.keepLiteral, hc] at hrow
  | literal l =>
    simp only [Lowering.keepLiteral, hc, Option.ite_none_right_eq_some, Option.some.injEq] at hrow
    simp only [Lowering.holdsLiteral, contend_head, hc, Option.ite_none_right_eq_some,
      Option.some.injEq] at hcont
    have hb : x.2 = y.2 := congrArg Contender.tainted hcont.2
    rw [← hrow.2] at h
    refine ⟨T', patterns_eq hne ▸ .tested hc h, ?_, by rw [hb]⟩
    rw [← hrow.2]
    simp [MatrixRow.finish, MatrixRow.tested]
  | wildcard =>
    refine before_untested hne ?_ ?_ h
    · simpa [Lowering.keepLiteral, Lowering.untested, hc] using hrow
    · simpa [Lowering.holdsLiteral, Lowering.passOver, contend_head, hc] using hcont
  | bind binding =>
    refine before_untested hne ?_ ?_ h
    · simpa [Lowering.keepLiteral, Lowering.untested, hc] using hrow
    · simpa [Lowering.holdsLiteral, Lowering.passOver, contend_head, hc] using hcont

/-- The rows of a case that keeping them did not refuse. -/
def Lowering.keptCase (L : Lowering) (item : ItemId) (case arity : ℕ) (occ : Occurrence)
    (r : MatrixRow) : Option MatrixRow :=
  match L.keepCase item case arity occ r with
  | .ok kept => kept
  | .error _ => none

theorem reduceOption_keepCase {item : ItemId} {case arity : ℕ} {rows : List MatrixRow}
    {kept : List (Option MatrixRow)} (h : rows.mapM (L.keepCase item case arity occ) = .ok kept) :
    kept.reduceOption = rows.filterMap (L.keptCase item case arity occ) ∧
      ∀ r ∈ rows, ∃ o, L.keepCase item case arity occ r = .ok o := by
  induction rows generalizing kept with
  | nil =>
    cases h
    exact ⟨rfl, by simp⟩
  | cons r rows ih =>
    rw [List.mapM_cons] at h
    cases hr : L.keepCase item case arity occ r with
    | error e =>
      rw [hr] at h
      cases h
    | ok o =>
      rw [hr] at h
      cases hrows : rows.mapM (L.keepCase item case arity occ) with
      | error e =>
        rw [hrows] at h
        cases h
      | ok kept' =>
        rw [hrows] at h
        cases h
        obtain ⟨hkept, hall⟩ := ih hrows
        have hone : L.keptCase item case arity occ r = o := by simp [Lowering.keptCase, hr]
        refine ⟨?_, ?_⟩
        · cases o with
          | none => rw [List.filterMap_cons_none hone, ← hkept, List.reduceOption_cons_of_none]
          | some r' => rw [List.filterMap_cons_some hone, ← hkept, List.reduceOption_cons_of_some]
        · rintro r' (_ | ⟨_, hr'⟩)
          · exact ⟨o, hr⟩
          · exact hall r' hr'

theorem agree_keepCase {item : ItemId} {case arity : ℕ} {o : Option MatrixRow}
    (h : L.keepCase item case arity occ x.1 = .ok o) :
    Agree (L.keptCase item case arity occ) (L.holdsCase item case arity pos) x := by
  have hkept : L.keptCase item case arity occ x.1 = o := by simp [Lowering.keptCase, h]
  unfold Agree
  rw [hkept]
  unfold Lowering.keepCase at h
  unfold Lowering.holdsCase
  rw [contend_head]
  cases hc : L.classify x.1.head with
  | literal lit =>
    simp only [hc] at h
    cases h
    exact .inl ⟨rfl, rfl⟩
  | wildcard =>
    simp only [hc] at h
    cases h
    exact .inr ⟨_, x.2, rfl, rfl⟩
  | bind binding =>
    simp only [hc] at h
    cases h
    exact .inr ⟨_, x.2 || (x.1.head.isReal && pos.taints), rfl, rfl⟩
  | case k c args =>
    simp only [hc] at h
    by_cases hcase : k = item ∧ c = case
    · rw [if_pos hcase] at h
      by_cases harity : args.length = arity
      · rw [if_neg (by simpa using harity)] at h
        cases h
        exact .inr ⟨_, x.2 || (x.1.head.isReal && pos.taints), rfl,
          by simp [hcase.1, hcase.2, harity, contend, Contender.take, Contender.head,
            MatrixRow.head]⟩
      · rw [if_pos harity] at h
        cases h
    · rw [if_neg hcase] at h
      cases h
      refine .inl ⟨rfl, ?_⟩
      have hnot : ¬ (k = item ∧ c = case ∧ args.length = arity) :=
        fun hall => hcase ⟨hall.1, hall.2.1⟩
      simp only [hnot, if_false]

theorem before_keepCase {item : ItemId} {typeArgs : List Ty} {case : ℕ} {payload : List Value}
    {o : Option MatrixRow} (hne : x.1.patterns ≠ []) (hty : (L.variantOf pos.ty).isSome)
    (hv : pos.value = .variant item typeArgs case payload)
    (hunpacks : Unpacks values sources N N' occ.value item case
      (L.payloadPositions pos.ty case payload) inside)
    (hok : L.keepCase item case payload.length occ x.1 = .ok o)
    (hrow : L.keptCase item case payload.length occ x.1 = some y.1)
    (hcont : L.holdsCase item case payload.length pos (contend x) = some (contend y))
    (h : Takes L values sources N' y.1.patterns (inside ++ occs)
      (L.payloadPositions pos.ty case payload ++ positions) T') :
    Takes.Before L values sources N (occ :: occs) (pos :: positions) x y T' := by
  have hslots := patterns_eq hne
  have ho : o = some y.1 := by
    rw [← hrow]
    simp [Lowering.keptCase, hok]
  have hinside : inside.length = (L.payloadPositions pos.ty case payload).length :=
    hunpacks.stands.length_eq
  unfold Lowering.holdsCase at hcont
  rw [contend_head] at hcont
  unfold Lowering.keepCase at hok
  cases hc : L.classify x.1.head with
  | literal lit => simp [hc] at hcont
  | bind binding =>
    simp only [hc] at hok hcont
    cases hok
    have hy := Option.some.inj ho
    have hb : (x.2 || (x.1.head.isReal && pos.taints)) = y.2 :=
      congrArg Contender.tainted (Option.some.inj hcont)
    rw [← hy, ← hunpacks.length] at h
    have hrest := (Takes.of_owned hinside h).mono hunpacks.le
    have htakes : Takes L values sources N (x.1.head :: x.1.patterns.tail) (occ :: occs)
        (pos :: positions) _ := .bound hc hrest
    rw [← hslots] at htakes
    refine ⟨_, htakes, ?_, ?_⟩
    · rw [← hy]
      simp [MatrixRow.finish]
    · simp [← hb, Bool.or_assoc]
  | wildcard =>
    simp only [hc] at hok hcont
    cases hok
    have hy := Option.some.inj ho
    have hb : x.2 = y.2 := congrArg Contender.tainted (Option.some.inj hcont)
    rw [← hy] at h
    refine ⟨T', ?_, ?_, by rw [hb]⟩
    · rw [hslots]
      cases hhead : x.1.head with
      | owned =>
        simp only [hhead, ← hunpacks.length] at h
        exact .owned ((Takes.of_owned hinside h).mono hunpacks.le)
      | wildcard =>
        simp only [hhead] at h
        exact .split rfl (by simp) hty hv hunpacks h
      | real p =>
        simp only [hhead] at h
        exact .split (hhead ▸ hc) (by simp) hty hv hunpacks h
    · rw [← hy]
      simp [MatrixRow.finish]
  | case k c args =>
    simp only [hc, Option.ite_none_right_eq_some, Option.some.injEq] at hok hcont
    obtain ⟨⟨rfl, rfl, harity⟩, hcont⟩ := hcont
    simp only [and_self, if_true, harity, ne_eq, not_true, if_false] at hok
    cases hok
    have hy := Option.some.inj ho
    have hb : (x.2 || (x.1.head.isReal && pos.taints)) = y.2 := congrArg Contender.tainted hcont
    rw [← hy] at h
    have htakes : Takes L values sources N (x.1.head :: x.1.patterns.tail) (occ :: occs)
        (pos :: positions) _ := .opened hc harity hty hv hunpacks h
    rw [← hslots] at htakes
    refine ⟨_, htakes, ?_, ?_⟩
    · rw [← hy]
      simp [MatrixRow.finish]
    · simp [← hb, Bool.or_assoc]

end

end Napitia.Lower
