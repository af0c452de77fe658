import Mathlib.Order.WellFounded
import Napitia.Resourceck.Affine

/-!
# When the flow checker's affinity query returns

The query goes through the field types of an instantiation in their order, each with the
instantiation's own arguments in it, and stops at the first that is affine. It counts no
depth and remembers nothing, so it returns just where no endless chain of field types
lies before the first affine one.
-/
namespace Napitia.Resourceck
open Typeck

/-- The field types the query goes through, where it goes through any. -/
def instanceFields (A : AffineContext) : Ty → Option (List Ty)
  | .applied item args =>
    if A.declaredResource item then none
    else ((A.itemTypeParams item).bind (checkedSubstitution · args)).map fun subst =>
      (A.fieldTypes item).map (substitute · subst)
  | _ => none

/-- An affine type is found by following field types. -/
inductive ReachesAffine (A : AffineContext) (affineItems : List ItemId) : Ty → Prop
  | named {item : ItemId} : item ∈ affineItems → ReachesAffine A affineItems (.named item)
  | resource {item : ItemId} {args : List Ty} : A.declaredResource item = true →
    ReachesAffine A affineItems (.applied item args)
  | arity {item : ItemId} {args : List Ty} :
    (A.itemTypeParams item).bind (checkedSubstitution · args) = none →
    ReachesAffine A affineItems (.applied item args)
  | field {ty field : Ty} {fields : List Ty} : instanceFields A ty = some fields →
    field ∈ fields → ReachesAffine A affineItems field → ReachesAffine A affineItems ty

/-- A field type before which none leads to an affine type. -/
def Explores (A : AffineContext) (affineItems : List ItemId) (ty field : Ty) : Prop :=
  ∃ before after, instanceFields A ty = some (before ++ field :: after) ∧
    ∀ earlier ∈ before, ¬ ReachesAffine A affineItems earlier

section
variable {A : AffineContext} {affineItems : List ItemId} {ty : Ty} {fields : List Ty} {n m : ℕ}
variable {b : Bool}

theorem anyM_map {f : Ty → Option Bool} {g : Ty → Ty} (l : List Ty) :
    (l.map g).anyM f = l.anyM fun x => f (g x) := by
  induction l with
  | nil => rfl
  | cons x l ih => rw [List.map_cons, List.anyM, List.anyM, ih]

theorem isAffine_of_fields (h : instanceFields A ty = some fields) :
    isAffine A affineItems (n + 1) ty = fields.anyM (isAffine A affineItems n) := by
  cases ty with
  | applied item args =>
    rw [instanceFields] at h
    rw [isAffine]
    split at h
    · cases h
    · rename_i hresource
      have ⟨subst, hsubst, hfields⟩ := Option.map_eq_some_iff.mp h
      rw [if_neg hresource, hsubst, ← hfields, anyM_map]
  | _ => cases h

theorem isAffine_of_no_fields (affineItems : List ItemId) (h : instanceFields A ty = none) :
    ∃ b, (∀ n, isAffine A affineItems (n + 1) ty = some b) ∧
      (b = true ↔ ReachesAffine A affineItems ty) := by
  have hfield : ∀ {field fields}, instanceFields A ty = some fields → field ∈ fields → False := by
    intro field fields hsome
    rw [h] at hsome
    cases hsome
  cases ty with
  | named item =>
    refine ⟨decide (item ∈ affineItems), fun n => rfl, ?_⟩
    rw [decide_eq_true_eq]
    refine ⟨.named, fun hreach => ?_⟩
    cases hreach with
    | named hitem => exact hitem
    | field hsome hmem => exact (hfield hsome hmem).elim
  | applied item args =>
    refine ⟨true, fun n => ?_, iff_of_true rfl ?_⟩
    · rw [isAffine]
      split
      · rfl
      · rename_i hresource
        rw [instanceFields, if_neg hresource, Option.map_eq_none_iff] at h
        rw [h]
    · by_cases hresource : A.declaredResource item = true
      · exact .resource hresource
      · rw [instanceFields, if_neg hresource, Option.map_eq_none_iff] at h
        exact .arity h
  | _ =>
    refine ⟨false, fun n => rfl, iff_of_false Bool.false_ne_true fun hreach => ?_⟩
    cases hreach with
    | field hsome hmem => exact hfield hsome hmem

theorem anyM_mono {f g : Ty → Option Bool} (hfg : ∀ t b, f t = some b → g t = some b)
    (h : fields.anyM f = some b) : fields.anyM g = some b := by
  induction fields with
  | nil => exact h
  | cons field fields ih =>
    rw [List.anyM] at h ⊢
    cases hone : f field with
    | none =>
      rw [hone] at h
      cases h
    | some found =>
      rw [hone] at h
      rw [hfg field found hone]
      cases found with
      | true => exact h
      | false => exact ih h

theorem isAffine_mono (hmn : m ≤ n) (h : isAffine A affineItems m ty = some b) :
    isAffine A affineItems n ty = some b := by
  induction m generalizing n ty b with
  | zero => cases h
  | succ m ih =>
    cases n with
    | zero => omega
    | succ n =>
      cases hfields : instanceFields A ty with
      | none =>
        have ⟨b', hanswer, _⟩ := isAffine_of_no_fields affineItems hfields
        rw [hanswer] at h ⊢
        exact h
      | some fields =>
        rw [isAffine_of_fields hfields] at h ⊢
        exact anyM_mono (fun t b ht => ih (by omega) ht) h

/-- A list gone through to an answer: whether one of its types leads to an affine one, and
those gone through were all answered for. -/
theorem anyM_isAffine (hsound : ∀ ty b, isAffine A affineItems n ty = some b →
      (b = true ↔ ReachesAffine A affineItems ty))
    (h : fields.anyM (isAffine A affineItems n) = some b) :
    (b = true ↔ ∃ field ∈ fields, ReachesAffine A affineItems field) ∧
      ∀ before field after, fields = before ++ field :: after →
        (∀ earlier ∈ before, ¬ ReachesAffine A affineItems earlier) →
        ∃ b, isAffine A affineItems n field = some b := by
  induction fields with
  | nil =>
    cases h
    simp
  | cons first fields ih =>
    rw [List.anyM] at h
    cases hone : isAffine A affineItems n first with
    | none =>
      rw [hone] at h
      cases h
    | some found =>
      rw [hone] at h
      have hfirst := hsound first found hone
      cases found with
      | true =>
        cases h
        refine ⟨iff_of_true rfl ⟨first, by simp, hfirst.mp rfl⟩, ?_⟩
        intro before field after heq hbefore
        cases before with
        | nil => exact ⟨true, by rw [← (List.cons.inj heq).1, hone]⟩
        | cons earlier before =>
          have hsame : first = earlier := (List.cons.inj heq).1
          exact absurd (hfirst.mp rfl) (hsame ▸ hbefore earlier (by simp))
      | false =>
        have hnot : ¬ ReachesAffine A affineItems first := fun hreach =>
          Bool.false_ne_true (hfirst.mpr hreach)
        have ⟨hiff, hrest⟩ := ih h
        refine ⟨?_, ?_⟩
        · rw [hiff]
          simp [hnot]
        · intro before field after heq hbefore
          cases before with
          | nil => exact ⟨false, by rw [← (List.cons.inj heq).1, hone]⟩
          | cons earlier before =>
            exact hrest before field after (List.cons.inj heq).2 fun e he =>
              hbefore e (by simp [he])

theorem isAffine_eq_true_iff (h : isAffine A affineItems n ty = some b) :
    b = true ↔ ReachesAffine A affineItems ty := by
  induction n generalizing ty b with
  | zero => cases h
  | succ n ih =>
    cases hfields : instanceFields A ty with
    | none =>
      have ⟨b', hanswer, hiff⟩ := isAffine_of_no_fields affineItems hfields
      rw [hanswer] at h
      exact Option.some.inj h ▸ hiff
    | some fields =>
      rw [isAffine_of_fields hfields] at h
      rw [(anyM_isAffine (fun ty b => ih) h).1]
      constructor
      · intro hexists
        have ⟨field, hmem, hreach⟩ := hexists
        exact .field hfields hmem hreach
      · intro hreach
        cases hreach with
        | named => cases hfields
        | resource hresource => simp [instanceFields, hresource] at hfields
        | arity hnone => simp [instanceFields, hnone] at hfields
        | field hfields' hmem hreach =>
          rw [hfields'] at hfields
          exact ⟨_, Option.some.inj hfields ▸ hmem, hreach⟩

theorem acc_of_returns (h : isAffine A affineItems n ty = some b) :
    Acc (fun field ty => Explores A affineItems ty field) ty := by
  induction n generalizing ty b with
  | zero => cases h
  | succ n ih =>
    constructor
    intro field hexplores
    have ⟨before, after, hfields, hbefore⟩ := hexplores
    rw [isAffine_of_fields hfields] at h
    have hanswered := (anyM_isAffine (fun _ _ => isAffine_eq_true_iff) h).2
    have ⟨b', hfield⟩ := hanswered before field after rfl hbefore
    exact ih hfield

/-- Fields each of which is answered for, as far as the query goes, are answered for with
one amount of fuel. -/
theorem exists_anyM (h : ∀ before field after, fields = before ++ field :: after →
      (∀ earlier ∈ before, ¬ ReachesAffine A affineItems earlier) →
      ∃ n b, isAffine A affineItems n field = some b) :
    ∃ n b, fields.anyM (isAffine A affineItems n) = some b := by
  induction fields with
  | nil => exact ⟨0, false, rfl⟩
  | cons first fields ih =>
    have ⟨n, found, hone⟩ := h [] first fields rfl (by simp)
    cases found with
    | true => exact ⟨n, true, by rw [List.anyM, hone]; rfl⟩
    | false =>
      have hnot : ¬ ReachesAffine A affineItems first := fun hreach =>
        Bool.false_ne_true ((isAffine_eq_true_iff hone).mpr hreach)
      have hrest : ∃ n b, fields.anyM (isAffine A affineItems n) = some b := by
        apply ih
        intro before field after heq hbefore
        apply h (first :: before) field after (by rw [heq]; rfl)
        intro earlier hearlier
        cases hearlier with
        | head => exact hnot
        | tail _ hearlier => exact hbefore earlier hearlier
      have ⟨m, b, hall⟩ := hrest
      refine ⟨max n m, b, ?_⟩
      rw [List.anyM, isAffine_mono (le_max_left n m) hone]
      exact anyM_mono (fun t b => isAffine_mono (le_max_right n m)) hall

theorem returns_of_acc (h : Acc (fun field ty => Explores A affineItems ty field) ty) :
    ∃ n b, isAffine A affineItems n ty = some b := by
  induction h with
  | intro ty _ ih =>
    cases hfields : instanceFields A ty with
    | none =>
      have ⟨b, hanswer, _⟩ := isAffine_of_no_fields affineItems hfields
      exact ⟨1, b, hanswer 0⟩
    | some fields =>
      have hexists : ∃ n b, fields.anyM (isAffine A affineItems n) = some b := by
        apply exists_anyM
        intro before field after heq hbefore
        exact ih field ⟨before, after, by rw [hfields, heq], hbefore⟩
      have ⟨n, b, hall⟩ := hexists
      exact ⟨n + 1, b, by rw [isAffine_of_fields hfields, hall]⟩

end

/-- The query returns just where no endless chain of field types lies before the first
affine one. -/
theorem isAffine_returns_iff (A : AffineContext) (affineItems : List ItemId) (ty : Ty) :
    (∃ n b, isAffine A affineItems n ty = some b) ↔
      ¬ ∃ chain : ℕ → Ty, chain 0 = ty ∧
        ∀ i, Explores A affineItems (chain i) (chain (i + 1)) := by
  have hchain := not_acc_iff_exists_descending_chain (x := ty)
    (r := fun field ty => Explores A affineItems ty field)
  rw [← hchain, not_not]
  constructor
  · intro h
    have ⟨n, b, hanswer⟩ := h
    exact acc_of_returns hanswer
  · exact returns_of_acc

/-- `record Node[T] { next: Node[T] }`. -/
def nodeContext : AffineContext where
  aggregateFieldTypes item := if item = ⟨0⟩ then some [.applied ⟨0⟩ [.param ⟨0⟩]] else none
  declaredResource _ := false
  itemTypeParams item := if item = ⟨0⟩ then some [⟨0⟩] else none

/-- No declaration of it is affine, and the query for `Node[i64]` asks for itself again,
with any amount of fuel. -/
theorem isAffine_node_diverges :
    computeAffineItems nodeContext 2 [⟨0⟩] = some [] ∧
      ¬ ∃ n b, isAffine nodeContext [] n (.applied ⟨0⟩ [.i64]) = some b := by
  refine ⟨by decide +kernel, ?_⟩
  have hfields : instanceFields nodeContext (.applied ⟨0⟩ [.i64]) = some [.applied ⟨0⟩ [.i64]] := by
    decide +kernel
  have hnone : ∀ n, isAffine nodeContext [] n (.applied ⟨0⟩ [.i64]) = none := by
    intro n
    induction n with
    | zero => rfl
    | succ n ih => rw [isAffine_of_fields hfields, List.anyM, ih]; rfl
  intro h
  have ⟨n, b, hanswer⟩ := h
  rw [hnone n] at hanswer
  cases hanswer

end Napitia.Resourceck
