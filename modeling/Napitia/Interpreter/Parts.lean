import Napitia.Interpreter.Atomicity
import Napitia.Interpreter.Walks

/-!
# The parts of an owned value

A value found well formed has well-formed parts, no two of which reach one
resource. Where every handle it reaches is its owner's and alive, each of the
parts can be destroyed on its own, in any order, whatever becomes of the others.
-/
namespace Napitia.Interpreter
open Nir ResourceTable StateT

/-- No resource is reached from both values. -/
def Apart (t : ResourceTable) (u w : Value) : Prop := ∀ id, Reaches t u id → ¬ Reaches t w id

theorem Apart.symm {t : ResourceTable} {u w : Value} (h : Apart t u w) : Apart t w u :=
  fun id hw hu => h id hu hw

section
variable {m : Module} {t : ResourceTable}

theorem validated_covers {n : ℕ} {l : List (Value × Ty)} {s s' : List ResourceId}
    (h : (l.forM fun p => validateValueAgainstTy m t n p.1 (some p.2)).run s = .ok (⟨⟩, s')) :
    CoversAll t (l.map Prod.fst) s s' := by
  refine Covers.forM (f := collectOwnedIdentities t n)
    (fun _ _ _ _ => collectOwnedIdentities_covers) ?_
  have hzip : l = (l.map Prod.fst).zip (l.map Prod.snd) := List.zip_of_prod rfl rfl
  rw [hzip] at h
  exact forM_zip_covers (by simp) (fun _ _ _ => collectOwned_of_validate) h

theorem validated_parts {n : ℕ} {l : List (Value × Ty)} {s s' : List ResourceId}
    (h : (l.forM fun p => validateValueAgainstTy m t n p.1 (some p.2)).run s = .ok (⟨⟩, s')) :
    (∀ p ∈ l, ∃ u u', (validateValueAgainstTy m t n p.1 (some p.2)).run u = .ok (⟨⟩, u')) ∧
      l.Pairwise fun p q => Apart t p.1 q.1 := by
  induction l generalizing s with
  | nil => exact ⟨by simp, .nil⟩
  | cons p l ih =>
    obtain ⟨⟨⟩, u, hp, hl⟩ := run_bind_eq_ok.mp h
    obtain ⟨hall, hpairwise⟩ := ih hl
    refine ⟨?_, List.pairwise_cons.mpr ⟨fun q hq id hid hid' => ?_, hpairwise⟩⟩
    · intro q hq
      rcases List.mem_cons.mp hq with rfl | hq
      · exact ⟨s, u, hp⟩
      · exact hall q hq
    · -- what the first part reaches has been seen when the walk comes to the others
      have hfirst := collectOwnedIdentities_covers (collectOwned_of_validate hp)
      exact (validated_covers hl).fresh q.1 (List.mem_map_of_mem hq) id hid' ((hfirst.found id).mpr (.inr hid))

theorem forM_relax {n k : ℕ} {l : List (Value × Ty)} {s s' r : List ResourceId}
    (h : (l.forM fun p => validateValueAgainstTy m t n p.1 (some p.2)).run s = .ok (⟨⟩, s'))
    (hone : ∀ p ∈ l, ∀ u u' r, (validateValueAgainstTy m t n p.1 (some p.2)).run u = .ok (⟨⟩, u') →
      (∀ id, Reaches t p.1 id → id ∉ r) →
      ∃ r', (validateValueAgainstTy m t k p.1 (some p.2)).run r = .ok (⟨⟩, r'))
    (hfree : ∀ p ∈ l, ∀ id, Reaches t p.1 id → id ∉ r) :
    ∃ r', (l.forM fun p => validateValueAgainstTy m t k p.1 (some p.2)).run r = .ok (⟨⟩, r') := by
  obtain ⟨hall, hpairwise⟩ := validated_parts h
  clear h
  induction l generalizing r with
  | nil => exact ⟨r, rfl⟩
  | cons p l ih =>
    obtain ⟨u, u', hp⟩ := hall p (by simp)
    obtain ⟨r₁, hr₁⟩ := hone p (by simp) u u' r hp (hfree p (by simp))
    have hcovers := collectOwnedIdentities_covers (collectOwned_of_validate hr₁)
    have hapart := (List.pairwise_cons.mp hpairwise).1
    obtain ⟨r', hr'⟩ := ih (fun q hq => hone q (by simp [hq])) (r := r₁)
      (fun q hq id hid hmem => by
        rcases (hcovers.found id).mp hmem with hmem | hreach
        · exact hfree q (by simp [hq]) id hid hmem
        · exact hapart q hq id hreach hid)
      (fun q hq => hall q (by simp [hq])) hpairwise.tail
    exact ⟨r', run_bind_eq_ok.mpr ⟨⟨⟩, r₁, hr₁, hr'⟩⟩

/-- A value found well formed is found so again with more room, from identities it
does not reach, and in a position that declares no more of it. -/
theorem validate_relax {n k : ℕ} {v : Value} {expected expected' : Option Ty}
    {s s' r : List ResourceId}
    (h : (validateValueAgainstTy m t n v expected).run s = .ok (⟨⟩, s')) (hle : n ≤ k)
    (hexpected : expected' = expected ∨ expected' = none)
    (hfree : ∀ id, Reaches t v id → id ∉ r) :
    ∃ r', (validateValueAgainstTy m t k v expected').run r = .ok (⟨⟩, r') := by
  induction n generalizing k v expected expected' s s' r with
  | zero => exact absurd h run_throw_ne_ok
  | succ n ih =>
    obtain ⟨k, rfl⟩ : ∃ j, k = j + 1 := ⟨k - 1, by omega⟩
    have hle' : n ≤ k := by omega
    have hone : ∀ (p : Value × Ty) (u u' r : List ResourceId),
        (validateValueAgainstTy m t n p.1 (some p.2)).run u = .ok (⟨⟩, u') →
        (∀ id, Reaches t p.1 id → id ∉ r) →
        ∃ r', (validateValueAgainstTy m t k p.1 (some p.2)).run r = .ok (⟨⟩, r') :=
      fun p u u' r hp hr => ih hp hle' (.inl rfl) hr
    have hexec' : checkExecutable expected = .ok ⟨⟩ → checkExecutable expected' = .ok ⟨⟩ := by
      intro hexec
      rcases hexpected with rfl | rfl
      · exact hexec
      · rfl
    have hdecl' : ∀ {what : String} {item : ItemId} {typeArgs : List Ty},
        checkDeclaration what expected item typeArgs = .ok ⟨⟩ →
        checkDeclaration what expected' item typeArgs = .ok ⟨⟩ := by
      intro what item typeArgs hok
      rcases hexpected with rfl | rfl
      · exact hok
      · rfl
    cases v with
    | resource handle =>
      obtain ⟨hexec, rec, declared, hrec, hdecl, hseen, htys, hlen, h⟩ := validate_resource.mp h
      have hid : handle.id ∉ r := hfree _ (reaches_resource.mpr ⟨rec, hrec, .inl rfl⟩)
      have hcovers := validated_covers h
      obtain ⟨r', hr'⟩ := forM_relax (r := r ++ [handle.id]) h (fun p _ => hone p)
        fun p hp id hreach hmem => by
          rcases List.mem_append.mp hmem with hmem | hmem
          · exact hfree id (reaches_resource.mpr
              ⟨rec, hrec, .inr ⟨p.1, (List.of_mem_zip hp).1, hreach⟩⟩) hmem
          · exact hcovers.fresh p.1 (List.mem_map_of_mem hp) id hreach (by simp_all)
      exact ⟨r', validate_resource.mpr
        ⟨hexec' hexec, rec, declared, hrec, hdecl' hdecl, hid, htys, hlen, hr'⟩⟩
    | record item typeArgs fields =>
      obtain ⟨hexec, declared, hdecl, hitem, htys, hlen, h⟩ := validate_record.mp h
      obtain ⟨r', hr'⟩ := forM_relax (r := r) h (fun p _ => hone p) fun p hp id hid =>
        hfree id (reaches_record.mpr ⟨p.1, (List.of_mem_zip hp).1, hid⟩)
      exact ⟨r', validate_record.mpr
        ⟨hexec' hexec, declared, hdecl' hdecl, hitem, htys, hlen, hr'⟩⟩
    | variant item typeArgs case payload =>
      obtain ⟨hexec, declared, hdecl, htys, hlen, h⟩ := validate_variant.mp h
      obtain ⟨r', hr'⟩ := forM_relax (r := r) h (fun p _ => hone p) fun p hp id hid =>
        hfree id (reaches_variant.mpr ⟨p.1, (List.of_mem_zip hp).1, hid⟩)
      exact ⟨r', validate_variant.mpr ⟨hexec' hexec, declared, hdecl' hdecl, htys, hlen, hr'⟩⟩
    | _ =>
      rcases hexpected with rfl | rfl
      · rw [validateValueAgainstTy] at h ⊢
        obtain ⟨⟨⟩, u, hlift, h⟩ := run_bind_eq_ok.mp h
        obtain ⟨hexec, rfl⟩ := run_liftM_eq_ok.mp hlift
        obtain ⟨hkind, rfl⟩ := run_liftM_eq_ok.mp h
        exact ⟨r, run_bind_eq_ok.mpr ⟨⟨⟩, r, run_liftM_eq_ok.mpr ⟨hexec, rfl⟩,
          run_liftM_eq_ok.mpr ⟨hkind, rfl⟩⟩⟩
      · exact ⟨r, rfl⟩

/-! ### Owned values -/

/-- A handle met on the way through a value. -/
inductive Touches (t : ResourceTable) : Value → ResourceHandle → Prop
  | inline {v : Value} {h : ResourceHandle} : h ∈ v.handles → Touches t v h
  | field {v f : Value} {h k : ResourceHandle} {r : ResourceRecord} : h ∈ v.handles →
      t.record h = .ok r → f ∈ r.fields → Touches t f k → Touches t v k

theorem Touches.of_handles {u v : Value} (hsub : ∀ h ∈ u.handles, h ∈ v.handles)
    {h : ResourceHandle} (hu : Touches t u h) : Touches t v h := by
  cases hu with
  | inline hh => exact .inline (hsub _ hh)
  | field hh hr hf hk => exact .field (hsub _ hh) hr hf hk

/-- A value that a frame owns: well formed, every resource it reaches alive and
held through its owner, and none of them on loan. -/
structure OwnedValue (m : Module) (t : ResourceTable) (v : Value) : Prop where
  graph : validateOwnedGraph m t v = .ok ⟨⟩
  owners : ∀ h, Touches t v h → h.role = .owner ∧ ∃ r, t.observe h = .ok r
  free : ∀ id, Reaches t v id → t.activeLeaseHolding id = none

theorem validateOwnedGraph_iff {v : Value} : validateOwnedGraph m t v = .ok ⟨⟩ ↔
    ∃ s, (validateValueAgainstTy m t Limits.maxGenericDepth v none).run [] = .ok (⟨⟩, s) := by
  unfold validateOwnedGraph StateT.run'
  constructor
  · intro h
    obtain ⟨⟨⟨⟩, s⟩, hrun, -⟩ := Except.map_eq_ok.mp h
    exact ⟨s, hrun⟩
  · rintro ⟨s, hrun⟩
    exact Except.map_eq_ok.mpr ⟨(⟨⟩, s), hrun, rfl⟩

/-- The payload of a well-formed shell is well formed, and its positions reach nothing
in common. -/
theorem validateOwnedGraph_payload {item : ItemId} {typeArgs : List Ty} {case : ℕ}
    {payload : List Value}
    (h : validateOwnedGraph m t (.variant item typeArgs case payload) = .ok ⟨⟩) :
    (∀ u ∈ payload, validateOwnedGraph m t u = .ok ⟨⟩) ∧ payload.Pairwise (Apart t) := by
  obtain ⟨s, hrun⟩ := validateOwnedGraph_iff.mp h
  obtain ⟨-, declared, -, -, hlen, hparts⟩ := validate_variant.mp hrun
  obtain ⟨hall, hpairwise⟩ := validated_parts hparts
  have hfst : (payload.zip declared).map Prod.fst = payload :=
    List.map_fst_zip (by rw [hlen])
  constructor
  · intro u hu
    rw [← hfst] at hu
    obtain ⟨p, hp, rfl⟩ := List.mem_map.mp hu
    obtain ⟨_, _, hvalid⟩ := hall p hp
    exact validateOwnedGraph_iff.mpr (validate_relax hvalid (Nat.le_succ _) (.inr rfl) (by simp))
  · rw [← hfst]
    exact List.pairwise_map.mpr hpairwise

/-- The payload of an owned shell is owned, and its positions reach nothing in
common. -/
theorem OwnedValue.payload {item : ItemId} {typeArgs : List Ty} {case : ℕ} {payload : List Value}
    (h : OwnedValue m t (.variant item typeArgs case payload)) :
    (∀ u ∈ payload, OwnedValue m t u) ∧ payload.Pairwise (Apart t) := by
  obtain ⟨hgraph, hpairwise⟩ := validateOwnedGraph_payload h.graph
  refine ⟨fun u hu => ⟨hgraph u hu, fun k hk => ?_, fun id hid => ?_⟩, hpairwise⟩
  · exact h.owners k (hk.of_handles fun j hj => mem_handles_variant.mpr ⟨u, hu, hj⟩)
  · exact h.free id (reaches_variant.mpr ⟨u, hu, hid⟩)

theorem rejectLeasedValue_eq_ok {v : Value} (h : validateOwnedGraph m t v = .ok ⟨⟩)
    (what : String) : rejectLeasedValue t v what = .ok ⟨⟩ ↔
      ∀ id, Reaches t v id → t.activeLeaseHolding id = none := by
  obtain ⟨seen, hseen⟩ := validateOwnedGraph_eq_ok h
  have hcovers := collectOwnedIdentities_covers hseen
  have hfound : ∀ id, id ∈ seen ↔ Reaches t v id := by
    intro id
    rw [hcovers.found id]
    simp
  have hreject : rejectLeasedValue t v what = rejectLeasedIdentities t seen what := by
    unfold rejectLeasedValue
    rw [collectReachable_of_owned hseen]
    rfl
  rw [hreject]
  refine Except.forM_eq_ok.trans ⟨fun hall id hid => ?_, fun hall id hid => ?_⟩
  · have hone := hall id ((List.mem_insertionSort _).mpr ((hfound id).mpr hid))
    cases hlease : t.activeLeaseHolding id with
    | none => rfl
    | some lease =>
      rw [hlease] at hone
      cases hone
  · rw [hall id ((hfound id).mp ((List.mem_insertionSort _).mp hid))]
    rfl

theorem OwnedValue.rejectLeased {v : Value} (h : OwnedValue m t v) (what : String) :
    rejectLeasedValue t v what = .ok ⟨⟩ :=
  (rejectLeasedValue_eq_ok h.graph what).mpr h.free

/-! ### Planning a destruction -/

theorem planParts_ok (planOne : Value → Destroying Unit) {l : List (Value × Ty)}
    (st : List ResourceId × List ResourceHandle)
    (hone : ∀ p ∈ l, ∀ st, isAffine m p.2 = true → p.1.isTombstone = false →
      (∀ id, Reaches t p.1 id → id ∉ st.1) → ∃ st', (planOne p.1).run st = .ok (⟨⟩, st') ∧
        ∀ id ∈ st'.1, id ∈ st.1 ∨ Reaches t p.1 id)
    (hpairwise : l.Pairwise fun p q => Apart t p.1 q.1)
    (hfree : ∀ p ∈ l, ∀ id, Reaches t p.1 id → id ∉ st.1) :
    ∃ st', (l.forM fun p => if !isAffine m p.2 || p.1.isTombstone then pure ()
        else planOne p.1 : Destroying Unit).run st = .ok (⟨⟩, st') ∧
      ∀ id ∈ st'.1, id ∈ st.1 ∨ ∃ p ∈ l, Reaches t p.1 id := by
  induction l generalizing st with
  | nil => exact ⟨st, rfl, fun id hid => .inl hid⟩
  | cons p l ih =>
    have hhead := (List.pairwise_cons.mp hpairwise).1
    obtain ⟨st₁, hst₁, hseen₁⟩ : ∃ st₁, ((if !isAffine m p.2 || p.1.isTombstone then pure ()
        else planOne p.1 : Destroying Unit)).run st = .ok (⟨⟩, st₁) ∧
        ∀ id ∈ st₁.1, id ∈ st.1 ∨ Reaches t p.1 id := by
      split
      · exact ⟨st, rfl, fun id hid => .inl hid⟩
      · rename_i hkeep
        simp only [Bool.or_eq_true, Bool.not_eq_true', not_or, Bool.not_eq_false,
          Bool.not_eq_true] at hkeep
        exact hone p (by simp) st hkeep.1 hkeep.2 (hfree p (by simp))
    obtain ⟨st', hst', hseen⟩ := ih st₁ (fun q hq => hone q (by simp [hq])) hpairwise.tail
      fun q hq id hid hmem => by
        rcases hseen₁ id hmem with hmem | hreach
        · exact hfree q (by simp [hq]) id hid hmem
        · exact hhead q hq id hreach hid
    refine ⟨st', run_bind_eq_ok.mpr ⟨⟨⟩, st₁, hst₁, hst'⟩, fun id hid => ?_⟩
    rcases hseen id hid with hid | ⟨q, hq, hreach⟩
    · exact (hseen₁ id hid).imp_right fun hreach => ⟨p, by simp, hreach⟩
    · exact .inr ⟨q, by simp [hq], hreach⟩

/-- What a destruction accepts at all. -/
def Value.isDroppable : Value → Bool
  | .resource _ | .record .. | .variant .. => true
  | _ => false

theorem droppable_of_affine {n : ℕ} {v : Value} {ty : Ty} {s s' : List ResourceId}
    (h : (validateValueAgainstTy m t n v (some ty)).run s = .ok (⟨⟩, s'))
    (haffine : isAffine m ty = true) (hlive : v.isTombstone = false) : v.isDroppable = true := by
  cases n with
  | zero => exact absurd h run_throw_ne_ok
  | succ n =>
    unfold validateValueAgainstTy at h
    obtain ⟨⟨⟩, u, -, h⟩ := run_bind_eq_ok.mp h
    -- a scalar stands only at its own type, which owns nothing
    have hscalar : ∀ (scalar : Ty) (check : Bool → Except InterpreterError Unit),
        isAffine m scalar = false → check false ≠ .ok ⟨⟩ →
        check (decide (some ty = none ∨ some ty = some scalar)) = .ok ⟨⟩ → False := by
      intro scalar check hno hfalse hcheck
      cases hty : decide (some ty = none ∨ some ty = some scalar) with
      | false =>
        rw [hty] at hcheck
        exact hfalse hcheck
      | true =>
        have heq : ty = scalar := by simpa using hty
        rw [heq, hno] at haffine
        cases haffine
    cases v with
    | resource | record | «variant» => rfl
    | moved | dropped => cases hlive
    | int x => exact (hscalar .i64 _ rfl (by rintro ⟨⟩) (run_liftM_eq_ok.mp h).1).elim
    | float x => exact (hscalar .f64 _ rfl (by rintro ⟨⟩) (run_liftM_eq_ok.mp h).1).elim
    | bool x => exact (hscalar .bool _ rfl (by rintro ⟨⟩) (run_liftM_eq_ok.mp h).1).elim
    | char x => exact (hscalar .char _ rfl (by rintro ⟨⟩) (run_liftM_eq_ok.mp h).1).elim
    | str x => exact (hscalar .str _ rfl (by rintro ⟨⟩) (run_liftM_eq_ok.mp h).1).elim
    | unit => exact (hscalar .unit _ rfl (by rintro ⟨⟩) (run_liftM_eq_ok.mp h).1).elim

theorem planFields_ok {n : ℕ} (planOne : Value → Destroying Unit) {fields : List Value}
    {declared : List Ty} {s s' : List ResourceId} (st : List ResourceId × List ResourceHandle)
    (h : ((fields.zip declared).forM fun p => validateValueAgainstTy m t n p.1 (some p.2)).run s =
      .ok (⟨⟩, s'))
    (hone : ∀ p ∈ fields.zip declared, ∀ u u' st,
      (validateValueAgainstTy m t n p.1 (some p.2)).run u = .ok (⟨⟩, u') → p.1.isDroppable = true →
      (∀ id, Reaches t p.1 id → id ∉ st.1) → ∃ st', (planOne p.1).run st = .ok (⟨⟩, st') ∧
        ∀ id ∈ st'.1, id ∈ st.1 ∨ Reaches t p.1 id)
    (hfree : ∀ f ∈ fields, ∀ id, Reaches t f id → id ∉ st.1) :
    ∃ st', (planDropFields m planOne fields declared).run st = .ok (⟨⟩, st') ∧
      ∀ id ∈ st'.1, id ∈ st.1 ∨ ∃ f ∈ fields, Reaches t f id := by
  obtain ⟨hall, hpairwise⟩ := validated_parts h
  have hreverse : (fields.zip declared).reverse.Pairwise fun p q => Apart t p.1 q.1 :=
    List.pairwise_reverse.mpr (hpairwise.imp fun hapart => hapart.symm)
  obtain ⟨st', hst', hseen⟩ := planParts_ok (m := m) (t := t) planOne st
    (l := (fields.zip declared).reverse) (fun p hp st haffine hlive hst => by
      have hp' := List.mem_reverse.mp hp
      obtain ⟨u, u', hvalid⟩ := hall p hp'
      exact hone p hp' u u' st hvalid (droppable_of_affine hvalid haffine hlive) hst) hreverse
    fun p hp => hfree p.1 (List.of_mem_zip (List.mem_reverse.mp hp)).1
  refine ⟨st', hst', fun id hid => (hseen id hid).imp_right fun ⟨p, hp, hreach⟩ => ?_⟩
  exact ⟨p.1, (List.of_mem_zip (List.mem_reverse.mp hp)).1, hreach⟩

theorem planDrop_ok {n : ℕ} {v : Value} {expected : Option Ty} {s s' : List ResourceId}
    (st : List ResourceId × List ResourceHandle)
    (h : (validateValueAgainstTy m t n v expected).run s = .ok (⟨⟩, s'))
    (howners : ∀ k, Touches t v k → k.role = .owner ∧ ∃ r, t.observe k = .ok r)
    (hdrop : v.isDroppable = true) (hfree : ∀ id, Reaches t v id → id ∉ st.1) :
    ∃ st', (planDrop m t n v).run st = .ok (⟨⟩, st') ∧
      ∀ id ∈ st'.1, id ∈ st.1 ∨ Reaches t v id := by
  induction n generalizing v expected s s' st with
  | zero => exact absurd h run_throw_ne_ok
  | succ n ih =>
    cases v with
    | resource handle =>
      obtain ⟨-, rec, declared, hrec, -, -, htys, hlen, hparts⟩ := validate_resource.mp h
      obtain ⟨hrole, rec', hobserve⟩ := howners handle (.inline (by simp))
      obtain rfl : rec' = rec := by
        have hrec' := (observe_eq_ok.mp hobserve).1
        rw [hrec] at hrec'
        exact (Except.ok.inj hrec').symm
      have hid : handle.id ∉ st.1 := hfree _ (reaches_resource.mpr ⟨rec', hrec, .inl rfl⟩)
      have hcovers := validated_covers hparts
      rw [List.map_fst_zip (by rw [hlen])] at hcovers
      obtain ⟨st₁, hst₁, hseen₁⟩ := planFields_ok (planDrop m t n)
        (st.1 ++ [handle.id], st.2) hparts
        (fun p hp u u' st hvalid hdrop hst => ih st hvalid (fun k hk => howners k
          (.field (by simp) hrec (List.of_mem_zip hp).1 hk)) hdrop hst)
        (fun f hf id hreach hmem => by
          rcases List.mem_append.mp hmem with hmem | hmem
          · exact hfree id (reaches_resource.mpr ⟨rec', hrec, .inr ⟨f, hf, hreach⟩⟩) hmem
          · exact hcovers.fresh f hf id hreach (by simp_all))
      refine ⟨(st₁.1, st₁.2 ++ [handle]), ?_, fun id hid => ?_⟩
      · exact planDrop_resource.mpr ⟨hrole, hid, rec', declared, st₁, hobserve, htys, hlen, hst₁, rfl⟩
      · rcases hseen₁ id hid with hmem | ⟨f, hf, hreach⟩
        · rcases List.mem_append.mp hmem with hmem | hmem
          · exact .inl hmem
          · obtain rfl := List.mem_singleton.mp hmem
            exact .inr (reaches_resource.mpr ⟨rec', hrec, .inl rfl⟩)
        · exact .inr (reaches_resource.mpr ⟨rec', hrec, .inr ⟨f, hf, hreach⟩⟩)
    | record item typeArgs fields =>
      obtain ⟨-, declared, -, -, htys, hlen, hparts⟩ := validate_record.mp h
      obtain ⟨st', hst', hseen⟩ := planFields_ok (planDrop m t n) st hparts
        (fun p hp u u' st hvalid hdrop hst => ih st hvalid (fun k hk => howners k
          (hk.of_handles fun j hj => mem_handles_record.mpr ⟨p.1, (List.of_mem_zip hp).1, hj⟩))
          hdrop hst)
        (fun f hf id hreach => hfree id (reaches_record.mpr ⟨f, hf, hreach⟩))
      exact ⟨st', planDrop_record.mpr ⟨declared, htys, hlen, hst'⟩,
        fun id hid => (hseen id hid).imp_right reaches_record.mpr⟩
    | variant item typeArgs case payload =>
      obtain ⟨-, declared, -, htys, hlen, hparts⟩ := validate_variant.mp h
      obtain ⟨st', hst', hseen⟩ := planFields_ok (planDrop m t n) st hparts
        (fun p hp u u' st hvalid hdrop hst => ih st hvalid (fun k hk => howners k
          (hk.of_handles fun j hj => mem_handles_variant.mpr ⟨p.1, (List.of_mem_zip hp).1, hj⟩))
          hdrop hst)
        (fun f hf id hreach => hfree id (reaches_variant.mpr ⟨f, hf, hreach⟩))
      exact ⟨st', planDrop_variant.mpr ⟨declared, htys, hlen, hst'⟩,
        fun id hid => (hseen id hid).imp_right reaches_variant.mpr⟩
    | _ => cases hdrop

end

/-! ### Destroying one part -/

/-- Two tables that differ in nothing but which resources are alive. -/
structure Alike (t t' : ResourceTable) : Prop where
  record : ∀ {k : ResourceHandle} {r : ResourceRecord}, t.record k = .ok r →
    ∃ r', t'.record k = .ok r' ∧ r'.item = r.item ∧ r'.fields = r.fields
  leases : t'.leases = t.leases
  active : t'.active = t.active

section
variable {m : Module} {t t' t'' : ResourceTable}

theorem Alike.refl (t : ResourceTable) : Alike t t := ⟨fun h => ⟨_, h, rfl, rfl⟩, rfl, rfl⟩

theorem Alike.trans (h : Alike t t') (h' : Alike t' t'') : Alike t t'' := by
  refine ⟨fun {k r} hr => ?_, h'.leases.trans h.leases, h'.active.trans h.active⟩
  obtain ⟨r₁, hr₁, hitem₁, hfields₁⟩ := h.record hr
  obtain ⟨r₂, hr₂, hitem₂, hfields₂⟩ := h'.record hr₁
  exact ⟨r₂, hr₂, hitem₂.trans hitem₁, hfields₂.trans hfields₁⟩

theorem setStatus_alike (t : ResourceTable) (id : ResourceId) (status : ResourceStatus) :
    Alike t (t.setStatus id status) := by
  refine ⟨fun {k r} hr => ?_, rfl, rfl⟩
  obtain ⟨hlease, hget, hgen⟩ := record_eq_ok.mp hr
  by_cases hid : id.index = k.id.index
  · refine ⟨{ r with status := status }, record_eq_ok.mpr ⟨hlease, ?_, hgen⟩, rfl, rfl⟩
    rw [setStatus_records, if_pos hid, hget]
    rfl
  · refine ⟨r, record_eq_ok.mpr ⟨hlease, ?_, hgen⟩, rfl, rfl⟩
    rw [setStatus_records, if_neg hid, hget]

theorem setStatus_alike_back (t : ResourceTable) (id : ResourceId) (status : ResourceStatus) :
    Alike (t.setStatus id status) t := by
  refine ⟨fun {k r} hr => ?_, rfl, rfl⟩
  obtain ⟨hlease, hget, hgen⟩ := record_eq_ok.mp hr
  rw [setStatus_records] at hget
  split at hget
  · obtain ⟨r', hr', rfl⟩ := Option.map_eq_some_iff.mp hget
    exact ⟨r', record_eq_ok.mpr ⟨hlease, hr', hgen⟩, rfl, rfl⟩
  · exact ⟨r, record_eq_ok.mpr ⟨hlease, hget, hgen⟩, rfl, rfl⟩

theorem Alike.reaches (h : Alike t t') {v : Value} {id : ResourceId} (hv : Reaches t v id) :
    Reaches t' v id := by
  induction hv with
  | handle hh hr =>
    obtain ⟨r', hr', -, -⟩ := h.record hr
    exact .handle hh hr'
  | field hh hr hf _ ih =>
    obtain ⟨r', hr', -, hfields⟩ := h.record hr
    exact .field hh hr' (hfields ▸ hf) ih

theorem Alike.touches (h : Alike t t') {v : Value} {k : ResourceHandle} (hv : Touches t v k) :
    Touches t' v k := by
  induction hv with
  | inline hh => exact .inline hh
  | field hh hr hf _ ih =>
    obtain ⟨r', hr', -, hfields⟩ := h.record hr
    exact .field hh hr' (hfields ▸ hf) ih

theorem Alike.validate (h : Alike t t') {n : ℕ} {v : Value} {expected : Option Ty}
    {s s' : List ResourceId}
    (hv : (validateValueAgainstTy m t n v expected).run s = .ok (⟨⟩, s')) :
    (validateValueAgainstTy m t' n v expected).run s = .ok (⟨⟩, s') := by
  induction n generalizing v expected s s' with
  | zero => exact absurd hv run_throw_ne_ok
  | succ n ih =>
    have hparts : ∀ {l : List (Value × Ty)} {s s' : List ResourceId},
        (l.forM fun p => validateValueAgainstTy m t n p.1 (some p.2)).run s = .ok (⟨⟩, s') →
        (l.forM fun p => validateValueAgainstTy m t' n p.1 (some p.2)).run s = .ok (⟨⟩, s') := by
      intro l
      induction l with
      | nil => exact fun hl => hl
      | cons p l ihl =>
        intro s s' hl
        obtain ⟨⟨⟩, u, hp, hl⟩ := run_bind_eq_ok.mp hl
        exact run_bind_eq_ok.mpr ⟨⟨⟩, u, ih hp, ihl hl⟩
    cases v with
    | resource handle =>
      obtain ⟨hexec, r, declared, hr, hdecl, hseen, htys, hlen, hl⟩ := validate_resource.mp hv
      obtain ⟨r', hr', hitem, hfields⟩ := h.record hr
      rw [← hitem] at hdecl htys
      rw [← hfields] at hlen hl
      exact validate_resource.mpr
        ⟨hexec, r', declared, hr', hdecl, hseen, htys, hlen, hparts hl⟩
    | record item typeArgs fields =>
      obtain ⟨hexec, declared, hdecl, hitem, htys, hlen, hl⟩ := validate_record.mp hv
      exact validate_record.mpr ⟨hexec, declared, hdecl, hitem, htys, hlen, hparts hl⟩
    | variant item typeArgs case payload =>
      obtain ⟨hexec, declared, hdecl, htys, hlen, hl⟩ := validate_variant.mp hv
      exact validate_variant.mpr ⟨hexec, declared, hdecl, htys, hlen, hparts hl⟩
    | _ =>
      rw [validateValueAgainstTy] at hv ⊢
      exact hv

/-- What destroying a value leaves alone. -/
structure Spares (t t' : ResourceTable) (v : Value) : Prop where
  alike : Alike t t'
  back : Alike t' t
  alive : ∀ {k : ResourceHandle} {r : ResourceRecord}, t.observe k = .ok r →
    ¬ Reaches t v k.id → t'.observe k = .ok r

theorem foldl_setStatus_spares {v : Value} {plan : List ResourceHandle}
    (h : ∀ k ∈ plan, Reaches t v k.id) :
    Spares t (plan.foldl (fun t k => t.setStatus k.id .dropped) t) v := by
  induction plan generalizing t with
  | nil => exact ⟨.refl t, .refl t, fun hk _ => hk⟩
  | cons j plan ih =>
    have hforth := setStatus_alike t j.id .dropped
    have hback := setStatus_alike_back t j.id .dropped
    have hrest := ih (t := t.setStatus j.id .dropped) fun k hk => hforth.reaches (h k (by simp [hk]))
    refine ⟨hforth.trans hrest.alike, hrest.back.trans hback, fun {k r} hk hnot => ?_⟩
    refine hrest.alive (setStatus_observe (fun heq => ?_) hk) fun hreach => hnot (hback.reaches hreach)
    rw [heq] at hnot
    exact hnot (h j (by simp))

theorem OwnedValue.dropValue {v : Value} (h : OwnedValue m t v) (hdrop : v.isDroppable = true) :
    ∃ t', dropValue m v t = .ok ⟨⟩ t' ∧ Spares t t' v := by
  obtain ⟨s, hvalid⟩ := validateOwnedGraph_iff.mp h.graph
  obtain ⟨⟨seen, plan⟩, hplan, -⟩ := planDrop_ok ([], []) hvalid h.owners hdrop (by simp)
  obtain ⟨added, hadded, hnodup, -, hprop⟩ := planDrop_planned hplan
  obtain rfl : plan = added := by simpa using hadded
  have hreached : ∀ k ∈ plan, Reaches t v k.id := by
    intro k hk
    rcases planDrop_reaches hplan k hk with hk | hk
    · cases hk
    · exact hk
  obtain ⟨⟨⟩, t', ht'⟩ := forM_dropResource_sure hnodup fun k hk => (hprop k hk).2.2
  refine ⟨t', ?_, ?_⟩
  · unfold Interpreter.dropValue
    refine EStateM.get_bind_eq_ok.mpr (EStateM.ask_bind_eq_ok.mpr ⟨⟨⟩, h.graph, ?_⟩)
    refine EStateM.get_bind_eq_ok.mpr (EStateM.ask_bind_eq_ok.mpr ⟨⟨⟩, h.rejectLeased _, ?_⟩)
    exact EStateM.get_bind_eq_ok.mpr (EStateM.ask_bind_eq_ok.mpr ⟨(⟨⟩, seen, plan), hplan, ht'⟩)
  · rw [forM_dropResource_eq_ok ht']
    exact foldl_setStatus_spares hreached

theorem OwnedValue.of_spares {u v : Value} (h : OwnedValue m t u) (hapart : Apart t u v)
    (hs : Spares t t' v) : OwnedValue m t' u := by
  refine ⟨?_, fun k hk => ?_, fun id hid => ?_⟩
  · obtain ⟨s, hvalid⟩ := validateOwnedGraph_iff.mp h.graph
    exact validateOwnedGraph_iff.mpr ⟨s, hs.alike.validate hvalid⟩
  · have htouch := hs.back.touches hk
    obtain ⟨hrole, r, hr⟩ := h.owners k htouch
    have hreach : Reaches t u k.id := by
      clear hapart hs h hk
      induction htouch with
      | inline hh => exact .handle hh (observe_eq_ok.mp hr).1
      | field hh hrec hf _ ih => exact .field hh hrec hf (ih hrole hr)
    exact ⟨hrole, r, hs.alive hr (hapart _ hreach)⟩
  · have hfree := h.free id (hs.back.reaches hid)
    unfold activeLeaseHolding openLeases at hfree ⊢
    rw [hs.alike.leases, hs.alike.active]
    exact hfree

theorem Apart.of_spares {u w v : Value} (h : Apart t u w) (hs : Spares t t' v) : Apart t' u w :=
  fun id hu hw => h id (hs.back.reaches hu) (hs.back.reaches hw)

end

end Napitia.Interpreter
