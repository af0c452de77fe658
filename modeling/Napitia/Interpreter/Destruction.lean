import Napitia.Interpreter.Declarations
import Napitia.Interpreter.Parts

/-!
# What a destruction destroys

The plan of a destruction decides by the declared type of each position whether to
descend. `destructionOrder` looks at the values alone: every handle that is reached, what
a resource stores before the resource and later positions before earlier ones. On a
well-formed value the two are the same list: a position whose type is not affine holds no
handle, at whatever instantiation and however the declarations recur.
-/
namespace Napitia.Interpreter
open Nir ResourceTable StateT

/-- No id is that of a record and of a variant. -/
def DeclaredOnce (m : Module) : Prop :=
  ∀ item, (m.findVariant item).isSome → m.findRecord item = none

/-- What the table holds is of declared resources. -/
def ResourcesDeclared (m : Module) (t : ResourceTable) : Prop :=
  ∀ r ∈ t.records, isResource m r.item = true

/-- The table of an interpreter does, whatever was called on it. -/
theorem Session.resourcesDeclared {m : Module} {fpu : FloatUnit} {P : Point → Prop}
    {i : InterpreterState} (h : Session m fpu P i) : ResourcesDeclared m i.resources := by
  intro r hr
  exact h.itemsMeet (Q := fun item => isResource m item = true) (fun _ hitem => hitem) r.item
    (List.mem_map_of_mem hr)

/-- A type within `n` steps of a resource, each step a field or payload type of the
instantiation before it. -/
def ResourceWithin (m : Module) : ℕ → Ty → Prop
  | 0, _ => False
  | n + 1, .named item =>
    isResource m item = true ∨ ∃ fty ∈ itemFieldTypes m item, ResourceWithin m n fty
  | n + 1, .applied item args =>
    isResource m item = true ∨ ∃ subst, typeSubstitution m item args = some subst ∧
      ∃ fty ∈ itemFieldTypes m item, ResourceWithin m n (substitute fty subst)
  | _ + 1, _ => False

section Types
variable {m : Module} {n k : ℕ} {ty : Ty}

theorem ResourceWithin.succ (h : ResourceWithin m n ty) : ResourceWithin m (n + 1) ty := by
  induction n generalizing ty with
  | zero => exact h.elim
  | succ n ih =>
    cases ty with
    | named item =>
      refine h.imp_right fun hfield => ?_
      obtain ⟨fty, hmem, hfty⟩ := hfield
      exact ⟨fty, hmem, ih hfty⟩
    | applied item args =>
      refine h.imp_right fun hfield => ?_
      obtain ⟨subst, hsubst, fty, hmem, hfty⟩ := hfield
      exact ⟨subst, hsubst, fty, hmem, ih hfty⟩
    | _ => exact h.elim

/-- A resource within reach is found: what is cut off by the visiting list does not lead
there in fewer steps. -/
theorem isAffineVisiting_of_within {visiting : List ItemId} (h : ResourceWithin m n ty)
    (hle : n ≤ k) (hvisiting : ∀ item ∈ visiting, ¬ ResourceWithin m n (.named item)) :
    isAffineVisiting m k ty visiting = true := by
  induction n generalizing k ty visiting with
  | zero => exact h.elim
  | succ n ih =>
    obtain ⟨k, rfl⟩ : ∃ j, k = j + 1 := ⟨k - 1, by omega⟩
    have hfewer : ∀ item ∈ visiting, ¬ ResourceWithin m n (.named item) :=
      fun item hitem hwithin => hvisiting item hitem hwithin.succ
    cases ty with
    | named item =>
      by_cases hshorter : ResourceWithin m n (.named item)
      · exact ih hshorter (by omega) hfewer
      · have hnew : item ∉ visiting := fun hmem => hvisiting item hmem h
        rw [isAffineVisiting]
        split
        · rfl
        · rename_i hresource
          obtain ⟨fty, hmem, hfty⟩ := h.resolve_left hresource
          rw [List.any_eq_true]
          refine ⟨fty, hmem, ih hfty (by omega) fun item' hitem' => ?_⟩
          rcases List.mem_cons.mp hitem' with rfl | hitem'
          · exact hshorter
          · exact hfewer item' hitem'
    | applied item args =>
      rw [isAffineVisiting]
      split
      · rfl
      · rename_i hresource
        obtain ⟨subst, hsubst, fty, hmem, hfty⟩ := h.resolve_left hresource
        rw [hsubst]
        exact List.any_eq_true.mpr ⟨fty, hmem, ih hfty (by omega) hfewer⟩
    | _ => exact h.elim

theorem substituteAtDepth_empty (n : ℕ) (ty : Ty) : substituteAtDepth ∅ n ty = ty := by
  induction n generalizing ty with
  | zero => rfl
  | succ n ih =>
    cases ty with
    | applied item args =>
      rw [substituteAtDepth, List.map_congr_left fun a _ => ih a, List.map_id']
    | param id =>
      rw [substituteAtDepth, AList.lookup_empty]
      rfl
    | _ => rfl

end Types

/-! ### Where handles stand -/

section Handles
variable {m : Module} {t : ResourceTable} {n : ℕ} {v : Value} {ty : Ty} {s s' : List ResourceId}
  {k : ResourceHandle}

theorem checkDeclaration_eq_ok {what : String} {item : ItemId} {typeArgs : List Ty}
    (h : checkDeclaration what (some ty) item typeArgs = .ok ⟨⟩) :
    ty = .named item ∧ typeArgs = [] ∨ ty = .applied item typeArgs := by
  unfold checkDeclaration at h
  obtain ⟨required, hrequired, h⟩ := Except.bind_eq_ok.mp h
  cases ty with
  | named declared =>
    cases hrequired
    by_cases hne : declared ≠ item ∨ ([] : List Ty) ≠ typeArgs
    · simp only [hne, if_true] at h
      cases h
    · simp only [not_or, not_not] at hne
      exact .inl ⟨congrArg _ hne.1, hne.2.symm⟩
  | applied declared args =>
    cases hrequired
    by_cases hne : declared ≠ item ∨ args ≠ typeArgs
    · simp only [hne, if_true] at h
      cases h
    · simp only [not_or, not_not] at hne
      exact .inr (by rw [hne.1, hne.2])
  | _ => cases hrequired

theorem checkedSubstitutionOf_eq_ok {item : ItemId} {typeArgs : List Ty} {subst : Subst}
    (h : checkedSubstitutionOf m item typeArgs = .ok subst) :
    typeSubstitution m item typeArgs = some subst := by
  unfold checkedSubstitutionOf at h
  split at h
  · rename_i found hfound
    cases h
    exact hfound
  · cases h

theorem within_of_field {item : ItemId} {typeArgs : List Ty} {subst : Subst} {fty : Ty}
    (hty : ty = .named item ∧ typeArgs = [] ∨ ty = .applied item typeArgs)
    (hsubst : typeSubstitution m item typeArgs = some subst) (hmem : fty ∈ itemFieldTypes m item)
    (h : ResourceWithin m n (substitute fty subst)) : ResourceWithin m (n + 1) ty := by
  rcases hty with ⟨rfl, rfl⟩ | rfl
  · refine .inr ⟨fty, hmem, ?_⟩
    obtain ⟨params, -, hparams⟩ := Option.bind_eq_some_iff.mp hsubst
    have hempty : subst = ∅ := by
      unfold checkedSubstitution at hparams
      split at hparams
      · rename_i hlen
        obtain rfl := List.length_eq_zero_iff.mp hlen
        exact (Option.some.inj hparams).symm
      · cases hparams
    rw [hempty] at h
    rwa [substitute, substituteAtDepth_empty] at h
  · exact .inr ⟨subst, hsubst, fty, hmem, h⟩

theorem zip_fst {fields : List Value} {declared : List Ty}
    (hlen : declared.length = fields.length) : (fields.zip declared).map Prod.fst = fields :=
  List.map_fst_zip (by rw [hlen])

theorem field_of_recordFieldTypes {item : ItemId} {typeArgs declared : List Ty} {dty : Ty}
    (h : recordFieldTypes m item typeArgs = .ok declared) (hmem : dty ∈ declared) :
    ∃ subst fty, typeSubstitution m item typeArgs = some subst ∧ fty ∈ itemFieldTypes m item ∧
      substitute fty subst = dty := by
  unfold recordFieldTypes at h
  cases hrecord : m.findRecord item with
  | none =>
    rw [hrecord] at h
    cases h
  | some record =>
    rw [hrecord] at h
    obtain ⟨subst, hsubst, h⟩ := Except.bind_eq_ok.mp h
    cases h
    obtain ⟨field, hfield, hty⟩ := List.mem_map.mp hmem
    refine ⟨subst, field.2, checkedSubstitutionOf_eq_ok hsubst, ?_, hty⟩
    simp only [itemFieldTypes, hrecord]
    exact List.mem_map_of_mem hfield

/-- A type that a case's payload is checked against is that of a declared position, where no
record is declared under the variant's name. -/
theorem field_of_casePayloadTypes (honce : DeclaredOnce m) {item : ItemId}
    {typeArgs declared : List Ty} {case : ℕ} {dty : Ty}
    (h : casePayloadTypes m item typeArgs case = .ok declared) (hmem : dty ∈ declared) :
    ∃ subst fty, typeSubstitution m item typeArgs = some subst ∧ fty ∈ itemFieldTypes m item ∧
      substitute fty subst = dty := by
  unfold casePayloadTypes at h
  cases hvariant : m.findVariant item with
  | none =>
    rw [hvariant] at h
    cases h
  | some layout =>
    have hrecord := honce item (by rw [hvariant]; rfl)
    rw [hvariant] at h
    dsimp only at h
    cases hcase : layout.cases[case]? with
    | none =>
      rw [hcase] at h
      cases h
    | some active =>
      rw [hcase] at h
      obtain ⟨subst, hsubst, h⟩ := Except.bind_eq_ok.mp h
      cases h
      obtain ⟨fty, hfield, hty⟩ := List.mem_map.mp hmem
      refine ⟨subst, fty, checkedSubstitutionOf_eq_ok hsubst, ?_, hty⟩
      simp only [itemFieldTypes, hrecord, hvariant]
      exact List.mem_flatMap.mpr ⟨active, List.mem_of_getElem? hcase, hfield⟩

theorem within_of_handle (honce : DeclaredOnce m) (hitems : ResourcesDeclared m t)
    (h : (validateValueAgainstTy m t n v (some ty)).run s = .ok (⟨⟩, s')) (hk : k ∈ v.handles) :
    ResourceWithin m n ty := by
  induction n generalizing v ty s s' with
  | zero => exact absurd h run_throw_ne_ok
  | succ n ih =>
    cases v with
    | resource handle =>
      obtain ⟨-, r, -, hr, hdecl, -⟩ := validate_resource.mp h
      have hresource := hitems r (List.mem_of_getElem? (record_eq_ok.mp hr).2.1)
      rcases checkDeclaration_eq_ok hdecl with ⟨rfl, -⟩ | rfl
      · exact .inl hresource
      · exact .inl hresource
    | record item typeArgs fields =>
      obtain ⟨-, declared, hdecl, -, htys, hlen, hparts⟩ := validate_record.mp h
      obtain ⟨f, hf, hkf⟩ := mem_handles_record.mp hk
      obtain ⟨p, hp, rfl⟩ : ∃ p ∈ fields.zip declared, p.1 = f := by
        rw [← zip_fst hlen] at hf
        exact List.mem_map.mp hf
      obtain ⟨u, u', hvalid⟩ := (validated_parts hparts).1 p hp
      obtain ⟨subst, fty, hsubst, hmem, hty⟩ :=
        field_of_recordFieldTypes htys (List.of_mem_zip hp).2
      exact within_of_field (checkDeclaration_eq_ok hdecl) hsubst hmem (hty ▸ ih hvalid hkf)
    | variant item typeArgs case payload =>
      obtain ⟨-, declared, hdecl, htys, hlen, hparts⟩ := validate_variant.mp h
      obtain ⟨f, hf, hkf⟩ := mem_handles_variant.mp hk
      obtain ⟨p, hp, rfl⟩ : ∃ p ∈ payload.zip declared, p.1 = f := by
        rw [← zip_fst hlen] at hf
        exact List.mem_map.mp hf
      obtain ⟨u, u', hvalid⟩ := (validated_parts hparts).1 p hp
      obtain ⟨subst, fty, hsubst, hmem, hty⟩ :=
        field_of_casePayloadTypes honce htys (List.of_mem_zip hp).2
      exact within_of_field (checkDeclaration_eq_ok hdecl) hsubst hmem (hty ▸ ih hvalid hkf)
    | _ => simp [Value.handles] at hk

theorem handles_of_not_affine (honce : DeclaredOnce m) (hitems : ResourcesDeclared m t)
    (h : (validateValueAgainstTy m t n v (some ty)).run s = .ok (⟨⟩, s'))
    (hle : n ≤ Limits.maxGenericDepth) (hplain : isAffine m ty = false) : v.handles = [] := by
  refine List.eq_nil_iff_forall_not_mem.mpr fun k hk => ?_
  have hwithin := within_of_handle honce hitems h hk
  have haffine : isAffine m ty = true :=
    isAffineVisiting_of_within hwithin hle fun _ hnone => absurd hnone List.not_mem_nil
  rw [haffine] at hplain
  cases hplain

end Handles

/-! ### The order -/

/-- The handles a value leads to, later positions before earlier ones and what a resource
stores before the resource itself. -/
def destructionOrder (t : ResourceTable) : ℕ → Value → List ResourceHandle
  | 0, _ => []
  | n + 1, .resource handle =>
    match t.record handle with
    | .ok r => r.fields.reverse.flatMap (destructionOrder t n) ++ [handle]
    | .error _ => []
  | n + 1, .record _ _ fields => fields.reverse.flatMap (destructionOrder t n)
  | n + 1, .variant _ _ _ payload => payload.reverse.flatMap (destructionOrder t n)
  | _ + 1, _ => []

section Order
variable {m : Module} {t : ResourceTable} {n : ℕ} {v : Value} {expected : Option Ty}
  {s s' : List ResourceId} {h k : ResourceHandle}

theorem destructionOrder_of_handles (hv : v.handles = []) : destructionOrder t n v = [] := by
  induction n generalizing v with
  | zero => rfl
  | succ n ih =>
    have hparts : ∀ parts : List Value, (∀ h, h ∈ v.handles ↔ ∃ w ∈ parts, h ∈ w.handles) →
        parts.reverse.flatMap (destructionOrder t n) = [] := by
      intro parts hmem
      refine List.flatMap_eq_nil_iff.mpr fun w hw => ih (List.eq_nil_iff_forall_not_mem.mpr ?_)
      intro k hk
      have hkv := (hmem k).mpr ⟨w, List.mem_reverse.mp hw, hk⟩
      rw [hv] at hkv
      cases hkv
    cases v with
    | resource handle => simp at hv
    | record item typeArgs fields => exact hparts fields fun _ => mem_handles_record
    | variant item typeArgs case payload => exact hparts payload fun _ => mem_handles_variant
    | _ => rfl

theorem touches_parts {parts : List Value}
    (hv : ∀ h, h ∈ v.handles ↔ ∃ w ∈ parts, h ∈ w.handles) :
    Touches t v k ↔ ∃ w ∈ parts, Touches t w k := by
  constructor
  · rintro (hh | ⟨hh, hr, hf, hid⟩)
    · obtain ⟨w, hw, hh⟩ := (hv _).mp hh
      exact ⟨w, hw, .inline hh⟩
    · obtain ⟨w, hw, hh⟩ := (hv _).mp hh
      exact ⟨w, hw, .field hh hr hf hid⟩
  · rintro ⟨w, hw, hk⟩
    exact hk.of_handles fun h hh => (hv h).mpr ⟨w, hw, hh⟩

theorem touches_resource {r : ResourceRecord} (hr : t.record h = .ok r) :
    Touches t (.resource h) k ↔ k = h ∨ ∃ f ∈ r.fields, Touches t f k := by
  constructor
  · rintro (hh | ⟨hh, hr', hf, hk⟩)
    · exact .inl (by simpa using hh)
    · rw [handles_resource, List.mem_singleton] at hh
      rw [hh, hr] at hr'
      cases hr'
      exact .inr ⟨_, hf, hk⟩
  · rintro (rfl | ⟨f, hf, hk⟩)
    · exact .inline (by simp)
    · exact .field (by simp) hr hf hk

theorem reaches_of_touches {r : ResourceRecord} (hk : Touches t v k) (hr : t.record k = .ok r) :
    Reaches t v k.id := by
  induction hk with
  | inline hh => exact .handle hh hr
  | field hh hrec hf _ ih => exact .field hh hrec hf (ih hr)

theorem touches_of_reaches {id : ResourceId} (hid : Reaches t v id) :
    ∃ k, Touches t v k ∧ k.id = id := by
  induction hid with
  | handle hh _ => exact ⟨_, .inline hh, rfl⟩
  | field hh hr hf _ ih =>
    obtain ⟨k, hk, hid⟩ := ih
    exact ⟨k, .field hh hr hf hk, hid⟩

theorem validated_fields {fields : List Value} {declared : List Ty}
    (hlen : declared.length = fields.length)
    (hparts : ((fields.zip declared).forM fun p => validateValueAgainstTy m t n p.1 (some p.2)).run
      s = .ok (⟨⟩, s')) :
    ∀ f ∈ fields, ∃ expected u u', (validateValueAgainstTy m t n f expected).run u = .ok (⟨⟩, u') := by
  intro f hf
  rw [← zip_fst hlen] at hf
  obtain ⟨p, hp, rfl⟩ := List.mem_map.mp hf
  obtain ⟨u, u', hvalid⟩ := (validated_parts hparts).1 p hp
  exact ⟨_, u, u', hvalid⟩

theorem mem_destructionOrder
    (hvalid : (validateValueAgainstTy m t n v expected).run s = .ok (⟨⟩, s')) :
    k ∈ destructionOrder t n v ↔ Touches t v k := by
  induction n generalizing v expected s s' with
  | zero => exact absurd hvalid run_throw_ne_ok
  | succ n ih =>
    have hparts : ∀ parts : List Value,
        (∀ f ∈ parts, ∃ expected u u',
          (validateValueAgainstTy m t n f expected).run u = .ok (⟨⟩, u')) →
        (k ∈ parts.reverse.flatMap (destructionOrder t n) ↔ ∃ w ∈ parts, Touches t w k) := by
      intro parts hall
      simp only [List.mem_flatMap, List.mem_reverse]
      refine exists_congr fun w => and_congr_right fun hw => ?_
      obtain ⟨_, _, _, hw⟩ := hall w hw
      exact ih hw
    cases v with
    | resource handle =>
      obtain ⟨-, r, declared, hr, -, -, -, hlen, hfields⟩ := validate_resource.mp hvalid
      simp only [destructionOrder, hr]
      rw [List.mem_append, hparts r.fields (validated_fields hlen hfields), List.mem_singleton,
        touches_resource hr, or_comm]
    | record item typeArgs fields =>
      obtain ⟨-, declared, -, -, -, hlen, hfields⟩ := validate_record.mp hvalid
      exact (hparts fields (validated_fields hlen hfields)).trans
        (touches_parts fun _ => mem_handles_record).symm
    | variant item typeArgs case payload =>
      obtain ⟨-, declared, -, -, hlen, hfields⟩ := validate_variant.mp hvalid
      exact (hparts payload (validated_fields hlen hfields)).trans
        (touches_parts fun _ => mem_handles_variant).symm
    | _ =>
      refine ⟨fun hk => absurd hk List.not_mem_nil, fun hk => ?_⟩
      cases hk with
      | inline hh => simp [Value.handles] at hh
      | field hh => simp [Value.handles] at hh

theorem destructionOrder_owned {r : ResourceRecord} {f : Value}
    (hvalid : (validateValueAgainstTy m t n v expected).run s = .ok (⟨⟩, s'))
    (hh : h ∈ destructionOrder t n v) (hr : t.record h = .ok r) (hf : f ∈ r.fields)
    (hk : Touches t f k) : [k, h].Sublist (destructionOrder t n v) := by
  induction n generalizing v expected s s' with
  | zero => exact absurd hvalid run_throw_ne_ok
  | succ n ih =>
    have hparts : ∀ parts : List Value,
        (∀ f ∈ parts, ∃ expected u u',
          (validateValueAgainstTy m t n f expected).run u = .ok (⟨⟩, u')) →
        h ∈ parts.reverse.flatMap (destructionOrder t n) →
        [k, h].Sublist (parts.reverse.flatMap (destructionOrder t n)) := by
      intro parts hall hmem
      obtain ⟨w, hw, hhw⟩ := List.mem_flatMap.mp hmem
      obtain ⟨_, _, _, hvalid⟩ := hall w (List.mem_reverse.mp hw)
      exact (ih hvalid hhw).trans (List.sublist_flatten_of_mem (List.mem_map_of_mem hw))
    cases v with
    | resource handle =>
      obtain ⟨-, r', declared, hr', -, -, -, hlen, hfields⟩ := validate_resource.mp hvalid
      have hall := validated_fields hlen hfields
      simp only [destructionOrder, hr'] at hh ⊢
      rcases List.mem_append.mp hh with hh | hh
      · exact (hparts r'.fields hall hh).trans (List.sublist_append_left _ _)
      · obtain rfl := List.mem_singleton.mp hh
        rw [hr] at hr'
        cases hr'
        obtain ⟨_, _, _, hvalid⟩ := hall f hf
        have hmem : k ∈ r.fields.reverse.flatMap (destructionOrder t n) :=
          List.mem_flatMap.mpr ⟨f, List.mem_reverse.mpr hf, (mem_destructionOrder hvalid).mpr hk⟩
        exact List.Sublist.append (List.singleton_sublist.mpr hmem) (List.Sublist.refl [h])
    | record item typeArgs fields =>
      obtain ⟨-, declared, -, -, -, hlen, hfields⟩ := validate_record.mp hvalid
      exact hparts fields (validated_fields hlen hfields) hh
    | variant item typeArgs case payload =>
      obtain ⟨-, declared, -, -, hlen, hfields⟩ := validate_variant.mp hvalid
      exact hparts payload (validated_fields hlen hfields) hh
    | _ => exact absurd hh List.not_mem_nil

end Order

/-! ### The plan -/

section Plan
variable {m : Module} {t t' : ResourceTable} {n : ℕ} {v : Value} {expected : Option Ty}
  {s s' : List ResourceId} {st st' : List ResourceId × List ResourceHandle}

theorem destructionOrder_tombstone (h : v.isTombstone = true) : destructionOrder t n v = [] := by
  refine destructionOrder_of_handles ?_
  cases v with
  | moved | dropped => rfl
  | _ => cases h

theorem planParts_order {l : List (Value × Ty)} {planOne : Value → Destroying Unit}
    {order : Value → List ResourceHandle}
    (hskip : ∀ p ∈ l, isAffine m p.2 = false ∨ p.1.isTombstone = true → order p.1 = [])
    (hone : ∀ p ∈ l, ∀ st st', (planOne p.1).run st = .ok (⟨⟩, st') → st'.2 = st.2 ++ order p.1)
    (h : (l.forM fun p => if !isAffine m p.2 || p.1.isTombstone then pure () else planOne p.1 :
      Destroying Unit).run st = .ok (⟨⟩, st')) : st'.2 = st.2 ++ l.flatMap fun p => order p.1 := by
  induction l generalizing st with
  | nil =>
    obtain ⟨-, rfl⟩ := run_pure_eq_ok.mp h
    simp
  | cons p l ih =>
    obtain ⟨⟨⟩, u, hp, hl⟩ := run_bind_eq_ok.mp h
    dsimp only at hp
    have hrest := ih (fun q hq => hskip q (by simp [hq])) (fun q hq => hone q (by simp [hq])) hl
    have hfirst : u.2 = st.2 ++ order p.1 := by
      split at hp
      · rename_i hskipped
        obtain ⟨-, rfl⟩ := run_pure_eq_ok.mp hp
        rw [hskip p (by simp) (by simpa using hskipped), List.append_nil]
      · exact hone p (by simp) _ _ hp
    rw [hrest, hfirst, List.append_assoc, List.flatMap_cons]

theorem planDrop_order (honce : DeclaredOnce m) (hitems : ResourcesDeclared m t)
    (hvalid : (validateValueAgainstTy m t n v expected).run s = .ok (⟨⟩, s'))
    (hle : n ≤ Limits.maxGenericDepth) (h : (planDrop m t n v).run st = .ok (⟨⟩, st')) :
    st'.2 = st.2 ++ destructionOrder t n v := by
  induction n generalizing v expected s s' st st' with
  | zero => exact absurd h run_throw_ne_ok
  | succ n ih =>
    have hparts : ∀ {fields : List Value} {declared : List Ty} {s s' : List ResourceId}
        {st st' : List ResourceId × List ResourceHandle}, declared.length = fields.length →
        ((fields.zip declared).forM fun p => validateValueAgainstTy m t n p.1 (some p.2)).run s =
          .ok (⟨⟩, s') →
        (planDropFields m (planDrop m t n) fields declared).run st = .ok (⟨⟩, st') →
        st'.2 = st.2 ++ fields.reverse.flatMap (destructionOrder t n) := by
      intro fields declared s s' st st' hlen hfields hplan
      have hall := (validated_parts hfields).1
      have horder := @planParts_order m st st' _ _ (destructionOrder t n) (fun p hp hskip => by
        obtain ⟨u, u', hvalid⟩ := hall p (List.mem_reverse.mp hp)
        rcases hskip with hplain | htomb
        · exact destructionOrder_of_handles
            (handles_of_not_affine honce hitems hvalid (by omega) hplain)
        · exact destructionOrder_tombstone htomb) (fun p hp st st' hrun => by
        obtain ⟨u, u', hvalid⟩ := hall p (List.mem_reverse.mp hp)
        exact ih hvalid (by omega) hrun) hplan
      have hmap : fields.reverse = (fields.zip declared).reverse.map Prod.fst := by
        rw [List.map_reverse, zip_fst hlen]
      rw [horder, hmap, List.flatMap_map]
    cases v with
    | resource handle =>
      obtain ⟨-, r, declared, hr, -, -, htys, hlen, hfields⟩ := validate_resource.mp hvalid
      obtain ⟨-, -, r', declared', u, hr', htys', -, hu, rfl⟩ := planDrop_resource.mp h
      have hrecord := (observe_eq_ok.mp hr').1
      rw [hr] at hrecord
      cases hrecord
      rw [htys] at htys'
      cases htys'
      have horder := hparts hlen hfields hu
      simp only [destructionOrder, hr]
      rw [horder, List.append_assoc]
    | record item typeArgs fields =>
      obtain ⟨-, declared, -, -, htys, hlen, hfields⟩ := validate_record.mp hvalid
      obtain ⟨declared', htys', -, h⟩ := planDrop_record.mp h
      rw [htys] at htys'
      cases htys'
      exact hparts hlen hfields h
    | variant item typeArgs case payload =>
      obtain ⟨-, declared, -, htys, hlen, hfields⟩ := validate_variant.mp hvalid
      obtain ⟨declared', htys', -, h⟩ := planDrop_variant.mp h
      rw [htys] at htys'
      cases htys'
      exact hparts hlen hfields h
    | _ => exact absurd h run_throw_ne_ok

theorem droppable_of_planDrop (h : (planDrop m t n v).run st = .ok (⟨⟩, st')) :
    v.isDroppable = true := by
  cases n with
  | zero => exact absurd h run_throw_ne_ok
  | succ n =>
    cases v with
    | resource | record | «variant» => rfl
    | _ => exact absurd h run_throw_ne_ok

/-- Every handle a value leads to is its owner's, and its resource is alive. -/
def OwnsAlive (t : ResourceTable) (v : Value) : Prop :=
  ∀ k, Touches t v k → k.role = .owner ∧ ∃ r, t.observe k = .ok r

/-- What a destruction of a value comes to. -/
structure Destroyed (m : Module) (t : ResourceTable) (v : Value) (order : List ResourceHandle) :
    Prop where
  run : dropValue m v t = (order.forM dropResource) t
  effect : dropValue m v t = .ok ⟨⟩ (order.foldl (fun t k => t.setStatus k.id .dropped) t)
  once : (order.map (·.id)).Nodup
  alive : ∀ k ∈ order, k.role = .owner ∧ ∃ r, t.observe k = .ok r
  exact : ∀ id, id ∈ order.map (·.id) ↔ Reaches t v id
  owned : ∀ h ∈ order, ∀ r, t.record h = .ok r → ∀ f ∈ r.fields, ∀ k, Touches t f k →
    [k, h].Sublist order

/-- A well-formed value that no lease holds is destroyed in its destruction order, each
resource it owns once, if it is an aggregate or a resource and everything it leads to is
owned and alive; otherwise the destruction is refused and the table left as it was. -/
theorem dropValue_destroys (honce : DeclaredOnce m) (hitems : ResourcesDeclared m t)
    (hgraph : validateOwnedGraph m t v = .ok ⟨⟩)
    (hfree : ∀ id, Reaches t v id → t.activeLeaseHolding id = none) :
    (v.isDroppable = true ∧ OwnsAlive t v →
      Destroyed m t v (destructionOrder t Limits.maxGenericDepth v)) ∧
    (¬ (v.isDroppable = true ∧ OwnsAlive t v) → ∃ e, dropValue m v t = .error e t) := by
  obtain ⟨s, hvalid⟩ := validateOwnedGraph_iff.mp hgraph
  have hlease := (rejectLeasedValue_eq_ok hgraph "dropped").mpr hfree
  have hplanned : ∀ {st'}, (planDrop m t Limits.maxGenericDepth v).run ([], []) = .ok (⟨⟩, st') →
      st'.2 = destructionOrder t Limits.maxGenericDepth v ∧
        ((destructionOrder t Limits.maxGenericDepth v).map (·.id)).Nodup ∧
        ∀ k ∈ destructionOrder t Limits.maxGenericDepth v,
          k.role = .owner ∧ ∃ r, t.observe k = .ok r := by
    intro st' hplan
    have horder := planDrop_order honce hitems hvalid (Nat.le_refl _) hplan
    obtain ⟨added, hadded, hnodup, -, hprop⟩ := planDrop_planned hplan
    obtain rfl : added = destructionOrder t Limits.maxGenericDepth v :=
      List.append_cancel_left (hadded.symm.trans horder)
    exact ⟨by simpa using horder, hnodup, fun k hk => (hprop k hk).2.2⟩
  constructor
  · rintro ⟨hdrop, hall⟩
    obtain ⟨⟨seen, plan⟩, hplan, -⟩ := planDrop_ok ([], []) hvalid hall hdrop (by simp)
    obtain ⟨horder, hnodup, halive⟩ := hplanned hplan
    obtain rfl : plan = destructionOrder t Limits.maxGenericDepth v := horder
    have hrun : dropValue m v t =
        ((destructionOrder t Limits.maxGenericDepth v).forM dropResource) t := by
      unfold dropValue
      rw [EStateM.bind_of_ok (EStateM.get_apply t), hgraph,
        EStateM.bind_of_ok (EStateM.liftExcept_ok _ t), EStateM.bind_of_ok (EStateM.get_apply t),
        hlease, EStateM.bind_of_ok (EStateM.liftExcept_ok _ t),
        EStateM.bind_of_ok (EStateM.get_apply t), hplan,
        EStateM.bind_of_ok (EStateM.liftExcept_ok _ t)]
    obtain ⟨⟨⟩, t', ht'⟩ := forM_dropResource_sure hnodup halive
    refine ⟨hrun, ?_, hnodup, halive, fun id => ?_, fun h hh r hr f hf k hk =>
      destructionOrder_owned hvalid hh hr hf hk⟩
    · rw [hrun, ht', forM_dropResource_eq_ok ht']
    · rw [List.mem_map]
      constructor
      · rintro ⟨k, hk, rfl⟩
        obtain ⟨r, hr⟩ := (halive k hk).2
        exact reaches_of_touches ((mem_destructionOrder hvalid).mp hk) (observe_eq_ok.mp hr).1
      · intro hid
        obtain ⟨k, hk, hkid⟩ := touches_of_reaches hid
        exact ⟨k, (mem_destructionOrder hvalid).mpr hk, hkid⟩
  · intro hno
    cases hresult : dropValue m v t with
    | error e t' => exact ⟨e, by rw [dropValue_atomic v t e t' hresult]⟩
    | ok u t' =>
      obtain ⟨seen, plan, -, -, hplan, -⟩ := dropValue_eq_ok hresult
      obtain ⟨-, -, halive⟩ := hplanned hplan
      exact absurd ⟨droppable_of_planDrop hplan, fun k hk =>
        halive k ((mem_destructionOrder hvalid).mpr hk)⟩ hno

end Plan

/-! ### A pair of files -/

/-- A module with a resource and a record of two of them. -/
def pairModule : Module where
  records := [(⟨0⟩, ⟨⟨0⟩, [], [(⟨0⟩, .i64)], true⟩),
    (⟨1⟩, ⟨⟨1⟩, [], [(⟨0⟩, .named ⟨0⟩), (⟨1⟩, .named ⟨0⟩)], false⟩)]

def pairTable : ResourceTable where
  records := [⟨⟨0⟩, 0, .alive, [.int 3]⟩, ⟨⟨0⟩, 0, .alive, [.int 4]⟩]

/-- Two files, the second one held in a role. -/
def filePair (role : RuntimeOwnershipRole) : Value :=
  .record ⟨1⟩ [] [.resource ⟨⟨0⟩, 0, .owner, none⟩, .resource ⟨⟨1⟩, 0, role, none⟩]

theorem pairModule_declaredOnce : DeclaredOnce pairModule := by
  intro item h
  cases h

theorem pairTable_declared : ResourcesDeclared pairModule pairTable := by
  intro r hr
  simp only [pairTable, List.mem_cons, List.not_mem_nil, or_false] at hr
  rcases hr with rfl | rfl <;> rfl

theorem pairTable_free (v : Value) (id : ResourceId) (_ : Reaches pairTable v id) :
    pairTable.activeLeaseHolding id = none := rfl

/-- Both files are destroyed, the second one first. -/
theorem dropValue_destroys_pair : Destroyed pairModule pairTable (filePair .owner)
    [⟨⟨1⟩, 0, .owner, none⟩, ⟨⟨0⟩, 0, .owner, none⟩] := by
  have hown : OwnsAlive pairTable (filePair .owner) := by
    intro k hk
    have hvalid : (validateValueAgainstTy pairModule pairTable Limits.maxGenericDepth
        (filePair .owner) none).run [] = .ok (⟨⟩, [⟨0⟩, ⟨1⟩]) := rfl
    have hmem := (mem_destructionOrder hvalid).mpr hk
    have horder : destructionOrder pairTable Limits.maxGenericDepth (filePair .owner) =
        [⟨⟨1⟩, 0, .owner, none⟩, ⟨⟨0⟩, 0, .owner, none⟩] := rfl
    simp only [horder, List.mem_cons, List.not_mem_nil, or_false] at hmem
    rcases hmem with rfl | rfl
    · exact ⟨rfl, _, rfl⟩
    · exact ⟨rfl, _, rfl⟩
  exact (dropValue_destroys pairModule_declaredOnce pairTable_declared (v := filePair .owner) rfl
    (pairTable_free _)).1 ⟨rfl, hown⟩

/-- A pair that holds one file through a view is well formed, and its destruction is refused:
the file it does own stays alive. -/
theorem observed_pair_kept :
    validateOwnedGraph pairModule pairTable (filePair .observer) = .ok ⟨⟩ ∧
    (∀ id, Reaches pairTable (filePair .observer) id → pairTable.activeLeaseHolding id = none) ∧
    Reaches pairTable (filePair .observer) ⟨0⟩ ∧
    dropValue pairModule (filePair .observer) pairTable = .error
      (invalid "cannot drop a resource through a merely-observing resource handle") pairTable := by
  refine ⟨rfl, pairTable_free _, ?_, rfl⟩
  exact .handle (h := ⟨⟨0⟩, 0, .owner, none⟩) (by simp [filePair, mem_handles_record]) rfl

end Napitia.Interpreter
