import Mathlib.Data.List.Nodup
import Napitia.Lower.Affine
import Napitia.Lower.Claims
import Napitia.Lower.Execution

/-!
# The prologue of an arm, run

Before its body an arm takes the shells it matched apart and destroys what it
left unclaimed. What it takes are parts of the scrutinee, so nothing of this is
refused but for a NaN that has to leave a shell: the interpreter asks that the
value handed on equals the one the shell holds, and a NaN equals nothing.
-/
namespace Napitia.Lower
open Nir Typeck Interpreter

/-! ### What a row takes are parts of the value -/

/-- A position of a value that the frame owns. -/
structure Position.Owned (L : Lowering) (m : Module) (t : ResourceTable) (frame : Subst)
    (pos : Position) : Prop where
  runs : L.RunsAs t frame pos.value pos.ty
  owned : OwnedValue m t pos.value

/-- What is known of the parts of the positions that a row takes. -/
structure Take.Parts (m : Module) (t : ResourceTable) (frame : Subst) (values : Values)
    (positions : List Position) (T : Take) : Prop where
  shells : ∀ d ∈ T.decomposed, ∃ typeArgs payload,
    values.lookup d.1 = some (.variant d.2.1 typeArgs d.2.2 payload) ∧
      OwnedValue m t (.variant d.2.1 typeArgs d.2.2 payload)
  own : ∀ p ∈ T.own, p.2.value.isTombstone = false
  loose : ∀ o ∈ T.discarded, ∃ u, values.lookup o.value = some u ∧ Fits t frame u o.ty ∧
    OwnedValue m t u ∧ ∃ pos ∈ positions, ∀ id, Reaches t u id → Reaches t pos.value id
  apart : T.discarded.Pairwise fun a b => ∀ u w, values.lookup a.value = some u →
    values.lookup b.value = some w → Apart t u w

section
variable {L : Lowering} {m : Module} {t : ResourceTable} {frame : Subst} {values : Values}
  {sources : AList (fun _ : ValueId => PayloadSource)} {N : ℕ} {slot : PatternSlot}
  {slots : List PatternSlot} {occ : Occurrence} {occs : List Occurrence} {pos : Position}
  {positions within : List Position} {T T' : Take}

theorem Position.Owned.payload {item : ItemId} {typeArgs : List Ty} {case : ℕ}
    {payload : List Value} (h : pos.Owned L m t frame) (hty : (L.variantOf pos.ty).isSome)
    (hv : pos.value = .variant item typeArgs case payload) :
    (∀ p ∈ L.payloadPositions pos.ty case payload, p.Owned L m t frame) ∧
      (L.payloadPositions pos.ty case payload).Pairwise (fun a b => Apart t a.value b.value) ∧
      ∀ p ∈ L.payloadPositions pos.ty case payload, ∀ id, Reaches t p.value id →
        Reaches t pos.value id := by
  have hruns := h.runs
  have howned := h.owned
  rw [hv] at hruns howned
  have hvalues := map_value_payloadPositions L pos.ty case payload
  have hmem : ∀ p ∈ L.payloadPositions pos.ty case payload, p.value ∈ payload := by
    intro p hp
    rw [← hvalues]
    exact List.mem_map_of_mem hp
  refine ⟨fun p hp => ⟨hruns.payload hty p hp, howned.payload.1 _ (hmem p hp)⟩, ?_, ?_⟩
  · have hpairwise := howned.payload.2
    rw [← hvalues] at hpairwise
    exact List.pairwise_map.mp hpairwise
  · intro p hp id hid
    rw [hv]
    exact reaches_variant.mpr ⟨p.value, hmem p hp, hid⟩

theorem owned_unpacked {item : ItemId} {typeArgs : List Ty} {case : ℕ} {payload : List Value}
    (howned : ∀ p ∈ pos :: positions, p.Owned L m t frame)
    (hapart : (pos :: positions).Pairwise fun a b => Apart t a.value b.value)
    (hty : (L.variantOf pos.ty).isSome) (hv : pos.value = .variant item typeArgs case payload) :
    (∀ p ∈ L.payloadPositions pos.ty case payload ++ positions, p.Owned L m t frame) ∧
      (L.payloadPositions pos.ty case payload ++ positions).Pairwise
        fun a b => Apart t a.value b.value := by
  obtain ⟨hin, hinApart, hreach⟩ := (howned pos (by simp)).payload hty hv
  refine ⟨fun p hp => ?_, List.pairwise_append.mpr ⟨hinApart, hapart.tail, fun a ha b hb id hid => ?_⟩⟩
  · rcases List.mem_append.mp hp with hp | hp
    · exact hin p hp
    · exact howned p (by simp [hp])
  · exact (List.pairwise_cons.mp hapart).1 b hb id (hreach a ha id hid)

theorem Take.Parts.of_payload (within : List Position)
    (h : T.Parts m t frame values (within ++ positions))
    (hwithin : ∀ p ∈ within, ∀ id, Reaches t p.value id → Reaches t pos.value id) :
    T.Parts m t frame values (pos :: positions) := by
  refine ⟨h.shells, h.own, fun o ho => ?_, h.apart⟩
  obtain ⟨u, hu, hfits, howned, p, hp, hreach⟩ := h.loose o ho
  refine ⟨u, hu, hfits, howned, ?_⟩
  rcases List.mem_append.mp hp with hp | hp
  · exact ⟨pos, by simp, fun id hid => hwithin p hp id (hreach id hid)⟩
  · exact ⟨p, by simp [hp], hreach⟩

theorem Take.Parts.skip (h : T.Parts m t frame values positions) :
    T.Parts m t frame values (pos :: positions) :=
  Take.Parts.of_payload [] h (by simp)

theorem Take.Parts.own_cons (slot : PatternSlot) (occ : Occurrence)
    (h : T.Parts m t frame values positions)
    (hpos : pos.Owned L m t frame) (bindings : List (LocalId × ValueId)) :
    Take.Parts m t frame values positions
      { T with bindings := bindings, own := slot.owns occ pos ++ T.own } := by
  refine ⟨h.shells, fun p hp => ?_, h.loose, h.apart⟩
  rcases List.mem_append.mp hp with hp | hp
  · unfold PatternSlot.owns at hp
    split at hp
    · obtain rfl := List.mem_singleton.mp hp
      exact hpos.runs.fits.live
    · cases hp
  · exact h.own p hp

theorem Takes.parts (h : Takes L values sources N slots occs positions T)
    (hstands : List.Forall₂ (fun o p => o.ty = p.ty ∧ values.lookup o.value = some p.value) occs
      positions)
    (howned : ∀ p ∈ positions, p.Owned L m t frame)
    (hapart : positions.Pairwise fun a b => Apart t a.value b.value) :
    T.Parts m t frame values positions := by
  induction h with
  | done => exact ⟨by simp, by simp, by simp, .nil⟩
  | tested _ _ ih | owned _ ih =>
    cases hstands with
    | cons _ hrest =>
      exact (ih hrest (fun p hp => howned p (by simp [hp])) hapart.tail).skip
  | bound _ _ ih =>
    cases hstands with
    | cons _ hrest =>
      have hT := ih hrest (fun p hp => howned p (by simp [hp])) hapart.tail
      exact (hT.own_cons _ _ (howned _ (by simp)) _).skip
  | @passed _ slot _ occ _ pos positions T _ _ _ ih =>
    cases hstands with
    | cons hone hrest =>
      have hpos := howned pos (by simp)
      have hT := (ih hrest (fun p hp => howned p (by simp [hp])) hapart.tail)
      have hown := hT.own_cons slot occ hpos T.bindings
      refine ⟨hT.shells, hown.own, fun o ho => ?_, List.pairwise_cons.mpr ⟨?_, hT.apart⟩⟩
      · rcases List.mem_cons.mp ho with rfl | ho
        · refine ⟨pos.value, hone.2, ?_, hpos.owned, pos, by simp, fun _ hid => hid⟩
          rw [hone.1]
          exact hpos.runs.fits
        · exact hT.skip.loose o ho
      · intro o ho u w hu hw id hid hid'
        obtain ⟨w', hw', -, -, p, hp, hreach⟩ := hT.loose o ho
        rw [hone.2] at hu
        rw [hw'] at hw
        cases hu
        cases hw
        exact (List.pairwise_cons.mp hapart).1 p hp id hid (hreach id hid')
  | @opened _ _ slot item _ case _ payload _ _ occ _ pos positions T _ _ hty hv hu _ ih =>
    cases hstands with
    | cons hone hrest =>
      have hpos := howned pos (by simp)
      obtain ⟨howned', hapart'⟩ := owned_unpacked howned hapart hty hv
      have hreach := (hpos.payload hty hv).2.2
      have hT := ih (List.rel_append hu.stands hrest) howned' hapart'
      have hown := hT.own_cons slot occ hpos T.bindings
      refine ⟨fun d hd => ?_, hown.own, (Take.Parts.of_payload _ hT hreach).loose, hT.apart⟩
      rcases List.mem_cons.mp hd with rfl | hd
      · rw [hone.2, hv]
        have howns := hpos.owned
        rw [hv] at howns
        exact ⟨_, _, rfl, howns⟩
      · exact hT.shells d hd
  | @split _ _ slot item _ case payload _ _ occ _ pos positions T _ _ hty hv hu _ ih =>
    cases hstands with
    | cons hone hrest =>
      obtain ⟨howned', hapart'⟩ := owned_unpacked howned hapart hty hv
      have hT := ih (List.rel_append hu.stands hrest) howned' hapart'
      exact Take.Parts.of_payload _ hT ((howned pos (by simp)).payload hty hv).2.2

end

/-! ### The claims of a shell -/

section
variable {sources : AList (fun _ : ValueId => PayloadSource)} {r : MatrixRow} {shell : ValueId}
  {item : ItemId} {case : ℕ}

/-- The values a row claims. -/
def MatrixRow.claimed (r : MatrixRow) : List ValueId :=
  r.bindings.map (·.2) ++ r.discarded.map (·.value) ++ r.decomposed.map (·.1)

theorem mem_claims {c : ℕ × ValueId} : c ∈ r.claims sources shell item case ↔
    c.2 ∈ r.claimed ∧ sources.lookup c.2 = some ⟨shell, item, case, c.1⟩ := by
  unfold MatrixRow.claims
  rw [List.mem_dedup, List.mem_insertionSort, List.mem_filterMap]
  constructor
  · rintro ⟨id, hid, hc⟩
    obtain ⟨source, hsource, hc⟩ := Option.bind_eq_some_iff.mp hc
    obtain ⟨⟨rfl, rfl, rfl⟩, rfl⟩ : (source.base = shell ∧ source.variant = item ∧
        source.case = case) ∧ (source.index, id) = c := by simpa using hc
    exact ⟨hid, hsource⟩
  · rintro ⟨hid, hsource⟩
    exact ⟨c.2, hid, Option.bind_eq_some_iff.mpr ⟨_, hsource, by simp⟩⟩

theorem nodup_claims (h : r.claimed.Pairwise fun a b => a ≠ b ∧
      ∀ source, sources.lookup a = some source → sources.lookup b ≠ some source) :
    ((r.claims sources shell item case).map (·.1)).Nodup := by
  refine List.Nodup.map_on (fun a ha b hb hab => ?_) (List.nodup_dedup _)
  obtain ⟨hamem, hasource⟩ := mem_claims.mp ha
  obtain ⟨hbmem, hbsource⟩ := mem_claims.mp hb
  refine Prod.ext hab ?_
  by_contra hne
  rw [hab] at hasource
  have hsymm : Std.Symm fun a b : ValueId => a ≠ b ∧
      ∀ source, sources.lookup a = some source → sources.lookup b ≠ some source :=
    ⟨fun a b hab => ⟨hab.1.symm, fun source hb ha => hab.2 source ha hb⟩⟩
  exact ((h.forall hamem hbmem hne).2 _ hasource) hbsource

end

/-! ### Taking the shells apart -/

/-- No value claimed holds a NaN. -/
def Clean (s : FrameState) (claims : List (ℕ × ValueId)) : Prop :=
  ∀ c ∈ claims, ∀ u, s.values.lookup c.2 = some u → u.hasNan = false

/-- Each value claimed is the live one at the position it is claimed from. -/
def Claimable (values : Values) (payload : List Value) (claims : List (ℕ × ValueId)) : Prop :=
  ∀ c ∈ claims, ∃ u, payload[c.1]? = some u ∧ u.isTombstone = false ∧ values.lookup c.2 = some u

/-- A shell can be taken apart but for what its claims hold. -/
structure Ready (m : Module) (loadOrigin : LoadOrigin) (s : FrameState)
    (d : ValueId × ItemId × ℕ) (claims : List (ℕ × ValueId)) (typeArgs : List Ty)
    (payload : List Value) : Prop where
  shell : s.values.lookup (canonicalRoot loadOrigin d.1) =
    some (.variant d.2.1 typeArgs d.2.2 payload)
  owned : OwnedValue m s.resources (.variant d.2.1 typeArgs d.2.2 payload)
  once : (claims.map (·.1)).Nodup
  claims : Claimable s.values payload claims

section
variable {m : Module} {loadOrigin : LoadOrigin} {s s' : FrameState} {d : ValueId × ItemId × ℕ}
  {claims : List (ℕ × ValueId)} {typeArgs : List Ty} {payload : List Value}

theorem validateClaims_ok_iff (seen : List ℕ) (h : Claimable s.values payload claims)
    (honce : (claims.map (·.1)).Nodup) (hseen : ∀ c ∈ claims, c.1 ∉ seen) :
    validateClaims s.values payload seen claims = .ok ⟨⟩ ↔ Clean s claims := by
  induction claims generalizing seen with
  | nil => exact ⟨fun _ => by simp [Clean], fun _ => rfl⟩
  | cons c claims ih =>
    obtain ⟨u, hu, hlive, hlookup⟩ := h c (by simp)
    have honce' := List.nodup_cons.mp honce
    have hrest := ih (seen ++ [c.1]) (fun c hc => h c (by simp [hc])) honce'.2 (by
      intro c' hc' hmem
      rcases List.mem_append.mp hmem with hmem | hmem
      · exact hseen c' (by simp [hc']) hmem
      · exact honce'.1 (List.mem_map.mpr ⟨c', hc', List.mem_singleton.mp hmem⟩))
    have hone : validateClaim s.values payload seen c = .ok ⟨⟩ ↔ u.hasNan = false := by
      have heqv := Value.eqv_self u
      unfold validateClaim
      simp only [hlookup, hu, hlive, Option.isSome_some, Bool.not_true, Bool.false_eq_true, if_false,
        hseen c (by simp), heqv, Bool.not_not]
      cases u.hasNan with
      | true => exact ⟨fun hok => (by cases hok), fun hok => (by cases hok)⟩
      | false => exact ⟨fun _ => rfl, fun _ => rfl⟩
    unfold validateClaims
    rw [Except.bind_eq_ok]
    constructor
    · rintro ⟨⟨⟩, hc, hok⟩ c' hc' w hw
      rcases List.mem_cons.mp hc' with rfl | hc'
      · rw [hlookup] at hw
        cases hw
        exact hone.mp hc
      · exact hrest.mp hok c' hc' w hw
    · intro hclean
      exact ⟨⟨⟩, hone.mpr (hclean c (by simp) u hlookup),
        hrest.mpr fun c' hc' => hclean c' (by simp [hc'])⟩

/-- A well-formed shell whose live positions are claimed is taken apart exactly when
nothing it holds is on loan and no NaN has to leave it. -/
theorem decomposeVariant_accepts_iff
    (hshell : s.values.lookup (canonicalRoot loadOrigin d.1) =
      some (.variant d.2.1 typeArgs d.2.2 payload))
    (hgraph : validateOwnedGraph m s.resources (.variant d.2.1 typeArgs d.2.2 payload) = .ok ⟨⟩)
    (honce : (claims.map (·.1)).Nodup) (hclaims : Claimable s.values payload claims) :
    (∃ s', decomposeVariant m loadOrigin d.1 d.2.1 d.2.2 claims s = .ok ⟨⟩ s') ↔
      (∀ slot ∈ payload, rejectLeasedValue s.resources slot "decomposed out of its variant" =
        .ok ⟨⟩) ∧ Clean s claims := by
  have hvalid := validateClaims_ok_iff [] hclaims honce (by simp)
  have hread : s.values.read (canonicalRoot loadOrigin d.1) =
      .ok (.variant d.2.1 typeArgs d.2.2 payload) := by
    simp only [Values.read, hshell]
    rfl
  constructor
  · rintro ⟨s', hok⟩
    obtain ⟨typeArgs', payload', hroot, hlease, -, hfound, -⟩ := decomposeVariant_eq_ok hok
    rw [hread] at hroot
    cases hroot
    exact ⟨hlease, hvalid.mp hfound⟩
  · rintro ⟨hlease, hclean⟩
    refine ⟨s.insert (canonicalRoot loadOrigin d.1) (.variant d.2.1 typeArgs d.2.2
      (claims.foldl (fun slots claim => slots.set claim.1 .moved) payload)), ?_⟩
    unfold decomposeVariant
    refine EStateM.get_bind_eq_ok.mpr (EStateM.ask_bind_eq_ok.mpr ⟨_, hread, ?_⟩)
    refine EStateM.guard_eq_ok.mpr ⟨by simp, EStateM.guard_eq_ok.mpr ⟨by simp, ?_⟩⟩
    refine EStateM.get_bind_eq_ok.mpr (EStateM.ask_bind_eq_ok.mpr
      ⟨⟨⟩, Except.forM_eq_ok.mpr hlease, ?_⟩)
    refine EStateM.ask_bind_eq_ok.mpr ⟨⟨⟩, hgraph, ?_⟩
    exact EStateM.get_bind_eq_ok.mpr (EStateM.ask_bind_eq_ok.mpr ⟨⟨⟩, hvalid.mpr hclean, rfl⟩)

theorem Ready.decompose (h : Ready m loadOrigin s d claims typeArgs payload) :
    (∃ s', decomposeVariant m loadOrigin d.1 d.2.1 d.2.2 claims s = .ok ⟨⟩ s') ↔
      Clean s claims :=
  (decomposeVariant_accepts_iff h.shell h.owned.graph h.once h.claims).trans
    (and_iff_right fun u hu => (h.owned.payload.1 u hu).rejectLeased _)

theorem decompose_frame (h : decomposeVariant m loadOrigin d.1 d.2.1 d.2.2 claims s = .ok ⟨⟩ s') :
    s'.interpreter = s.interpreter ∧ s'.activeLeases = s.activeLeases ∧
      ∀ {id}, id ≠ canonicalRoot loadOrigin d.1 → s'.values.lookup id = s.values.lookup id := by
  obtain ⟨_, _, -, -, -, -, rfl⟩ := decomposeVariant_eq_ok h
  exact ⟨rfl, rfl, fun hid => AList.lookup_insert_ne hid⟩

theorem Ready.of_frame {root : ValueId} (h : Ready m loadOrigin s d claims typeArgs payload)
    (hinterpreter : s'.interpreter = s.interpreter)
    (hvalues : ∀ {id}, id ≠ root → s'.values.lookup id = s.values.lookup id)
    (hshell : canonicalRoot loadOrigin d.1 ≠ root) (hclaims : ∀ c ∈ claims, c.2 ≠ root) :
    Ready m loadOrigin s' d claims typeArgs payload := by
  have hresources : s'.resources = s.resources := congrArg InterpreterState.resources hinterpreter
  refine ⟨(hvalues hshell).trans h.shell, hresources ▸ h.owned, h.once, fun c hc => ?_⟩
  obtain ⟨u, hu, hlive, hlookup⟩ := h.claims c hc
  exact ⟨u, hu, hlive, (hvalues (hclaims c hc)).trans hlookup⟩

/-- Shells are taken apart one after the other exactly when no NaN has to leave
any of them, each before the shells it holds. -/
theorem decompositions {ds : List (ValueId × ItemId × ℕ)}
    {claims : ValueId × ItemId × ℕ → List (ℕ × ValueId)}
    (hready : ∀ d ∈ ds, ∃ typeArgs payload, Ready m loadOrigin s d (claims d) typeArgs payload)
    (hordered : ds.Pairwise fun a b =>
      canonicalRoot loadOrigin b.1 ≠ canonicalRoot loadOrigin a.1 ∧
        ∀ c ∈ claims b, c.2 ≠ canonicalRoot loadOrigin a.1) :
    (∃ s', ds.forM (fun d => decomposeVariant m loadOrigin d.1 d.2.1 d.2.2 (claims d)) s =
      .ok ⟨⟩ s') ↔ ∀ d ∈ ds, Clean s (claims d) := by
  induction ds generalizing s with
  | nil => exact ⟨fun _ => by simp, fun _ => ⟨s, rfl⟩⟩
  | cons d ds ih =>
    obtain ⟨typeArgs, payload, hd⟩ := hready d (by simp)
    obtain ⟨hlater, htail⟩ := List.pairwise_cons.mp hordered
    have hrest : ∀ {u : FrameState},
        decomposeVariant m loadOrigin d.1 d.2.1 d.2.2 (claims d) s = .ok ⟨⟩ u →
        ((∃ s', ds.forM (fun d => decomposeVariant m loadOrigin d.1 d.2.1 d.2.2 (claims d)) u =
          .ok ⟨⟩ s') ↔ ∀ d ∈ ds, Clean s (claims d)) := by
      intro u hu
      obtain ⟨hinterpreter, -, hvalues⟩ := decompose_frame hu
      rw [ih (fun e he => ?_) htail]
      · refine forall₂_congr fun e he => forall₂_congr fun c hc => ?_
        rw [hvalues ((hlater e he).2 c hc)]
      · obtain ⟨typeArgs', payload', hready'⟩ := hready e (by simp [he])
        exact ⟨typeArgs', payload', hready'.of_frame hinterpreter hvalues (hlater e he).1
          (hlater e he).2⟩
    rw [List.forall_mem_cons, ← hd.decompose]
    constructor
    · rintro ⟨s', hok⟩
      obtain ⟨⟨⟩, u, hu, hok⟩ := EStateM.bind_eq_ok.mp hok
      exact ⟨⟨u, hu⟩, (hrest hu).mp ⟨s', hok⟩⟩
    · rintro ⟨⟨u, hu⟩, hclean⟩
      obtain ⟨s', hok⟩ := (hrest hu).mpr hclean
      exact ⟨s', EStateM.bind_eq_ok.mpr ⟨⟨⟩, u, hu, hok⟩⟩

theorem decompositions_frame {ds : List (ValueId × ItemId × ℕ)}
    {claims : ValueId × ItemId × ℕ → List (ℕ × ValueId)}
    (h : ds.forM (fun d => decomposeVariant m loadOrigin d.1 d.2.1 d.2.2 (claims d)) s =
      .ok ⟨⟩ s') :
    s'.interpreter = s.interpreter ∧ s'.activeLeases = s.activeLeases ∧
      ∀ {id}, (∀ d ∈ ds, id ≠ canonicalRoot loadOrigin d.1) →
        s'.values.lookup id = s.values.lookup id := by
  induction ds generalizing s with
  | nil =>
    obtain ⟨-, rfl⟩ := EStateM.pure_eq_ok.mp h
    exact ⟨rfl, rfl, fun _ => rfl⟩
  | cons d ds ih =>
    obtain ⟨⟨⟩, u, hu, hrest⟩ := EStateM.bind_eq_ok.mp h
    obtain ⟨hinterpreter, hleases, hvalues⟩ := decompose_frame hu
    obtain ⟨hinterpreter', hleases', hvalues'⟩ := ih hrest
    refine ⟨hinterpreter'.trans hinterpreter, hleases'.trans hleases, fun hid => ?_⟩
    exact (hvalues' fun e he => hid e (by simp [he])).trans (hvalues (hid d (by simp)))

end

/-! ### Destroying the rest -/

section
variable {L : Lowering} {m : Module} {t t' : ResourceTable} {frame : Subst} {s : FrameState}

theorem argumentMatchesDeclared_alike (h : Alike t t') {v : Value} {ty : Ty}
    (hv : argumentMatchesDeclared t v ty = .ok true) :
    argumentMatchesDeclared t' v ty = .ok true := by
  cases v with
  | resource handle =>
    cases ty with
    | named item =>
      obtain ⟨r, hr, hitem⟩ := Except.bind_eq_ok.mp hv
      obtain ⟨r', hr', hsame, -⟩ := h.record hr
      refine Except.bind_eq_ok.mpr ⟨r', hr', ?_⟩
      rw [hsame]
      exact hitem
    | applied item args =>
      obtain ⟨r, hr, hitem⟩ := Except.bind_eq_ok.mp hv
      obtain ⟨r', hr', hsame, -⟩ := h.record hr
      refine Except.bind_eq_ok.mpr ⟨r', hr', ?_⟩
      rw [hsame]
      exact hitem
    | _ => exact hv
  | _ => cases ty <;> exact hv

theorem Fits.of_spares {u v : Value} {ty : Ty} (h : Fits t frame u ty) (hs : Spares t t' v) :
    Fits t' frame u ty :=
  ⟨h.executable, argumentMatchesDeclared_alike hs.alike h.declared, h.live⟩

/-- An occurrence left to be destroyed. -/
structure Loose (L : Lowering) (m : Module) (frame : Subst) (s : FrameState) (o : Occurrence)
    (u : Value) : Prop where
  value : s.values.lookup o.value = some u
  fits : Fits s.resources frame u o.ty
  owned : OwnedValue m s.resources u
  affine : L.isAffine o.ty = true

theorem Loose.drop (hm : L.Describes m) {o : Occurrence} {u : Value}
    (h : Loose L m frame s o u) :
    ∃ t', execDrop m o.value s = .ok ⟨⟩ { s.withResources t' with
      values := s.values.erase o.value } ∧ Spares s.resources t' u := by
  obtain ⟨t', hdrop, hspares⟩ := dropAffine_ok hm h.affine h.fits h.owned
  have hread : s.values.read o.value = .ok u := by
    simp only [Values.read, h.value]
    rfl
  refine ⟨t', ?_, hspares⟩
  unfold execDrop
  refine EStateM.get_bind_eq_ok.mpr (EStateM.ask_bind_eq_ok.mpr ⟨u, hread, ?_⟩)
  exact EStateM.bind_eq_ok.mpr ⟨⟨⟩, _, hdrop, rfl⟩

/-- Values apart from each other are destroyed one by one. -/
theorem drops (hm : L.Describes m) (frame : Subst) (os : List Occurrence)
    (hloose : ∀ o ∈ os, ∃ u, Loose L m frame s o u)
    (hapart : os.Pairwise fun a b => a.value ≠ b.value ∧ ∀ u w, s.values.lookup a.value = some u →
      s.values.lookup b.value = some w → Apart s.resources u w) :
    ∃ s', os.forM (fun o => execDrop m o.value) s = .ok ⟨⟩ s' ∧
      ∀ {id}, (∀ o ∈ os, id ≠ o.value) → s'.values.lookup id = s.values.lookup id := by
  induction os generalizing s with
  | nil => exact ⟨s, rfl, fun _ => rfl⟩
  | cons o os ih =>
    obtain ⟨u, hu⟩ := hloose o (by simp)
    obtain ⟨hhead, htail⟩ := List.pairwise_cons.mp hapart
    obtain ⟨t', hdrop, hspares⟩ := hu.drop hm
    have hkept : ∀ {id : ValueId}, id ≠ o.value →
        (s.values.erase o.value).lookup id = s.values.lookup id :=
      fun hid => AList.lookup_erase_ne hid
    obtain ⟨s', hok, hframe⟩ := ih (s := { s.withResources t' with values := s.values.erase o.value })
      (fun a ha => by
        obtain ⟨w, hw⟩ := hloose a (by simp [ha])
        obtain ⟨hne, hdisjoint⟩ := hhead a ha
        exact ⟨w, (hkept hne.symm).trans hw.value, hw.fits.of_spares hspares,
          hw.owned.of_spares (hdisjoint u w hu.value hw.value).symm hspares, hw.affine⟩)
      (htail.imp_of_mem fun {a b} ha hb hab => by
        refine ⟨hab.1, fun x y hx hy => ?_⟩
        have hx' := (hkept (hhead a ha).1.symm).symm.trans hx
        have hy' := (hkept (hhead b hb).1.symm).symm.trans hy
        exact (hab.2 x y hx' hy').of_spares hspares)
    refine ⟨s', EStateM.bind_eq_ok.mpr ⟨⟨⟩, _, hdrop, hok⟩, fun {id} hid => ?_⟩
    exact (hframe fun a ha => hid a (by simp [ha])).trans (hkept (hid o (by simp)))

end

end Napitia.Lower
