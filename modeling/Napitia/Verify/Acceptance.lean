import Napitia.Verify.Checks

/-!
# What an accepted module is

The facts later proofs read off a verifier that reports nothing: no item, block or
value is declared twice, so every table is found whichever entry wins, and what a
function raises is a declared variant without type parameters.
-/
namespace Napitia.Verify
open Nir

theorem find?_reverse_of_nodup {α β : Type} [DecidableEq β] {key : α → β} {entries : List α}
    (h : (entries.map key).Nodup) {entry : α} (hmem : entry ∈ entries) :
    entries.reverse.find? (fun e => key e = key entry) = some entry := by
  have hinj := List.inj_on_of_nodup_map h
  cases hfind : entries.reverse.find? (fun e => key e = key entry) with
  | none =>
    have hnot := List.find?_eq_none.mp hfind entry (List.mem_reverse.mpr hmem)
    exact absurd rfl (of_decide_eq_false (Bool.eq_false_iff.mpr hnot))
  | some found =>
    have hkey : key found = key entry := by simpa using List.find?_some hfind
    have hfound : found ∈ entries := List.mem_reverse.mp (List.mem_of_find?_eq_some hfind)
    rw [hinj hfound hmem hkey]

theorem checkDistinct_eq_nil {α : Type} [DecidableEq α] {code : Code} {seen items : List α}
    (h : checkDistinct code seen items = []) : items.Nodup ∧ ∀ a ∈ items, a ∉ seen := by
  induction items generalizing seen with
  | nil => exact ⟨List.nodup_nil, fun _ hmem => absurd hmem List.not_mem_nil⟩
  | cons a items ih =>
    have ⟨hhead, htail⟩ := List.append_eq_nil_iff.mp h
    have hfresh : a ∉ seen := by
      intro hmem
      rw [if_pos hmem] at hhead
      exact List.cons_ne_nil _ _ hhead
    have ⟨hnodup, hdisjoint⟩ := ih htail
    refine ⟨List.nodup_cons.mpr ⟨fun hmem => hdisjoint a hmem List.mem_cons_self, hnodup⟩, ?_⟩
    intro b hmem
    rcases List.mem_cons.mp hmem with heq | hmem
    · exact heq ▸ hfresh
    · exact fun hseen => hdisjoint b hmem (List.mem_cons_of_mem a hseen)

theorem collected_eq_find {β : Type} {entries : List (ItemId × β)}
    (h : (entries.map (·.1)).Nodup) (item : ItemId) :
    collected entries item = (entries.find? (·.1 = item)).map (·.2) := by
  unfold collected
  congr 1
  induction entries with
  | nil => rfl
  | cons entry entries ih =>
    rw [List.map_cons, List.nodup_cons] at h
    rw [List.reverse_cons, List.find?_append, ih h.2, List.find?_cons]
    by_cases hitem : entry.1 = item
    · have hnone : entries.find? (fun e => e.1 = item) = none := by
        rw [List.find?_eq_none]
        intro e he heq
        have heq' : e.1 = entry.1 := by simpa [hitem] using heq
        exact h.1 (heq' ▸ List.mem_map_of_mem he)
      simp [hnone, hitem]
    · simp [hitem]

theorem collected_of_mem {β : Type} {entries : List (ItemId × β)}
    (h : (entries.map (·.1)).Nodup) {entry : ItemId × β} (hmem : entry ∈ entries) :
    collected entries entry.1 = some entry.2 := by
  unfold collected
  rw [find?_reverse_of_nodup h hmem]
  rfl

theorem checkItems_eq_nil {before items : List (ItemId × ItemRole)}
    (h : checkItems before items = []) :
    (items.map (·.1)).Nodup ∧ ∀ p ∈ items, p.1 ∉ before.map (·.1) := by
  induction items generalizing before with
  | nil => exact ⟨List.nodup_nil, fun _ hmem => absurd hmem List.not_mem_nil⟩
  | cons p items ih =>
    obtain ⟨hhead, htail⟩ := List.append_eq_nil_iff.mp h
    obtain ⟨hduplicate, hidentity⟩ := List.append_eq_nil_iff.mp hhead
    have hfresh : p.1 ∉ before.map (·.1) := by
      intro hmem
      unfold checkItemIdentity at hidentity
      cases hfind : before.find? (·.1 = p.1) with
      | none =>
        obtain ⟨q, hq, hid⟩ := List.mem_map.mp hmem
        exact List.find?_eq_none.mp hfind q hq (by simpa using hid)
      | some q =>
        have hid : q.1 = p.1 := by simpa using List.find?_some hfind
        have hq : q ∈ before := List.mem_of_find?_eq_some hfind
        by_cases hrole : q.2 = p.2
        · have heq : q = p := Prod.ext hid hrole
          rw [if_pos (heq ▸ hq)] at hduplicate
          exact List.cons_ne_nil _ _ hduplicate
        · simp only [hfind] at hidentity
          rw [if_pos hrole] at hidentity
          exact List.cons_ne_nil _ _ hidentity
    obtain ⟨hnodup, hdisjoint⟩ := ih htail
    refine ⟨List.nodup_cons.mpr ⟨fun hmem => ?_, hnodup⟩, ?_⟩
    · obtain ⟨q, hq, hid⟩ := List.mem_map.mp hmem
      exact hdisjoint q hq (by simp [hid])
    · intro q hmem
      rcases List.mem_cons.mp hmem with rfl | hmem
      · exact hfresh
      · exact fun hseen => hdisjoint q hmem (by simp [hseen])

section
variable {m : Module} {f : Function}

/-- What an accepted module says of its declarations. -/
structure Distinct (m : Module) : Prop where
  functions : (m.functions.map (·.id)).Nodup
  records : (m.records.map (·.1)).Nodup
  variants : (m.variants.map (·.1)).Nodup
  apart : ∀ record ∈ m.records, ∀ variant ∈ m.variants, record.1 ≠ variant.1

theorem distinct_of_accepted (h : verifyModule m = []) : Distinct m := by
  unfold verifyModule at h
  simp only [List.append_eq_nil_iff] at h
  have hnodup := (checkItems_eq_nil h.1.1.1.1.1).1
  simp only [itemRoles, List.map_append, List.map_map, List.nodup_append] at hnodup
  obtain ⟨⟨⟨⟨hfunctions, hrecords, -⟩, hvariants, hapart⟩, -⟩, -⟩ := hnodup
  refine ⟨hfunctions, hrecords, hvariants, fun record hrecord variant hvariant => ?_⟩
  refine hapart record.1 ?_ variant.1 (List.mem_map_of_mem hvariant)
  exact List.mem_append_right _ (List.mem_map_of_mem hrecord)

theorem Distinct.variants_eq (h : Distinct m) (item : ItemId) :
    (aggregateContext m).variants item = m.findVariant item :=
  collected_eq_find h.variants item

theorem Distinct.findRecord_of_variant (h : Distinct m) {item : ItemId} {layout : VariantLayout}
    (hvariant : m.findVariant item = some layout) : m.findRecord item = none := by
  obtain ⟨variant, hfind, -⟩ := Option.map_eq_some_iff.mp hvariant
  have hid : variant.1 = item := by simpa using List.find?_some hfind
  have hmem := List.mem_of_find?_eq_some hfind
  refine Option.map_eq_none_iff.mpr (List.find?_eq_none.mpr fun record hrecord heq => ?_)
  exact h.apart record hrecord variant hmem (hid.symm ▸ of_decide_eq_true heq)

/-- Every variant a function declares to raise is a variant of the module without
type parameters, and it is declared once. -/
theorem checkRaises_eq_nil {agg : AggregateContext} {seen raises : List ItemId}
    (h : checkRaises agg seen raises = []) :
    (raises.Nodup ∧ ∀ item ∈ raises, item ∉ seen) ∧
      ∀ item ∈ raises, ∃ layout, agg.variants item = some layout ∧ layout.typeParams = [] := by
  induction raises generalizing seen with
  | nil => exact ⟨⟨List.nodup_nil, by simp⟩, by simp⟩
  | cons raised raises ih =>
    obtain ⟨hhead, htail⟩ := List.append_eq_nil_iff.mp h
    obtain ⟨hknown, hrepeated⟩ := List.append_eq_nil_iff.mp hhead
    obtain ⟨⟨hnodup, hdisjoint⟩, hlayouts⟩ := ih htail
    have hfresh : raised ∉ seen := by
      intro hmem
      rw [if_pos hmem] at hrepeated
      exact List.cons_ne_nil _ _ hrepeated
    have hlayout : ∃ layout, agg.variants raised = some layout ∧ layout.typeParams = [] := by
      cases hvariant : agg.variants raised with
      | none =>
        simp only [hvariant] at hknown
        exact absurd hknown (List.cons_ne_nil _ _)
      | some layout =>
        refine ⟨layout, rfl, ?_⟩
        by_contra hparams
        simp only [hvariant] at hknown
        rw [if_pos hparams] at hknown
        exact List.cons_ne_nil _ _ hknown
    refine ⟨⟨List.nodup_cons.mpr ⟨fun hmem => hdisjoint raised hmem (by simp), hnodup⟩, ?_⟩, ?_⟩
    · intro item hmem
      rcases List.mem_cons.mp hmem with rfl | hmem
      · exact hfresh
      · exact fun hseen => hdisjoint item hmem (by simp [hseen])
    · intro item hmem
      rcases List.mem_cons.mp hmem with rfl | hmem
      · exact hlayout
      · exact hlayouts item hmem

/-- What an accepted module says of one of its functions. -/
structure Sound (m : Module) (f : Function) : Prop where
  blocks : (f.blocks.map (·.id)).Nodup
  values : ((definitions f).map (·.1)).Nodup
  distinct : f.raises.Nodup
  raises : ∀ item ∈ f.raises, ∃ layout, m.findVariant item = some layout ∧ layout.typeParams = []

theorem verifyFunction_of_accepted (h : verifyModule m = []) (hf : f ∈ m.functions) :
    verifyFunction m f = [] := by
  unfold verifyModule at h
  exact List.flatMap_eq_nil_iff.mp (List.append_eq_nil_iff.mp h).2 f hf

theorem entry_of_accepted (h : verifyModule m = []) (hf : f ∈ m.functions) :
    ∃ block, f.findBlock ⟨0⟩ = some block := by
  have hchecked := verifyFunction_of_accepted h hf
  unfold verifyFunction at hchecked
  split at hchecked
  · exact absurd hchecked (List.cons_ne_nil _ _)
  split at hchecked
  · exact absurd hchecked (List.cons_ne_nil _ _)
  rename_i hentry
  obtain ⟨block, hblock, hid⟩ := List.any_eq_true.mp (Bool.not_eq_false _ ▸ hentry)
  exact Option.isSome_iff_exists.mp (List.find?_isSome.mpr ⟨block, hblock, hid⟩)

theorem sound_of_accepted (h : verifyModule m = []) (hf : f ∈ m.functions) : Sound m f := by
  have hdistinct := distinct_of_accepted h
  have hchecked := verifyFunction_of_accepted h hf
  unfold verifyFunction at hchecked
  split at hchecked
  · exact absurd hchecked (List.cons_ne_nil _ _)
  split at hchecked
  · exact absurd hchecked (List.cons_ne_nil _ _)
  simp only [List.append_eq_nil_iff] at hchecked
  obtain ⟨⟨⟨⟨-, hraises⟩, hblocks⟩, hvalues⟩, -⟩ := hchecked
  obtain ⟨⟨hnodup, -⟩, hlayouts⟩ := checkRaises_eq_nil hraises
  refine ⟨(checkDistinct_eq_nil hblocks).1, (checkDistinct_eq_nil hvalues).1, hnodup, ?_⟩
  intro item hitem
  obtain ⟨layout, hlayout, hparams⟩ := hlayouts item hitem
  exact ⟨layout, (hdistinct.variants_eq item) ▸ hlayout, hparams⟩

theorem Sound.valueTypes_of_mem (h : Sound m f) {entry : ValueId × Ty}
    (hmem : entry ∈ definitions f) : valueTypes f entry.1 = some entry.2 := by
  unfold valueTypes
  rw [find?_reverse_of_nodup h.values hmem]
  rfl

end

end Napitia.Verify
