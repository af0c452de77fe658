import Mathlib.Data.List.Forall2
import Napitia.Lower.Taking

/-!
# What the winning row claims

The values a row binds, leaves to be destroyed or takes apart further are
different values, each read from a payload position of its own, and a shell is
taken apart before the shells it holds. A claimed value was read out of a shell
the row takes apart exactly when a pattern of the row itself claims it.
-/
namespace Napitia.Lower
open Nir Typeck Interpreter

/-- The values a row claims. -/
def Take.claimed (T : Take) : List ValueId :=
  T.bindings.map (·.2) ++ T.discarded.map (·.value) ++ T.decomposed.map (·.1)

/-- The occurrences pending are different values, each read from a place of its
own out of a shell that is not pending any more. -/
structure Distinct (sources : AList (fun _ : ValueId => PayloadSource)) (N : ℕ)
    (occs : List Occurrence) : Prop where
  lt : ∀ o ∈ occs, o.value.index < N
  base : ∀ o ∈ occs, ∀ source, sources.lookup o.value = some source →
    source.base.index < N ∧ source.base ∉ occs.map (·.value)
  apart : occs.Pairwise fun a b => a.value ≠ b.value ∧
    ∀ source, sources.lookup a.value = some source → sources.lookup b.value ≠ some source

/-- A value claimed after an occurrence: one still pending, or one read later out
of a shell that was pending then. -/
def ClaimedAfter (sources : AList (fun _ : ValueId => PayloadSource)) (N : ℕ) (occ : Occurrence)
    (occs : List Occurrence) (id : ValueId) : Prop :=
  id ∈ occs.map (·.value) ∨ (N ≤ id.index ∧ ∃ source, sources.lookup id = some source ∧
    (source.base ∈ (occ :: occs).map (·.value) ∨ N ≤ source.base.index))

/-- What is known of the values claimed at the occurrences pending. -/
structure Account (sources : AList (fun _ : ValueId => PayloadSource)) (N : ℕ)
    (occs : List Occurrence) (T : Take) : Prop where
  origin : ∀ id ∈ T.claimed, id ∈ occs.map (·.value) ∨ (N ≤ id.index ∧
    ∃ source, sources.lookup id = some source ∧
      (source.base ∈ occs.map (·.value) ∨ N ≤ source.base.index))
  apart : T.claimed.Pairwise fun a b => a ≠ b ∧
    ∀ source, sources.lookup a = some source → sources.lookup b ≠ some source
  ordered : T.decomposed.Pairwise fun a b =>
    ∀ source, sources.lookup a.1 = some source → source.base ≠ b.1

section
variable {L : Lowering} {values : Values} {sources : AList (fun _ : ValueId => PayloadSource)}
  {N N' : ℕ} {slots : List PatternSlot} {occ : Occurrence} {occs inside : List Occurrence}
  {positions within : List Position} {T T' : Take} {base : ValueId} {item : ItemId} {case : ℕ}

theorem Distinct.tail (h : Distinct sources N (occ :: occs)) : Distinct sources N occs := by
  refine ⟨fun o ho => h.lt o (by simp [ho]), fun o ho source hsource => ?_, h.apart.tail⟩
  obtain ⟨hlt, hnot⟩ := h.base o (by simp [ho]) source hsource
  exact ⟨hlt, fun hmem => hnot (by simp_all)⟩

theorem Distinct.unpack (h : Distinct sources N (occ :: occs))
    (hu : Unpacks values sources N N' occ.value item case within inside) :
    Distinct sources N' (inside ++ occs) := by
  have hocc := h.lt occ (by simp)
  have hsource : ∀ o ∈ inside, ∃ i, inside[i]? = some o ∧
      sources.lookup o.value = some ⟨occ.value, item, case, i⟩ := by
    intro o ho
    obtain ⟨i, hi⟩ := List.mem_iff_getElem?.mp ho
    exact ⟨i, hi, hu.source hi⟩
  have hbase : ∀ o ∈ occs, ∀ source, sources.lookup o.value = some source →
      source.base.index < N ∧ source.base ≠ occ.value ∧ source.base ∉ occs.map (·.value) := by
    intro o ho source hs
    obtain ⟨hlt, hnot⟩ := h.base o (by simp [ho]) source hs
    rw [List.map_cons, List.mem_cons, not_or] at hnot
    exact ⟨hlt, hnot.1, hnot.2⟩
  have hhead := (List.pairwise_cons.mp h.apart).1
  refine ⟨fun o ho => ?_, fun o ho source hs => ?_, ?_⟩
  · rcases List.mem_append.mp ho with ho | ho
    · exact (hu.fresh o ho).2
    · exact (h.lt o (by simp [ho])).trans_le hu.le
  · rw [List.map_append, List.mem_append, not_or]
    rcases List.mem_append.mp ho with ho | ho
    · obtain ⟨i, -, hi⟩ := hsource o ho
      rw [hi] at hs
      cases hs
      refine ⟨hocc.trans_le hu.le, fun hmem => ?_, fun hmem => ?_⟩
      · obtain ⟨o', ho', heq⟩ := List.mem_map.mp hmem
        have hfresh := (hu.fresh o' ho').1
        rw [heq] at hfresh
        exact absurd hocc (by simpa using hfresh)
      · obtain ⟨o', ho', heq⟩ := List.mem_map.mp hmem
        exact (hhead o' ho').1 heq.symm
    · obtain ⟨hlt, -, hnot⟩ := hbase o ho source hs
      refine ⟨hlt.trans_le hu.le, fun hmem => ?_, hnot⟩
      obtain ⟨o', ho', heq⟩ := List.mem_map.mp hmem
      have hfresh := (hu.fresh o' ho').1
      rw [heq] at hfresh
      omega
  · rw [List.pairwise_append]
    refine ⟨?_, h.apart.tail, fun a ha b hb => ⟨?_, fun source ha' hb' => ?_⟩⟩
    · rw [List.pairwise_iff_getElem]
      intro i j hi hj hij
      have hsi := hu.source (List.getElem?_eq_getElem hi)
      have hsj := hu.source (List.getElem?_eq_getElem hj)
      refine ⟨fun heq => ?_, fun source hs hs' => ?_⟩
      · rw [heq, hsj] at hsi
        cases hsi
        omega
      · rw [hsi] at hs
        rw [hsj, ← hs] at hs'
        cases hs'
        omega
    · intro heq
      have hfresh := (hu.fresh a ha).1
      have hlt := h.lt b (by simp [hb])
      rw [heq] at hfresh
      omega
    · obtain ⟨i, -, hi⟩ := hsource a ha
      rw [hi] at ha'
      cases ha'
      exact (hbase b hb _ hb').2.1 rfl

/-! ### One position after the other -/

theorem Account.after (h : Account sources N occs T) :
    ∀ id ∈ T.claimed, ClaimedAfter sources N occ occs id := by
  intro id hid
  refine (h.origin id hid).imp_right fun ⟨hN, source, hs, hbase⟩ => ⟨hN, source, hs, ?_⟩
  exact hbase.imp_left fun hmem => by simp_all

theorem Account.after_unpack
    (hu : Unpacks values sources N N' occ.value item case within inside)
    (h : Account sources N' (inside ++ occs) T) :
    ∀ id ∈ T.claimed, ClaimedAfter sources N occ occs id := by
  have hinside : ∀ id ∈ inside.map (·.value), N ≤ id.index := by
    intro id hid
    obtain ⟨o, ho, rfl⟩ := List.mem_map.mp hid
    exact (hu.fresh o ho).1
  have hle := hu.le
  intro id hid
  rcases h.origin id hid with hmem | ⟨hN, source, hs, hbase⟩
  · rw [List.map_append, List.mem_append] at hmem
    rcases hmem with hmem | hmem
    · obtain ⟨o, ho, rfl⟩ := List.mem_map.mp hmem
      obtain ⟨i, hi⟩ := List.mem_iff_getElem?.mp ho
      exact .inr ⟨(hu.fresh o ho).1, _, hu.source hi, .inl (by simp)⟩
    · exact .inl hmem
  · refine .inr ⟨by omega, source, hs, ?_⟩
    rcases hbase with hbase | hbase
    · rw [List.map_append, List.mem_append] at hbase
      rcases hbase with hbase | hbase
      · exact .inr (hinside _ hbase)
      · exact .inl (by simp_all)
    · exact .inr (by omega)

theorem ClaimedAfter.origin {id : ValueId} (h : ClaimedAfter sources N occ occs id) :
    id ∈ (occ :: occs).map (·.value) ∨ (N ≤ id.index ∧ ∃ source, sources.lookup id = some source ∧
      (source.base ∈ (occ :: occs).map (·.value) ∨ N ≤ source.base.index)) :=
  h.imp_left fun hmem => by simp_all

/-- The occurrence in front is none of the values claimed after it, and its place
is none of their places. -/
theorem ClaimedAfter.ne {id : ValueId} (h : ClaimedAfter sources N occ occs id)
    (hD : Distinct sources N (occ :: occs)) : occ.value ≠ id ∧
      ∀ source, sources.lookup occ.value = some source →
        sources.lookup id ≠ some source ∧ source.base ≠ id := by
  have hhead := (List.pairwise_cons.mp hD.apart).1
  have hbase := hD.base occ (by simp)
  rcases h with hmem | ⟨hN, source, hs, hfrom⟩
  · obtain ⟨o, ho, rfl⟩ := List.mem_map.mp hmem
    refine ⟨(hhead o ho).1, fun source hs => ⟨(hhead o ho).2 source hs, fun heq => ?_⟩⟩
    apply (hbase source hs).2
    rw [heq]
    exact List.mem_map_of_mem (f := fun o : Occurrence => o.value) (List.mem_cons_of_mem _ ho)
  · have hlt := hD.lt occ (by simp)
    refine ⟨fun heq => ?_, fun source' hs' => ⟨fun heq => ?_, fun heq => ?_⟩⟩
    · rw [heq] at hlt
      omega
    · rw [hs] at heq
      cases heq
      obtain ⟨hless, hnot⟩ := hbase source hs'
      rcases hfrom with hfrom | hfrom
      · exact hnot hfrom
      · omega
    · have hless := (hbase source' hs').1
      rw [heq] at hless
      omega

theorem Account.claim (shells : List (ValueId × ItemId × ℕ))
    (hD : Distinct sources N (occ :: occs))
    (hafter : ∀ id ∈ T.claimed, ClaimedAfter sources N occ occs id)
    (hapart : T.claimed.Pairwise fun a b => a ≠ b ∧
      ∀ source, sources.lookup a = some source → sources.lookup b ≠ some source)
    (hordered : T.decomposed.Pairwise fun a b =>
      ∀ source, sources.lookup a.1 = some source → source.base ≠ b.1)
    (hperm : T'.claimed.Perm (occ.value :: T.claimed)) (hshells : ∀ d ∈ shells, d.1 = occ.value)
    (hone : shells.length ≤ 1) (hdecomposed : T'.decomposed = shells ++ T.decomposed) :
    Account sources N (occ :: occs) T' := by
  refine ⟨fun id hid => ?_, ?_, ?_⟩
  · rcases List.mem_cons.mp (hperm.mem_iff.mp hid) with rfl | hid
    · exact .inl (by simp)
    · exact (hafter id hid).origin
  · have hsymm : ∀ {a b : ValueId}, (a ≠ b ∧
        ∀ source, sources.lookup a = some source → sources.lookup b ≠ some source) →
        b ≠ a ∧ ∀ source, sources.lookup b = some source → sources.lookup a ≠ some source :=
      fun hab => ⟨hab.1.symm, fun source hb ha => hab.2 source ha hb⟩
    refine (hperm.pairwise_iff hsymm).mpr (List.pairwise_cons.mpr ⟨fun id hid => ?_, hapart⟩)
    have hne := (hafter id hid).ne hD
    exact ⟨hne.1, fun source hs => (hne.2 source hs).1⟩
  · rw [hdecomposed, List.pairwise_append]
    refine ⟨?_, hordered, fun a ha b hb source hs => ?_⟩
    · match shells, hone with
      | [], _ => exact .nil
      | [d], _ => exact List.pairwise_singleton _ d
    · rw [hshells a ha] at hs
      have hmem : b.1 ∈ T.claimed := by
        simp only [Take.claimed, List.mem_append]
        exact .inr (List.mem_map_of_mem hb)
      exact (((hafter b.1 hmem).ne hD).2 source hs).2

/-- A row that is taken claims no value twice, and opens shells from outside in. -/
theorem Takes.account (h : Takes L values sources N slots occs positions T)
    (hD : Distinct sources N occs) : Account sources N occs T := by
  induction h with
  | done => exact ⟨by simp [Take.claimed], .nil, .nil⟩
  | tested _ _ ih =>
    have hT := ih hD.tail
    exact ⟨fun id hid => (hT.after id hid).origin, hT.apart, hT.ordered⟩
  | owned _ ih =>
    have hT := ih hD.tail
    exact ⟨fun id hid => (hT.after id hid).origin, hT.apart, hT.ordered⟩
  | bound _ _ ih =>
    have hT := ih hD.tail
    refine Account.claim [] hD hT.after hT.apart hT.ordered ?_ (by simp) (by simp) rfl
    exact List.Perm.refl _
  | passed _ _ _ ih =>
    have hT := ih hD.tail
    refine Account.claim [] hD hT.after hT.apart hT.ordered ?_ (by simp) (by simp) rfl
    simp only [Take.claimed, List.map_cons]
    rw [List.append_assoc, List.cons_append, List.append_assoc]
    exact List.perm_middle
  | @opened _ _ _ item _ case _ _ _ _ occ _ _ _ T _ _ _ _ hu _ ih =>
    have hT := ih (hD.unpack hu)
    refine Account.claim [(occ.value, item, case)] hD (hT.after_unpack hu) hT.apart
      hT.ordered ?_ (by simp) (by simp) rfl
    simp only [Take.claimed, List.map_cons]
    exact List.perm_middle
  | split _ _ _ _ hu _ ih =>
    have hT := ih (hD.unpack hu)
    exact ⟨fun id hid => (hT.after_unpack hu id hid).origin, hT.apart, hT.ordered⟩

end

/-! ### Claims out of a shell -/

/-- A property of every slot with the occurrence and the position it stands at. -/
inductive Pends (I : PatternSlot → Occurrence → Position → Prop) :
    List PatternSlot → List Occurrence → List Position → Prop
  | nil : Pends I [] [] []
  | cons {slot : PatternSlot} {occ : Occurrence} {pos : Position} {slots : List PatternSlot}
      {occs : List Occurrence} {positions : List Position} : I slot occ pos →
      Pends I slots occs positions → Pends I (slot :: slots) (occ :: occs) (pos :: positions)

section
variable {I : PatternSlot → Occurrence → Position → Prop} {slots slots' : List PatternSlot}
  {occs occs' : List Occurrence} {positions positions' : List Position}

theorem Pends.append (h : Pends I slots occs positions) (h' : Pends I slots' occs' positions') :
    Pends I (slots ++ slots') (occs ++ occs') (positions ++ positions') := by
  induction h with
  | nil => exact h'
  | cons hone _ ih => exact .cons hone ih

theorem Pends.of_forall₂ {R : Occurrence → Position → Prop} (hlen : slots.length = occs.length)
    (hR : List.Forall₂ R occs positions)
    (h : ∀ (i : ℕ) slot occ pos, slots[i]? = some slot → occs[i]? = some occ →
      positions[i]? = some pos → R occ pos → I slot occ pos) : Pends I slots occs positions := by
  induction hR generalizing slots with
  | nil =>
    obtain rfl : slots = [] := List.length_eq_zero_iff.mp hlen
    exact .nil
  | cons hone _ ih =>
    cases slots with
    | nil => simp at hlen
    | cons slot slots =>
      refine .cons (h 0 _ _ _ rfl rfl rfl hone) (ih (by simpa using hlen) ?_)
      intro i slot occ pos hslot hocc hpos
      exact h (i + 1) slot occ pos (by simpa using hslot) (by simpa using hocc) (by simpa using hpos)

end

/-- A value read out of one of the shells, and what that shell holds there. -/
def ClaimedFrom (values : Values) (sources : AList (fun _ : ValueId => PayloadSource))
    (shells : List (ValueId × ItemId × ℕ)) (id : ValueId) (v : Value) : Prop :=
  ∃ source typeArgs payload, sources.lookup id = some source ∧
    (source.base, source.variant, source.case) ∈ shells ∧
    values.lookup source.base = some (.variant source.variant typeArgs source.case payload) ∧
    payload[source.index]? = some v

/-- Behind a shell the row takes apart stand the patterns of the row, and at no
other occurrence. -/
structure Stakes (values : Values) (sources : AList (fun _ : ValueId => PayloadSource))
    (shells : List (ValueId × ItemId × ℕ)) (slot : PatternSlot) (occ : Occurrence)
    (pos : Position) : Prop where
  value : values.lookup occ.value = some pos.value
  claimed : slot.isReal = true → pos.inner = true →
    ClaimedFrom values sources shells occ.value pos.value
  free : ¬ (slot.isReal = true ∧ pos.inner = true) → ∀ source,
    sources.lookup occ.value = some source → source.base ∉ shells.map (·.1)

/-- What a row claims out of the shells is what its own patterns take there. -/
structure Owning (values : Values) (sources : AList (fun _ : ValueId => PayloadSource))
    (shells : List (ValueId × ItemId × ℕ)) (T : Take) : Prop where
  own : ∀ p ∈ T.own, p.1 ∈ T.claimed ∧ values.lookup p.1 = some p.2.value ∧
    (p.2.inner = true → ClaimedFrom values sources shells p.1 p.2.value)
  claimed : ∀ id ∈ T.claimed, ∀ source, sources.lookup id = some source →
    source.base ∈ shells.map (·.1) → ∃ pos, (id, pos) ∈ T.own ∧ pos.inner = true

section
variable {L : Lowering} {values : Values} {sources : AList (fun _ : ValueId => PayloadSource)}
  {N N' : ℕ} {slot : PatternSlot} {slots : List PatternSlot} {occ : Occurrence}
  {occs inside : List Occurrence} {pos : Position} {positions : List Position} {T T' : Take}
  {shells before : List (ValueId × ItemId × ℕ)} {item : ItemId} {typeArgs : List Ty} {case : ℕ}
  {payload : List Value}

theorem Owning.claim (h : Owning values sources shells T)
    (hstake : Stakes values sources shells slot occ pos)
    (hperm : T'.claimed.Perm (occ.value :: T.claimed))
    (hown : T'.own = slot.owns occ pos ++ T.own) : Owning values sources shells T' := by
  refine ⟨fun p hp => ?_, fun id hid source hs hbase => ?_⟩
  · rw [hown, List.mem_append] at hp
    rcases hp with hp | hp
    · unfold PatternSlot.owns at hp
      split at hp
      · rename_i hreal
        obtain rfl := List.mem_singleton.mp hp
        exact ⟨hperm.mem_iff.mpr (by simp), hstake.value, hstake.claimed hreal⟩
      · cases hp
    · obtain ⟨hmem, hrest⟩ := h.own p hp
      exact ⟨hperm.mem_iff.mpr (by simp [hmem]), hrest⟩
  · rcases List.mem_cons.mp (hperm.mem_iff.mp hid) with rfl | hid
    · have hreal : slot.isReal = true ∧ pos.inner = true := by
        by_contra hnot
        exact hstake.free hnot source hs hbase
      refine ⟨pos, ?_, hreal.2⟩
      rw [hown, PatternSlot.owns, if_pos hreal.1]
      simp
    · obtain ⟨p, hp, hinner⟩ := h.claimed id hid source hs hbase
      exact ⟨p, by simp [hown, hp], hinner⟩

theorem inner_of_payloadPositions {ty : Ty} {i : ℕ}
    (h : (L.payloadPositions ty case payload)[i]? = some pos) :
    pos.inner = true ∧ payload[i]? = some pos.value := by
  rw [Lowering.payloadPositions, List.getElem?_mapIdx] at h
  obtain ⟨u, hu, rfl⟩ := Option.map_eq_some_iff.mp h
  exact ⟨rfl, hu⟩

theorem stakes_opened {args : List HirPattern} (hlen : args.length = payload.length)
    (hvalue : values.lookup occ.value = some (.variant item typeArgs case payload))
    (hu : Unpacks values sources N N' occ.value item case (L.payloadPositions pos.ty case payload)
      inside) (hmem : (occ.value, item, case) ∈ shells) :
    Pends (Stakes values sources shells) (args.map .real) inside
      (L.payloadPositions pos.ty case payload) := by
  refine .of_forall₂ (by rw [List.length_map, hlen, hu.length]) hu.stands ?_
  intro i slot o p hslot ho hp hone
  obtain ⟨hinner, hpart⟩ := inner_of_payloadPositions hp
  refine ⟨hone.2, fun _ _ => ⟨_, typeArgs, payload, hu.source ho, hmem, hvalue, hpart⟩,
    fun hnot => absurd ⟨?_, hinner⟩ hnot⟩
  obtain ⟨q, -, rfl⟩ := List.mem_map.mp (List.mem_of_getElem? hslot)
  rfl

theorem stakes_split (hu : Unpacks values sources N N' occ.value item case
      (L.payloadPositions pos.ty case payload) inside)
    (hnot : occ.value ∉ shells.map (·.1)) :
    Pends (Stakes values sources shells) (List.replicate payload.length .wildcard) inside
      (L.payloadPositions pos.ty case payload) := by
  refine .of_forall₂ (by rw [List.length_replicate, hu.length]) hu.stands ?_
  intro i slot o p hslot ho hp hone
  obtain rfl := (List.mem_replicate.mp (List.mem_of_getElem? hslot)).2
  refine ⟨hone.2, fun hreal => absurd hreal (by simp [PatternSlot.isReal]), fun _ source hs => ?_⟩
  rw [hu.source ho] at hs
  cases hs
  exact hnot

/-- Shells taken apart before the occurrences pending were read. -/
def Earlier (N : ℕ) (occs : List Occurrence) (shells : List (ValueId × ItemId × ℕ)) : Prop :=
  ∀ d ∈ shells, d.1.index < N ∧ d.1 ∉ occs.map (·.value)

theorem Earlier.tail (h : Earlier N (occ :: occs) shells) : Earlier N occs shells :=
  fun d hd => ⟨(h d hd).1, fun hmem => (h d hd).2 (by simp_all)⟩

theorem Earlier.unpack {within : List Position} (h : Earlier N occs shells)
    (hu : Unpacks values sources N N' occ.value item case within inside) :
    Earlier N' (inside ++ occs) shells := by
  intro d hd
  obtain ⟨hlt, hnot⟩ := h d hd
  refine ⟨hlt.trans_le hu.le, fun hmem => ?_⟩
  rw [List.map_append, List.mem_append] at hmem
  rcases hmem with hmem | hmem
  · obtain ⟨o, ho, heq⟩ := List.mem_map.mp hmem
    have hfresh := (hu.fresh o ho).1
    rw [heq] at hfresh
    omega
  · exact hnot hmem

theorem Takes.owning (before : List (ValueId × ItemId × ℕ))
    (h : Takes L values sources N slots occs positions T) (hD : Distinct sources N occs) (hbefore : Earlier N occs before)
    (hpends : Pends (Stakes values sources (before ++ T.decomposed)) slots occs positions) :
    Owning values sources (before ++ T.decomposed) T := by
  induction h generalizing before with
  | done => exact ⟨by simp, by simp [Take.claimed]⟩
  | tested _ _ ih =>
    cases hpends with
    | cons _ hrest => exact ih before hD.tail hbefore.tail hrest
  | owned _ ih =>
    cases hpends with
    | cons _ hrest => exact ih before hD.tail hbefore.tail hrest
  | bound _ _ ih =>
    cases hpends with
    | cons hone hrest =>
      exact (ih before hD.tail hbefore.tail hrest).claim hone (List.Perm.refl _) rfl
  | passed _ _ _ ih =>
    cases hpends with
    | cons hone hrest =>
      refine (ih before hD.tail hbefore.tail hrest).claim hone ?_ rfl
      simp only [Take.claimed, List.map_cons]
      rw [List.append_assoc, List.cons_append, List.append_assoc]
      exact List.perm_middle
  | @opened N _ _ item typeArgs case args payload inside _ occ occs pos _ T _ hlen _ hv hu _ ih =>
    cases hpends with
    | cons hone hrest =>
      -- from here on the shell is one of those taken apart before
      have hshells : before ++ (occ.value, item, case) :: T.decomposed =
          (before ++ [(occ.value, item, case)]) ++ T.decomposed := by simp
      have hearlier : Earlier N occs (before ++ [(occ.value, item, case)]) := by
        intro d hd
        rcases List.mem_append.mp hd with hd | hd
        · exact hbefore.tail d hd
        · obtain rfl := List.mem_singleton.mp hd
          refine ⟨hD.lt occ (by simp), fun hmem => ?_⟩
          obtain ⟨o, ho, heq⟩ := List.mem_map.mp hmem
          exact ((List.pairwise_cons.mp hD.apart).1 o ho).1 heq.symm
      have hvalue : values.lookup occ.value = some (.variant item typeArgs case payload) := by
        rw [hone.value, hv]
      simp only [hshells] at hone hrest ⊢
      have hT := ih _ (hD.unpack hu) (hearlier.unpack hu)
        ((stakes_opened hlen hvalue hu (by simp)).append hrest)
      exact hT.claim hone (by simp only [Take.claimed, List.map_cons]; exact List.perm_middle) rfl
  | @split N _ _ item typeArgs case payload inside _ occ _ pos _ T _ _ _ hv hu htakes ih =>
    cases hpends with
    | cons hone hrest =>
      refine ih before (hD.unpack hu) (hbefore.tail.unpack hu) ((stakes_split hu ?_).append hrest)
      rw [List.map_append, List.mem_append, not_or]
      refine ⟨fun hmem => ?_, fun hmem => ?_⟩
      · obtain ⟨d, hd, heq⟩ := List.mem_map.mp hmem
        exact (hbefore d hd).2 (by simp [heq])
      · have hclaimed : occ.value ∈ T.claimed := by
          simp only [Take.claimed, List.mem_append]
          exact .inr hmem
        have hafter := (htakes.account (hD.unpack hu)).after_unpack hu occ.value hclaimed
        exact (hafter.ne hD).1 rfl

end

/-! ### What the claimed values hold -/

/-- The locals the slots of a row bind at the values pending. -/
def Lowering.slotBinders (L : Lowering) : List PatternSlot → List Value → List (LocalId × Value)
  | .real p :: slots, v :: vs => L.binders p v ++ L.slotBinders slots vs
  | _ :: slots, _ :: vs => L.slotBinders slots vs
  | _, _ => []

section
variable {L : Lowering} {values : Values} {sources : AList (fun _ : ValueId => PayloadSource)}
  {N : ℕ} {slots : List PatternSlot} {occs : List Occurrence} {positions : List Position}
  {T : Take}

theorem slotBinders_reals {args : List HirPattern} {payload vs : List Value}
    (hlen : args.length = payload.length) :
    L.slotBinders (args.map .real ++ slots) (payload ++ vs) =
      L.bindersAll args payload ++ L.slotBinders slots vs := by
  induction args generalizing payload with
  | nil =>
    obtain rfl : payload = [] := List.length_eq_zero_iff.mp hlen.symm
    simp [Lowering.bindersAll]
  | cons p args ih =>
    cases payload with
    | nil => simp at hlen
    | cons v payload =>
      have hlen' : args.length = payload.length := by simpa using hlen
      simp [Lowering.slotBinders, Lowering.bindersAll, ih hlen', List.append_assoc]

theorem slotBinders_fillers {payload vs : List Value} :
    L.slotBinders (List.replicate payload.length .wildcard ++ slots) (payload ++ vs) =
      L.slotBinders slots vs := by
  induction payload with
  | nil => rfl
  | cons v payload ih =>
    rw [List.length_cons, List.replicate_succ, List.cons_append, List.cons_append,
      Lowering.slotBinders, ih]
    simp

theorem slotBinders_none {slot : PatternSlot} {v : Value} {vs : List Value}
    (h : L.classify slot = .wildcard ∨ ∃ lit, L.classify slot = .literal lit) :
    L.slotBinders (slot :: slots) (v :: vs) = L.slotBinders slots vs := by
  cases slot with
  | wildcard | owned => simp [Lowering.slotBinders]
  | real p =>
    rw [Lowering.slotBinders]
    cases p with
    | bind id binding =>
      cases hid : L.patternCase.lookup id <;> simp [Lowering.classify, hid] at h
    | «variant» id args =>
      cases hid : L.patternCase.lookup id <;> simp [Lowering.classify, hid] at h
    | _ => simp [Lowering.binders]

/-- The locals of a row are bound to what its binders name. -/
theorem Takes.binds (h : Takes L values sources N slots occs positions T)
    (hstands : List.Forall₂ (fun o p => o.ty = p.ty ∧ values.lookup o.value = some p.value) occs
      positions) :
    List.Forall₂ (fun b u => b.1 = u.1 ∧ values.lookup b.2 = some u.2) T.bindings
      (L.slotBinders slots (positions.map (·.value))) := by
  induction h with
  | done => exact .nil
  | tested hc _ ih =>
    cases hstands with
    | cons _ hrest =>
      rw [List.map_cons, slotBinders_none (.inr ⟨_, hc⟩)]
      exact ih hrest
  | owned _ ih =>
    cases hstands with
    | cons _ hrest => exact ih hrest
  | passed hc _ _ ih =>
    cases hstands with
    | cons _ hrest =>
      rw [List.map_cons, slotBinders_none (.inl hc)]
      exact ih hrest
  | @bound _ slot binding _ _ _ pos positions _ hc _ ih =>
    cases hstands with
    | cons hone hrest =>
      have hbinders : ∃ p, slot = .real p ∧ L.binders p pos.value = [(binding, pos.value)] := by
        cases slot with
        | wildcard | owned => simp [Lowering.classify] at hc
        | real p =>
          cases p with
          | bind id b =>
            cases hid : L.patternCase.lookup id with
            | some k => simp [Lowering.classify, hid] at hc
            | none =>
              simp only [Lowering.classify, hid, Classified.bind.injEq] at hc
              exact ⟨_, rfl, by simp [Lowering.binders, hid, hc]⟩
          | «variant» id args =>
            cases hid : L.patternCase.lookup id <;> simp [Lowering.classify, hid] at hc
          | _ => simp [Lowering.classify] at hc
      obtain ⟨p, rfl, hp⟩ := hbinders
      rw [List.map_cons, Lowering.slotBinders, hp]
      exact .cons ⟨rfl, hone.2⟩ (ih hrest)
  | @opened _ _ slot item typeArgs case args payload _ slots _ _ pos positions _ hc hlen _ hv hu _ ih =>
    cases hstands with
    | cons hone hrest =>
      have hinner := ih (List.rel_append hu.stands hrest)
      rw [List.map_append, map_value_payloadPositions, slotBinders_reals hlen] at hinner
      have hbinders : ∃ p, slot = .real p ∧ L.binders p pos.value = L.bindersAll args payload := by
        rw [hv]
        cases slot with
        | wildcard | owned => simp [Lowering.classify] at hc
        | real p =>
          refine ⟨p, rfl, ?_⟩
          cases p with
          | bind id b =>
            cases hid : L.patternCase.lookup id with
            | some k =>
              simp only [Lowering.classify, hid, Classified.case.injEq] at hc
              simp [Lowering.binders, hid, ← hc.2.2, Lowering.bindersAll]
            | none => simp [Lowering.classify, hid] at hc
          | «variant» id args' =>
            cases hid : L.patternCase.lookup id with
            | some k =>
              simp only [Lowering.classify, hid, Classified.case.injEq] at hc
              simp [Lowering.binders, hc.2.2]
            | none =>
              simp only [Lowering.classify, hid, Classified.case.injEq] at hc
              simp [Lowering.binders, hc.2.2]
          | _ => simp [Lowering.classify] at hc
      obtain ⟨p, rfl, hp⟩ := hbinders
      rw [List.map_cons, Lowering.slotBinders, hp]
      exact hinner
  | @split _ _ slot item typeArgs case payload _ slots _ _ pos positions _ hc _ _ hv hu _ ih =>
    cases hstands with
    | cons hone hrest =>
      have hinner := ih (List.rel_append hu.stands hrest)
      rw [List.map_append, map_value_payloadPositions, slotBinders_fillers] at hinner
      rw [List.map_cons, slotBinders_none (.inl hc)]
      exact hinner

end

end Napitia.Lower
