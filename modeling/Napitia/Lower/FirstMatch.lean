import Napitia.Lower.Prologue

/-!
# A `match` runs the first arm that accepts

The decision tree of a `match` leads to the first arm whose pattern accepts the
scrutinee, with every local of the pattern bound to the value at its position.
The arm's body is entered exactly when the arm takes no NaN out of a shell.
-/
namespace Napitia.Lower
open Nir Typeck Interpreter StateT

/-! ### Values read out of a shell -/

/-- The value an instruction defines. -/
def resultOf : Instruction → Option ValueId
  | .value result _ _ => some result
  | _ => none

/-- No value of the function is defined by two of its instructions. -/
def AssignsOnce (f : Function) : Prop :=
  (f.blocks.flatMap (·.instructions)).Pairwise fun i j =>
    ∀ id, resultOf i = some id → resultOf j ≠ some id

/-- What an instruction adds to the origins of loads. -/
def loadStep (origin : LoadOrigin) : Instruction → LoadOrigin
  | .value result _ (.load slot) => origin.insert result slot
  | _ => origin

section
variable {f : Function} {id slot : ValueId}

theorem load_of_loadOrigin (h : (loadOriginOf f).lookup id = some slot) :
    ∃ ty, .value id ty (.load slot) ∈ f.blocks.flatMap (·.instructions) := by
  have hfold : ∀ (is : List Instruction) (origin : LoadOrigin),
      (is.foldl loadStep origin).lookup id = some slot →
      origin.lookup id = some slot ∨ ∃ ty, .value id ty (.load slot) ∈ is := by
    intro is
    induction is with
    | nil => exact fun origin h => .inl h
    | cons i is ih =>
      intro origin h
      rcases ih _ h with h | ⟨ty, hmem⟩
      · unfold loadStep at h
        split at h
        · rename_i result ty slot' _
          by_cases hid : id = result
          · subst hid
            rw [AList.lookup_insert] at h
            cases h
            exact .inr ⟨ty, by simp⟩
          · exact .inl ((AList.lookup_insert_ne hid).symm.trans h)
        · exact .inl h
      · exact .inr ⟨ty, by simp [hmem]⟩
  rcases hfold _ ∅ h with h | h
  · simp at h
  · exact h

theorem canonicalRoot_of_defined {ty : Ty} {kind : ValueKind} (hf : AssignsOnce f)
    (hmem : .value id ty kind ∈ f.blocks.flatMap (·.instructions))
    (hkind : ∀ slot, kind ≠ .load slot) : canonicalRoot (loadOriginOf f) id = id := by
  have hnone : (loadOriginOf f).lookup id = none := by
    cases horigin : (loadOriginOf f).lookup id with
    | none => rfl
    | some slot =>
      obtain ⟨ty', hload⟩ := load_of_loadOrigin horigin
      have hne : (.value id ty' (.load slot) : Instruction) ≠ .value id ty kind := by
        rintro ⟨⟩
        exact hkind slot rfl
      have hsymm : Std.Symm fun i j : Instruction =>
          ∀ id, resultOf i = some id → resultOf j ≠ some id :=
        ⟨fun i j hij id hj hi => hij id hi hj⟩
      exact absurd rfl (List.Pairwise.forall hf hload hmem hne id rfl)
  unfold canonicalRoot
  rw [canonicalRoot.go, hnone]

end

/-! ### The arm a decision comes to -/

/-- A frame that comes to a `match` on a value it owns. -/
structure Scrutinizes (L : Lowering) (m : Module) (fb : FnBuilder) (ctx : FrameContext)
    (s : FrameState) (scrutinee : Occurrence) (v : Value) : Prop where
  describes : L.Describes m
  once : AssignsOnce ctx.function
  origin : ctx.loadOrigin = loadOriginOf ctx.function
  known : scrutinee.value.index < fb.nextValue
  storage : (canonicalRoot ctx.loadOrigin scrutinee.value).index < fb.nextValue
  value : s.values.lookup scrutinee.value = some v
  stored : s.values.lookup (canonicalRoot ctx.loadOrigin scrutinee.value) = some v
  runs : L.RunsAs s.resources ctx.subst v scrutinee.ty
  owned : OwnedValue m s.resources v

section
variable {m : Module} {fpu : FloatUnit} {L : Lowering} {arm : ArmLowering} {sink : ArmSink}
  {fb : FnBuilder} {ctx : FrameContext} {s : FrameState} {is : List Instruction} {t : Terminator}
  {rs : List Scored} {scrutinee : Occurrence} {v : Value} {w : Contender} {p : HirPattern}

/-- The leaf of an arm that has done nothing before the decision. -/
structure Leaf (L : Lowering) (m : Module) (fb : FnBuilder) (ctx : FrameContext)
    (scrutinee : Occurrence) (v : Value) (p : HirPattern) (leaf : FnBuilder) (state : FrameState)
    (T : Take) : Prop extends Scrutinizes L m fb ctx state scrutinee v where
  takes : Takes L state.values leaf.payloadSources fb.nextValue [.real p] [scrutinee]
    [⟨scrutinee.ty, v, false⟩] T
  formed : leaf.Formed
  within : leaf.Within ctx.function

variable {leaf : FnBuilder} {state : FrameState} {T : Take}

theorem Leaf.distinct (h : Leaf L m fb ctx scrutinee v p leaf state T) :
    Distinct leaf.payloadSources fb.nextValue [scrutinee] := by
  refine ⟨by simpa using h.known, fun o ho source hs => ?_, List.pairwise_singleton _ _⟩
  obtain rfl := List.mem_singleton.mp ho
  have hlt := h.formed.sources hs
  refine ⟨hlt.trans h.known, fun hmem => ?_⟩
  have heq : source.base = o.value := by simpa using hmem
  rw [heq] at hlt
  omega

theorem Leaf.account (h : Leaf L m fb ctx scrutinee v p leaf state T) :
    Account leaf.payloadSources fb.nextValue [scrutinee] T :=
  h.takes.account h.distinct

theorem Leaf.owning (h : Leaf L m fb ctx scrutinee v p leaf state T) :
    Owning state.values leaf.payloadSources T.decomposed T := by
  refine h.takes.owning [] h.distinct (by simp [Earlier]) (.cons ⟨h.value, ?_, ?_⟩ .nil)
  · intro _ hinner
    cases hinner
  · intro _ source hs hmem
    have hlt := h.formed.sources hs
    have hclaimed : source.base ∈ T.claimed := by
      simp only [Take.claimed, List.mem_append]
      exact .inr hmem
    rcases h.account.origin _ hclaimed with hmem | ⟨hN, -⟩
    · have heq : source.base = scrutinee.value := by simpa using hmem
      rw [heq] at hlt
      omega
    · have hknown := h.known
      omega

theorem Leaf.tainted_iff (h : Leaf L m fb ctx scrutinee v p leaf state T) {r : MatrixRow}
    (hr : r.claimed = T.claimed) : T.tainted = false ↔
      ∀ d ∈ T.decomposed, Clean state (r.claims leaf.payloadSources d.1 d.2.1 d.2.2) := by
  have howning := h.owning
  constructor
  · intro htainted d hd c hc u hu
    obtain ⟨hclaimed, hsource⟩ := mem_claims.mp hc
    rw [hr] at hclaimed
    obtain ⟨pos, hpos, hinner⟩ := howning.claimed c.2 hclaimed _ hsource (List.mem_map_of_mem hd)
    obtain ⟨-, hvalue, -⟩ := howning.own _ hpos
    rw [hu] at hvalue
    cases hvalue
    have hclean := List.any_eq_false.mp htainted _ hpos
    simpa [Position.taints, hinner] using hclean
  · intro hclean
    refine List.any_eq_false.mpr fun q hq htaints => ?_
    obtain ⟨hinner, hnan⟩ : q.2.inner = true ∧ q.2.value.hasNan = true := by
      simpa [Position.taints] using htaints
    obtain ⟨hclaimed, hvalue, hfrom⟩ := howning.own q hq
    obtain ⟨source, typeArgs, payload, hsource, hshell, -, -⟩ := hfrom hinner
    have hmem : (source.index, q.1) ∈
        r.claims leaf.payloadSources source.base source.variant source.case :=
      mem_claims.mpr ⟨hr ▸ hclaimed, hsource⟩
    have hno := hclean _ hshell _ hmem _ hvalue
    rw [hnan] at hno
    cases hno

theorem Leaf.root (h : Leaf L m fb ctx scrutinee v p leaf state T) {id : ValueId}
    (hid : id ∈ T.claimed) (hne : id ≠ scrutinee.value) :
    fb.nextValue ≤ id.index ∧ canonicalRoot ctx.loadOrigin id = id := by
  rcases h.account.origin id hid with hmem | ⟨hN, source, hsource, -⟩
  · exact absurd (by simpa using hmem) hne
  · obtain ⟨ty, i, block, hblock, hmem⟩ := h.formed.reads hsource
    obtain ⟨b, hb, hprefix, -⟩ := h.within hblock
    rw [h.origin]
    refine ⟨hN, canonicalRoot_of_defined h.once (List.mem_flatMap.mpr ⟨b, ?_, hprefix.subset hmem⟩)
      (by simp)⟩
    exact List.mem_of_find?_eq_some hb

theorem Leaf.root_ne (h : Leaf L m fb ctx scrutinee v p leaf state T) {a b : ValueId}
    (ha : a ∈ T.claimed) (hb : b ∈ T.claimed) (hne : a ≠ b) :
    canonicalRoot ctx.loadOrigin a ≠ b ∧
      canonicalRoot ctx.loadOrigin a ≠ canonicalRoot ctx.loadOrigin b := by
  have hstorage := h.storage
  by_cases has : a = scrutinee.value
  · subst has
    obtain ⟨hN, hroot⟩ := h.root hb hne.symm
    rw [hroot, and_self]
    intro heq
    rw [heq] at hstorage
    omega
  · obtain ⟨hN, hroot⟩ := h.root ha has
    rw [hroot]
    refine ⟨hne, fun heq => ?_⟩
    by_cases hbs : b = scrutinee.value
    · rw [hbs] at heq
      rw [← heq] at hstorage
      omega
    · exact hne (heq.trans (h.root hb hbs).2)

theorem Leaf.parts (h : Leaf L m fb ctx scrutinee v p leaf state T) :
    T.Parts m state.resources ctx.subst state.values [⟨scrutinee.ty, v, false⟩] := by
  refine h.takes.parts (.cons ⟨rfl, h.value⟩ .nil) (fun q hq => ?_) (List.pairwise_singleton _ _)
  obtain rfl := List.mem_singleton.mp hq
  exact ⟨h.runs, h.owned⟩

theorem Leaf.ready (h : Leaf L m fb ctx scrutinee v p leaf state T) {r : MatrixRow}
    (hr : r.claimed = T.claimed) {d : ValueId × ItemId × ℕ} (hd : d ∈ T.decomposed) :
    ∃ typeArgs payload, Ready m ctx.loadOrigin state d
      (r.claims leaf.payloadSources d.1 d.2.1 d.2.2) typeArgs payload := by
  have howning := h.owning
  obtain ⟨typeArgs, payload, hshell, howned⟩ := h.parts.shells d hd
  have hclaimed : d.1 ∈ T.claimed := by
    simp only [Take.claimed, List.mem_append]
    exact .inr (List.mem_map_of_mem hd)
  refine ⟨typeArgs, payload, ?_, howned, ?_, fun c hc => ?_⟩
  · by_cases hne : d.1 = scrutinee.value
    · rw [hne] at hshell ⊢
      rw [h.stored, ← h.value, hshell]
    · rw [(h.root hclaimed hne).2, hshell]
  · apply nodup_claims
    rw [hr]
    exact h.account.apart
  · obtain ⟨hmem, hsource⟩ := mem_claims.mp hc
    rw [hr] at hmem
    obtain ⟨pos, hpos, hinner⟩ := howning.claimed c.2 hmem _ hsource (List.mem_map_of_mem hd)
    obtain ⟨-, hvalue, hfrom⟩ := howning.own _ hpos
    obtain ⟨source, typeArgs', payload', hsource', -, hbase, hpart⟩ := hfrom hinner
    rw [hsource] at hsource'
    cases hsource'
    rw [hshell] at hbase
    cases hbase
    exact ⟨pos.value, hpart, h.parts.own _ hpos, hvalue⟩

/-! ### Entering the arm -/

/-- What an instruction of a prologue does to the frame. -/
def prologueOp (m : Module) (loadOrigin : LoadOrigin) : Instruction → Op FrameState Unit
  | .decomposeVariant value item case taken => decomposeVariant m loadOrigin value item case taken
  | .drop value => execDrop m value
  | _ => pure ()

theorem performs_prologue {r : MatrixRow} {sources : AList (fun _ : ValueId => PayloadSource)} :
    ∀ i ∈ prologue L r sources, Performs ctx m fpu i (prologueOp m ctx.loadOrigin i) := by
  intro i hi call
  unfold prologue at hi
  rcases List.mem_append.mp hi with hi | hi
  · obtain ⟨d, -, rfl⟩ := List.mem_map.mp hi
    rfl
  · obtain ⟨o, -, rfl⟩ := List.mem_map.mp hi
    rfl

theorem forM_prologue {r : MatrixRow} {sources : AList (fun _ : ValueId => PayloadSource)}
    {s s' : FrameState} :
    (prologue L r sources).forM (prologueOp m ctx.loadOrigin) s = .ok ⟨⟩ s' ↔
      ∃ u, r.decomposed.forM (fun d => decomposeVariant m ctx.loadOrigin d.1 d.2.1 d.2.2
          (r.claims sources d.1 d.2.1 d.2.2)) s = .ok ⟨⟩ u ∧
        (r.discarded.reverse.filter fun o => L.isAffine o.ty).forM
          (fun o => execDrop m o.value) u = .ok ⟨⟩ s' := by
  unfold prologue
  rw [List.forM_eq_forM, List.forM_append, List.forM_map, List.forM_map]
  constructor
  · intro h
    obtain ⟨⟨⟩, u, hu, hrest⟩ := EStateM.bind_eq_ok.mp h
    exact ⟨u, hu, hrest⟩
  · rintro ⟨u, hu, hrest⟩
    exact EStateM.bind_eq_ok.mpr ⟨⟨⟩, u, hu, hrest⟩

theorem Leaf.distinct_claims (h : Leaf L m fb ctx scrutinee v p leaf state T) :
    (T.discarded.map (·.value)).Nodup ∧
      (∀ b ∈ T.bindings, ∀ o ∈ T.discarded, b.2 ≠ o.value) ∧
      ∀ id ∈ T.bindings.map (·.2) ++ T.discarded.map (·.value), ∀ d ∈ T.decomposed,
        id ≠ canonicalRoot ctx.loadOrigin d.1 := by
  have hnodup : T.claimed.Nodup := h.account.apart.imp fun hab => hab.1
  obtain ⟨hleft, -, hacross⟩ := List.nodup_append.mp hnodup
  obtain ⟨-, hdiscarded, hbound⟩ := List.nodup_append.mp hleft
  refine ⟨hdiscarded, fun b hb o ho => ?_, fun id hid d hd => ?_⟩
  · exact hbound _ (List.mem_map_of_mem hb) _ (List.mem_map_of_mem ho)
  · have hd' : d.1 ∈ T.decomposed.map (·.1) := List.mem_map_of_mem hd
    exact (h.root_ne (List.mem_append_right _ hd') (List.mem_append_left _ hid)
      (hacross id hid d.1 hd').symm).1.symm

/-- The parts a leaf discards are destroyed, and its locals stay. -/
theorem Leaf.drops (h : Leaf L m fb ctx scrutinee v p leaf state T) {u : FrameState}
    (hinterpreter : u.interpreter = state.interpreter)
    (hvalues : ∀ {id}, (∀ d ∈ T.decomposed, id ≠ canonicalRoot ctx.loadOrigin d.1) →
      u.values.lookup id = state.values.lookup id) :
    ∃ s', (T.discarded.reverse.filter fun o => L.isAffine o.ty).forM
        (fun o => execDrop m o.value) u = .ok ⟨⟩ s' ∧
      ∀ b ∈ T.bindings, s'.values.lookup b.2 = state.values.lookup b.2 := by
  obtain ⟨hnodup, hbound, hshells⟩ := h.distinct_claims
  have hresources : u.resources = state.resources :=
    congrArg InterpreterState.resources hinterpreter
  have hparts := h.parts
  have hloose : ∀ o ∈ T.discarded, u.values.lookup o.value = state.values.lookup o.value :=
    fun o ho => hvalues fun d hd => hshells o.value
      (List.mem_append_right _ (List.mem_map_of_mem ho)) d hd
  have hmem : ∀ o ∈ T.discarded.reverse.filter fun o => L.isAffine o.ty,
      o ∈ T.discarded ∧ L.isAffine o.ty = true := by
    intro o ho
    simpa using ho
  have hpairwise : T.discarded.Pairwise fun a b => b.value ≠ a.value ∧ ∀ x y,
      u.values.lookup b.value = some x → u.values.lookup a.value = some y →
      Apart u.resources x y := by
    have hapart := (List.pairwise_map.mp hnodup).and hparts.apart
    refine hapart.imp_of_mem fun {a b} ha hb hab => ⟨hab.1.symm, fun x y hx hy => ?_⟩
    rw [hloose b hb] at hx
    rw [hloose a ha] at hy
    rw [hresources]
    exact (hab.2 y x hy hx).symm
  obtain ⟨s', hok, hframe⟩ := Lower.drops (L := L) (s := u) h.describes ctx.subst
    (T.discarded.reverse.filter fun o => L.isAffine o.ty) (fun o ho => by
      obtain ⟨hdiscarded, haffine⟩ := hmem o ho
      obtain ⟨x, hx, hfits, howned, -⟩ := hparts.loose o hdiscarded
      rw [← hresources] at hfits howned
      exact ⟨x, (hloose o hdiscarded).trans hx, hfits, howned, haffine⟩)
    ((List.pairwise_reverse.mpr hpairwise).filter _)
  refine ⟨s', hok, fun b hb => ?_⟩
  rw [hframe fun o ho => hbound b hb o (hmem o ho).1]
  exact hvalues fun d hd => hshells b.2 (List.mem_append_left _ (List.mem_map_of_mem hb)) d hd

/-- The prologue of an arm runs to its end exactly when no NaN has to leave a
shell, and the values the arm binds are then as they were. -/
theorem Leaf.prologue (h : Leaf L m fb ctx scrutinee v p leaf state T) {r : MatrixRow}
    (hbindings : r.bindings = T.bindings) (hdiscarded : r.discarded = T.discarded)
    (hdecomposed : r.decomposed = T.decomposed) :
    ((∃ s', (prologue L r leaf.payloadSources).forM (prologueOp m ctx.loadOrigin) state =
        .ok ⟨⟩ s') → T.tainted = false) ∧
      (T.tainted = false →
        ∃ s', (prologue L r leaf.payloadSources).forM (prologueOp m ctx.loadOrigin) state =
          .ok ⟨⟩ s' ∧ ∀ b ∈ T.bindings, s'.values.lookup b.2 = state.values.lookup b.2) := by
  have hr : r.claimed = T.claimed := by
    rw [MatrixRow.claimed, hbindings, hdiscarded, hdecomposed]
    rfl
  have hordered : T.decomposed.Pairwise fun a b =>
      canonicalRoot ctx.loadOrigin b.1 ≠ canonicalRoot ctx.loadOrigin a.1 ∧
        ∀ c ∈ r.claims leaf.payloadSources b.1 b.2.1 b.2.2,
          c.2 ≠ canonicalRoot ctx.loadOrigin a.1 := by
    have hnodup : T.claimed.Nodup := h.account.apart.imp fun hab => hab.1
    have hshells : T.decomposed.Pairwise fun a b => a.1 ≠ b.1 :=
      List.pairwise_map.mp (List.nodup_append.mp hnodup).2.1
    have hclaimed : ∀ d ∈ T.decomposed, d.1 ∈ T.claimed :=
      fun d hd => List.mem_append_right _ (List.mem_map_of_mem hd)
    refine (hshells.and h.account.ordered).imp_of_mem fun {a b} ha hb hab => ⟨?_, fun c hc => ?_⟩
    · exact (h.root_ne (hclaimed b hb) (hclaimed a ha) hab.1.symm).2
    · obtain ⟨hmem, hsource⟩ := mem_claims.mp hc
      rw [hr] at hmem
      -- a shell is taken apart before the shells it holds
      have hne : a.1 ≠ c.2 := fun heq => hab.2 _ (heq ▸ hsource) rfl
      exact (h.root_ne (hclaimed a ha) hmem hne).1.symm
  have hrun := decompositions (m := m) (s := state) (fun d hd => h.ready hr hd) hordered
  rw [h.tainted_iff hr, ← hrun]
  constructor
  · rintro ⟨s', hok⟩
    obtain ⟨u, hu, -⟩ := forM_prologue.mp hok
    rw [hdecomposed] at hu
    exact ⟨u, hu⟩
  · rintro ⟨u, hu⟩
    obtain ⟨hinterpreter, -, hvalues⟩ := decompositions_frame hu
    obtain ⟨s', hok, hbound⟩ := h.drops hinterpreter hvalues
    refine ⟨s', forM_prologue.mpr ⟨u, ?_, ?_⟩, hbound⟩
    · rw [hdecomposed]
      exact hu
    · rw [hdiscarded]
      exact hok

end

/-! ### The locals of a pattern -/

mutual

/-- The locals a pattern can bind. -/
def HirPattern.locals : HirPattern → List LocalId
  | .bind _ binding => [binding]
  | .variant _ args => HirPattern.localsAll args
  | _ => []

def HirPattern.localsAll : List HirPattern → List LocalId
  | [] => []
  | p :: ps => p.locals ++ HirPattern.localsAll ps

end

section
variable {L : Lowering}

mutual

theorem binders_sublist : ∀ (p : HirPattern) (v : Value),
    ((L.binders p v).map (·.1)).Sublist p.locals
  | .bind id binding, v => by
    rw [Lowering.binders]
    split <;> simp [HirPattern.locals]
  | .variant id args, v => by
    cases v with
    | «variant» item typeArgs case payload =>
      rw [Lowering.binders, HirPattern.locals]
      exact bindersAll_sublist args payload
    | _ => simp [Lowering.binders]
  | .wildcard _, v | .int _, v | .str _, v | .char _, v | .bool _, v => by
    simp [Lowering.binders]

theorem bindersAll_sublist : ∀ (ps : List HirPattern) (vs : List Value),
    ((L.bindersAll ps vs).map (·.1)).Sublist (HirPattern.localsAll ps)
  | [], vs => by simp [Lowering.bindersAll]
  | p :: ps, [] => by simp [Lowering.bindersAll]
  | p :: ps, v :: vs => by
    rw [Lowering.bindersAll, HirPattern.localsAll, List.map_append]
    exact (binders_sublist p v).append (bindersAll_sublist ps vs)

end

theorem lookup_boundTo {bindings : List (LocalId × ValueId)}
    {locals : AList (fun _ : LocalId => LocalBinding)} (h : (bindings.map (·.1)).Nodup)
    {b : LocalId × ValueId} (hb : b ∈ bindings) :
    (boundTo bindings locals).lookup b.1 = some (.direct b.2) := by
  have hother : ∀ (bindings : List (LocalId × ValueId))
      (locals : AList (fun _ : LocalId => LocalBinding)) (x : LocalId),
      x ∉ bindings.map (·.1) → (boundTo bindings locals).lookup x = locals.lookup x := by
    intro bindings
    induction bindings with
    | nil => exact fun locals x _ => rfl
    | cons a bindings ih =>
      intro locals x hx
      rw [List.map_cons, List.mem_cons, not_or] at hx
      exact (ih _ x hx.2).trans (AList.lookup_insert_ne hx.1)
  induction bindings generalizing locals with
  | nil => cases hb
  | cons a bindings ih =>
    obtain ⟨hnot, hrest⟩ := List.nodup_cons.mp h
    rcases List.mem_cons.mp hb with rfl | hb
    · exact (hother bindings _ b.1 hnot).trans (AList.lookup_insert _)
    · exact ih hrest hb

end

section
variable {values : Values} {bindings : List (LocalId × ValueId)} {locals : List (LocalId × Value)}

theorem map_fst_of_forall₂
    (h : List.Forall₂ (fun b u => b.1 = u.1 ∧ values.lookup b.2 = some u.2) bindings locals) :
    bindings.map (·.1) = locals.map (·.1) := by
  induction h with
  | nil => rfl
  | cons hone _ ih => rw [List.map_cons, List.map_cons, hone.1, ih]

end

/-! ### The `match` as a whole -/

/-- The arm is the first one whose pattern accepts the value. -/
structure FirstAccepting (L : Lowering) (arms : List HirPattern) (v : Value) (i : ℕ)
    (p : HirPattern) : Prop where
  arm : arms[i]? = some p
  accepts : (L.resolvePattern p).accepts v = true
  first : ∀ j q, j < i → arms[j]? = some q → (L.resolvePattern q).accepts v = false

theorem firstAccepting_of_decided {L : Lowering} {arms : List HirPattern} {ty : Ty} {v : Value}
    {i : ℕ} (h : FirstIn (fun c => c.accepts L [⟨ty, v, false⟩] = true)
      (arms.zipIdx.map fun p => { arm := p.2, slots := [.real p.1] }) i) :
    ∃ p, FirstAccepting L arms v i p := by
  obtain ⟨before, c, after, heq, harm, haccepts, hbefore⟩ := h
  have hget : ∀ j, (before ++ c :: after)[j]? =
      arms[j]?.map fun p => ({ arm := j, slots := [.real p] } : Contender) := by
    intro j
    rw [← heq, List.getElem?_map, List.getElem?_zipIdx]
    cases arms[j]? <;> simp
  have hone : ∀ (j : ℕ) (q : HirPattern),
      (({ arm := j, slots := [.real q] } : Contender).accepts L [⟨ty, v, false⟩]) =
        (L.resolvePattern q).accepts v := by
    intro j q
    simp [Contender.accepts, Lowering.resolveSlot]
  have hc := hget before.length
  rw [List.getElem?_append_right le_rfl, Nat.sub_self, List.getElem?_cons_zero] at hc
  obtain ⟨p, hp, hcp⟩ := Option.map_eq_some_iff.mp hc.symm
  subst hcp
  subst harm
  refine ⟨p, hp, (hone _ p).symm.trans haccepts, fun j q hj hq => ?_⟩
  have hd := hget j
  rw [List.getElem?_append_left hj, hq] at hd
  have hnot := hbefore _ (List.mem_of_getElem? hd)
  rw [← hone j q, ← Bool.not_eq_true]
  exact hnot

/-- A `match` that lowers: where the values of its arms go, the builder its
decision starts from and the builder it ends with. -/
inductive LowersMatch (L : Lowering) (lowerArm : ArmSink → ℕ → Build Unit)
    (scrutinee : Occurrence) (arms : List HirPattern) : ArmSink → FnBuilder → FnBuilder → Prop
  | merge {resultTy : Ty} {result : LoweredExpr} {fb fb' : FnBuilder} {code : List Instruction} :
      resultTy ≠ .never → fb.Stands code →
      (lowerMatch L lowerArm scrutinee arms resultTy).run fb = .ok (result, fb') →
      LowersMatch L lowerArm scrutinee arms (.merge ⟨fb.nextValue⟩ ⟨fb.blocks.length⟩)
        (fb.define resultTy .alloc).opened fb'
  | diverge {result : LoweredExpr} {fb fb' : FnBuilder} :
      (lowerMatch L lowerArm scrutinee arms .never).run fb = .ok (result, fb') →
      LowersMatch L lowerArm scrutinee arms .diverge fb fb'
  | finish {result : LoweredExpr} {fb fb' : FnBuilder} :
      (lowerMatchIntoReturnSink L lowerArm scrutinee arms).run fb = .ok (result, fb') →
      LowersMatch L lowerArm scrutinee arms .finish fb fb'

/-- The arm a run has come to: the point its own code starts at, the code it runs
before its body, and the builder its body is lowered from. -/
structure ArmReached (m : Module) (fpu : FloatUnit) (arm : ArmLowering) (sink : ArmSink)
    (start : Point) (i : ℕ) where
  state : FrameState
  opening : List Instruction
  rest : List Instruction
  terminator : Terminator
  body : FnBuilder
  after : FnBuilder
  leads : Leads m fpu start ⟨start.ctx, state, opening ++ rest, terminator⟩
  lowered : (arm.lower sink i).run body = .ok (⟨⟩, after)
  within : after.Within start.ctx.function
  continues : body.Continues start.ctx.function rest terminator

/-- The run goes on into the body, with every local holding its value. -/
def ArmReached.RunsBody {m : Module} {fpu : FloatUnit} {arm : ArmLowering} {sink : ArmSink}
    {start : Point} {i : ℕ} (A : ArmReached m fpu arm sink start i)
    (locals : List (LocalId × Value)) : Prop :=
  ∃ s', Leads m fpu ⟨start.ctx, A.state, A.opening ++ A.rest, A.terminator⟩
      ⟨start.ctx, s', A.rest, A.terminator⟩ ∧
    ∀ b ∈ locals, ∃ id, A.body.localBindings.lookup b.1 = some (.direct id) ∧
      s'.values.lookup id = some b.2

section
variable {m : Module} {fpu : FloatUnit} {L : Lowering} {arm : ArmLowering} {sink : ArmSink}
  {scrutinee : Occurrence} {arms : List HirPattern} {start fb' : FnBuilder} {ctx : FrameContext}
  {s : FrameState} {is : List Instruction} {t : Terminator} {v : Value} {rs : List Scored}
  {w : Contender} {p : HirPattern}

theorem LowersMatch.decided (h : LowersMatch L arm.lower scrutinee arms sink start fb')
    (hformed : start.Formed) {code : List Instruction} (hs : start.Stands code)
    (hknown : scrutinee.value.index < start.nextValue) :
    ∃ fb, (decideArms L arm.lower sink scrutinee arms).run start = .ok (⟨⟩, fb) ∧
      fb.Below fb' := by
  cases h with
  | @merge resultTy result fb₀ _ code₀ hne hopen hrun =>
    have halloc : (allocSlot resultTy).run fb₀ =
        .ok (⟨fb₀.nextValue⟩, fb₀.define resultTy .alloc) := rfl
    have hlength : (fb₀.define resultTy .alloc).blocks.length = fb₀.blocks.length :=
      FnBuilder.length_onCurrent _ _
    unfold lowerMatch at hrun
    rw [if_neg hne, run_bind_ok halloc, run_bind_ok (FnBuilder.run_newBlock _), hlength] at hrun
    obtain ⟨⟨⟩, fb, hdecide, hrun⟩ := run_bind_eq_ok.mp hrun
    rw [run_bind_ok (FnBuilder.run_switchTo _ _), run_bind_ok (FnBuilder.run_pushValue _ _ _)]
      at hrun
    cases hrun
    refine ⟨fb, hdecide, ?_⟩
    -- the block the arms join in is left alone by the decision
    have hgrows := (lowerDecision_grows L arm _ _ _ _ _ (by simpa using hknown) hformed hs le_rfl
      hdecide).1
    have hjoin := FnBuilder.block_opened (fb₀.define resultTy .alloc)
    rw [hlength] at hjoin
    have hcurrent : fb₀.blocks.length ≠ (fb₀.define resultTy .alloc).opened.current.index :=
      hopen.current_lt.ne'
    have hstands : (fb.movedTo ⟨fb₀.blocks.length⟩).Stands [] := hgrows.kept hcurrent hjoin
    exact FnBuilder.Below.of_movedTo (FnBuilder.emits_define hstands _ _).grows.toBelow
  | diverge hrun =>
    unfold lowerMatch at hrun
    rw [if_pos rfl] at hrun
    obtain ⟨⟨⟩, fb, hdecide, hrun⟩ := run_bind_eq_ok.mp hrun
    cases hrun
    exact ⟨_, hdecide, .refl _⟩
  | finish hrun =>
    obtain ⟨⟨⟩, fb, hdecide, hrun⟩ := run_bind_eq_ok.mp hrun
    cases hrun
    exact ⟨_, hdecide, .refl _⟩

theorem Scrutinizes.of_agrees {u : FrameState} (h : Scrutinizes L m start ctx s scrutinee v)
    (hu : Agrees start.nextValue s u) : Scrutinizes L m start ctx u scrutinee v := by
  refine ⟨h.describes, h.once, h.origin, h.known, h.storage, (hu.values h.known).trans h.value,
    (hu.values h.storage).trans h.stored, ?_, ?_⟩
  · rw [hu.resources]
    exact h.runs
  · rw [hu.resources]
    exact h.owned

/-- The arm that is arrived at runs into its body unless it is tainted. -/
theorem Arrival.reaches
    (A : Arrival m fpu L arm sink start ⟨ctx, s, is, t⟩ rs [scrutinee] [⟨scrutinee.ty, v, false⟩] w)
    (hrow : A.row = (⟨A.row.1.armIndex, [.real p], [], [], []⟩, false))
    (hlocals : p.locals.Nodup) (hscr : Scrutinizes L m start ctx s scrutinee v) :
    ∃ B : ArmReached m fpu arm sink ⟨ctx, s, is, t⟩ A.row.1.armIndex,
      B.RunsBody (L.binders p v) ↔ w.tainted = false := by
  obtain ⟨code, -, hstands, -⟩ := A.continues
  obtain ⟨⟨⟩, body, henter, hlowered⟩ := run_bind_eq_ok.mp A.lowered
  obtain ⟨body', henter', hemits, hformed, hbound⟩ := run_enterArm L
    (A.row.1.finish A.take) A.formed hstands
  rw [henter] at henter'
  cases henter'
  have hgrows := (arm.grows hformed (hemits.stands hstands) hlowered).1
  have hbody : body.Within ctx.function := FnBuilder.Within.of_below hgrows.toBelow A.within
  obtain ⟨rest, hrest, hcont⟩ := A.continues.emits hemits hbody
  have hwinner : A.row.1.finish A.take =
      ⟨A.row.1.armIndex, [], A.take.bindings, A.take.discarded, A.take.decomposed⟩ := by
    have hrow' := congrArg Prod.fst hrow
    rw [hrow']
    simp [MatrixRow.finish]
  have hleaf : Leaf L m start ctx scrutinee v p A.leaf A.state A.take := by
    refine ⟨hscr.of_agrees A.agrees, ?_, A.formed,
      FnBuilder.Within.of_below hemits.grows.toBelow hbody⟩
    have htakes := A.takes
    rw [hrow] at htakes
    exact htakes
  have htainted : w.tainted = A.take.tainted := by
    rw [A.tainted, hrow]
    rfl
  obtain ⟨honly, hruns⟩ := hleaf.prologue (r := A.row.1.finish A.take) (by rw [hwinner])
    (by rw [hwinner]) (by rw [hwinner])
  refine ⟨⟨A.state, prologue L (A.row.1.finish A.take) A.leaf.payloadSources, rest, A.terminator,
    body, A.after, hrest ▸ A.leads, hlowered, A.within, hcont⟩, ?_⟩
  rw [htainted]
  constructor
  · rintro ⟨s', hleads, -⟩
    exact honly (straight_of_leads performs_prologue hleads)
  · intro hclean
    obtain ⟨s', hok, hkept⟩ := hruns hclean
    refine ⟨s', leads_straight performs_prologue hok, fun b hb => ?_⟩
    have hbinds := hleaf.takes.binds (.cons ⟨rfl, hleaf.value⟩ .nil)
    have hbinders : L.slotBinders [.real p] [v] = L.binders p v := by
      simp [Lowering.slotBinders]
    rw [List.map_cons, List.map_nil, hbinders] at hbinds
    obtain ⟨a, ha, hlocal, hvalue⟩ := hbinds.exists_left hb
    have hnodup : (A.take.bindings.map (·.1)).Nodup := by
      rw [map_fst_of_forall₂ hbinds]
      exact (binders_sublist p v).nodup hlocals
    refine ⟨a.2, ?_, (hkept a ha).trans hvalue⟩
    rw [hbound, ← hlocal]
    apply lookup_boundTo
    · rw [hwinner]
      exact hnodup
    · rw [hwinner]
      exact ha

/-- A `match` that lowers comes, on a value of the scrutinee's type that the frame
owns, to the first arm whose pattern accepts the value. The arm's body is entered,
with each local of the pattern holding the value at its position, exactly when the
arm takes no NaN out of a shell. -/
theorem match_runs_first_iff (fpu : FloatUnit)
    (hlower : LowersMatch L arm.lower scrutinee arms sink start fb')
    (hformed : start.Formed) (hwithin : fb'.Within ctx.function)
    (hcont : start.Continues ctx.function is t)
    (htyped : ∀ p ∈ arms,
      Typed (spaceOf L.module) literalDomain (L.resolvePattern p) scrutinee.ty)
    (hlocals : ∀ p ∈ arms, p.locals.Nodup)
    (hscrutinee : Scrutinizes L m start ctx s scrutinee v) :
    ∃ i p, FirstAccepting L arms v i p ∧
      ∃ reached : ArmReached m fpu arm sink ⟨ctx, s, is, t⟩ i,
        reached.RunsBody (L.binders p v) ↔ L.takesNan scrutinee.ty arms v = false := by
  have hcont' := hcont
  obtain ⟨code, -, hstands, -⟩ := hcont'
  obtain ⟨fb, hdecide, hbelow⟩ := hlower.decided hformed hstands hscrutinee.known
  let rs : List Scored := arms.zipIdx.map fun p => ({ armIndex := p.2, patterns := [.real p.1] }, false)
  have hrows : rs.map Prod.fst =
      arms.zipIdx.map fun p => { armIndex := p.2, patterns := [.real p.1] } := by
    simp [rs]
  have hcontend : rs.map contend =
      arms.zipIdx.map fun p => { arm := p.2, slots := [.real p.1] } := by
    simp [rs, contend]
  have hmem : ∀ x ∈ rs, ∃ q, arms[x.1.armIndex]? = some q ∧
      x = (⟨x.1.armIndex, [.real q], [], [], []⟩, false) := by
    intro x hx
    obtain ⟨q, hq, rfl⟩ := List.mem_map.mp hx
    exact ⟨q.1, List.mk_mem_zipIdx_iff_getElem?.mp hq, rfl⟩
  have hstanding : List.Forall₂ (Standing L ctx s) [scrutinee] [⟨scrutinee.ty, v, false⟩] :=
    .cons ⟨rfl, hscrutinee.value, hscrutinee.runs⟩ .nil
  have htyped' : RowsTyped L literalDomain (arms.zipIdx.map fun p =>
      ({ armIndex := p.2, patterns := [.real p.1] } : MatrixRow)) [scrutinee.ty] := by
    intro r hr
    obtain ⟨q, hq, rfl⟩ := List.mem_map.mp hr
    exact .cons (htyped q.1 (List.fst_mem_of_mem_zipIdx hq)) .nil
  obtain ⟨w, hw, ⟨A⟩⟩ := lowerDecision_follows m fpu L arm sink (Limits.maxPatternDepth + 1)
    hformed hstands (by simpa using hscrutinee.known) hdecide
    (FnBuilder.Within.of_below hbelow hwithin) hrows htyped' hstanding hcont
  rw [hcontend] at hw
  have hfirst := decideOn_first s.resources ctx.subst
    (fun c hc => by
      obtain ⟨q, -, rfl⟩ := List.mem_map.mp hc
      rfl)
    (fun pos hpos => by
      obtain rfl := List.mem_singleton.mp hpos
      exact hscrutinee.runs) hw
  obtain ⟨p, hp⟩ := firstAccepting_of_decided hfirst
  obtain ⟨q, hq, hrow⟩ := hmem A.row A.mem
  have harm := A.arm_eq
  rw [← harm, hp.arm] at hq
  cases hq
  have hnan : L.takesNan scrutinee.ty arms v = w.tainted := by
    simp [Lowering.takesNan, hw]
  obtain ⟨reached, hreached⟩ := A.reaches hrow
    (hlocals p (List.mem_of_getElem? hp.arm)) hscrutinee
  rw [hnan]
  rw [harm] at hp
  exact ⟨_, p, hp, reached, hreached⟩

end

/-! ### A payload that is a float -/

/-- Arms that return at once. -/
def returningArms : ArmLowering where
  lower := fun _ _ => terminate (.ret none)
  grows := by
    intro sink i fb fb' code hformed hs hrun
    cases hrun
    exact ⟨FnBuilder.grows_close hs _, hformed.close _⟩

/-- A variant with the cases `Some(f64)` and `None`. -/
def sampleVariants : List (ItemId × VariantLayout) :=
  [(⟨0⟩, ⟨⟨0⟩, [], [⟨⟨0⟩, [.f64]⟩, ⟨⟨1⟩, []⟩]⟩)]

def sampleLowering : Lowering where
  module := { variants := sampleVariants }
  patternCase := AList.insert ⟨0⟩ (⟨0⟩, 0) (AList.insert ⟨1⟩ (⟨0⟩, 1) ∅)
  displayTy := fun _ => "f64"

/-- The arms `Some(x)` and `None`. -/
def sampleArms : List HirPattern := [.variant ⟨0⟩ [.bind ⟨2⟩ ⟨0⟩], .variant ⟨1⟩ []]

def sampleScrutinee : Occurrence := ⟨⟨0⟩, .named ⟨0⟩⟩

/-- What the `match` lowers to, from a function that has its scrutinee as
parameter. -/
def sampleBuilt : FnBuilder where
  nextValue := 2
  localBindings := AList.insert ⟨0⟩ (.direct ⟨1⟩) ∅
  blocks :=
    [⟨⟨0⟩, [], some (.switch ⟨0⟩ ⟨0⟩ [⟨1⟩, ⟨2⟩])⟩,
      ⟨⟨1⟩, [.value ⟨1⟩ .f64 (.variantPayload ⟨0⟩ ⟨0⟩ 0 0), .decomposeVariant ⟨0⟩ ⟨0⟩ 0 [(0, ⟨1⟩)]],
        some (.ret none)⟩,
      ⟨⟨2⟩, [.decomposeVariant ⟨0⟩ ⟨0⟩ 1 []], some (.ret none)⟩]
  current := ⟨2⟩
  payloadSources := AList.insert ⟨1⟩ ⟨⟨0⟩, ⟨0⟩, 0, 0⟩ ∅

/-- The function made of these blocks. -/
def sampleFunction : Function :=
  ⟨⟨1⟩, ⟨2⟩, [], [], [⟨⟨0⟩, .named ⟨0⟩, true⟩], .unit, [],
    [⟨⟨0⟩, [], .switch ⟨0⟩ ⟨0⟩ [⟨1⟩, ⟨2⟩]⟩,
      ⟨⟨1⟩, [.value ⟨1⟩ .f64 (.variantPayload ⟨0⟩ ⟨0⟩ 0 0), .decomposeVariant ⟨0⟩ ⟨0⟩ 0 [(0, ⟨1⟩)]],
        .ret none⟩,
      ⟨⟨2⟩, [.decomposeVariant ⟨0⟩ ⟨0⟩ 1 []], .ret none⟩]⟩

def sampleModule : Module := { functions := [sampleFunction], variants := sampleVariants }

def someFloat (x : F64) : Value := .variant ⟨0⟩ [] 0 [.float x]

def floatOne : F64 := ⟨0x3FF0000000000000#64⟩

def floatNan : F64 := ⟨0x7FF8000000000000#64⟩

def sampleContext : FrameContext :=
  ⟨sampleFunction, [], ∅, [], loadOriginOf sampleFunction⟩

def sampleState (x : F64) : FrameState :=
  ⟨{ callDepth := 1 }, AList.insert ⟨0⟩ (someFloat x) ∅, []⟩

theorem sample_lowers :
    (lowerMatchIntoReturnSink sampleLowering returningArms.lower sampleScrutinee sampleArms).run
      { nextValue := 1 } = .ok (.diverged, sampleBuilt) := by
  with_unfolding_all rfl

theorem sample_scrutinizes (x : F64) : Scrutinizes sampleLowering sampleModule { nextValue := 1 }
    sampleContext (sampleState x) sampleScrutinee (someFloat x) := by
  have hroot : canonicalRoot sampleContext.loadOrigin ⟨0⟩ = ⟨0⟩ := rfl
  have hhandles : (someFloat x).handles = [] := rfl
  refine ⟨⟨rfl, rfl⟩, ?_, rfl, Nat.zero_lt_one, ?_, rfl, ?_, ?_, ?_⟩
  · simp [AssignsOnce, sampleContext, sampleFunction, resultOf]
  · exact hroot ▸ Nat.zero_lt_one
  · exact hroot ▸ rfl
  · refine .shell rfl rfl rfl rfl (fun i u uty hu huty => ?_) ⟨rfl, rfl, rfl⟩
    obtain rfl : i = 0 := by
      have hlt := (List.getElem?_eq_some_iff.mp hu).choose
      exact Nat.lt_one_iff.mp hlt
    cases hu
    cases huty
    exact .plain rfl ⟨rfl, rfl, rfl⟩
  · refine ⟨rfl, fun k hk => ?_, fun id hid => ?_⟩
    · cases hk with
      | inline hk | field hk => simp [hhandles] at hk
    · cases hid with
      | handle hk | field hk => simp [hhandles] at hk

theorem sample_typed : ∀ p ∈ sampleArms, Typed (spaceOf sampleLowering.module) literalDomain
    (sampleLowering.resolvePattern p) sampleScrutinee.ty := by
  have hspace : space (spaceOf sampleLowering.module) (.named ⟨0⟩) = .variant ⟨0⟩ [[.f64], []] := rfl
  intro p hp
  simp only [sampleArms, List.mem_cons, List.not_mem_nil, or_false] at hp
  rcases hp with rfl | rfl
  · exact .variant hspace rfl (.cons .wildcard .nil)
  · exact .variant hspace rfl .nil

theorem sample_within : sampleBuilt.Within sampleFunction := by
  intro i block hblock
  match i with
  | 0 | 1 | 2 =>
    cases hblock
    exact ⟨_, rfl, List.prefix_rfl, fun t ht => ⟨rfl, Option.some.inj ht⟩⟩
  | i + 3 => simp [sampleBuilt] at hblock

/-- A `match` on `Some(1.0)` enters the body of its first arm. -/
theorem match_runs_first_one :
    sampleLowering.takesNan (.named ⟨0⟩) sampleArms (someFloat floatOne) = false ∧
    ∃ i p, FirstAccepting sampleLowering sampleArms (someFloat floatOne) i p ∧
      ∃ reached : ArmReached sampleModule idleUnit returningArms .finish
        ⟨sampleContext, sampleState floatOne, [], .switch ⟨0⟩ ⟨0⟩ [⟨1⟩, ⟨2⟩]⟩ i,
        reached.RunsBody (sampleLowering.binders p (someFloat floatOne)) := by
  have hclean : sampleLowering.takesNan (.named ⟨0⟩) sampleArms (someFloat floatOne) = false := by
    with_unfolding_all rfl
  have hformed : ({ nextValue := 1 } : FnBuilder).Formed := by
    refine ⟨fun {i block} h => ?_, fun h => by simp at h, fun h => by simp at h⟩
    match i with
    | 0 =>
      cases h
      rfl
    | i + 1 => simp at h
  have hcont : ({ nextValue := 1 } : FnBuilder).Continues sampleFunction []
      (.switch ⟨0⟩ ⟨0⟩ [⟨1⟩, ⟨2⟩]) := ⟨[], _, rfl, rfl, rfl, rfl⟩
  obtain ⟨i, p, hp, reached, hreached⟩ := match_runs_first_iff (m := sampleModule) idleUnit
    (LowersMatch.finish sample_lowers) hformed sample_within hcont sample_typed
    (by simp [sampleArms, HirPattern.locals, HirPattern.localsAll]) (sample_scrutinizes floatOne)
  exact ⟨hclean, i, p, hp, reached, hreached.mpr hclean⟩

/-- On `Some(NaN)` the first arm accepts as well, and the run stops before its
body: the NaN that the arm binds differs from the one the shell holds. -/
theorem match_on_nan_stops :
    (lowerMatchIntoReturnSink sampleLowering returningArms.lower sampleScrutinee sampleArms).run
      { nextValue := 1 } = .ok (.diverged, sampleBuilt) ∧
    sampleBuilt.Within sampleFunction ∧
    FirstAccepting sampleLowering sampleArms (someFloat floatNan) 0 (.variant ⟨0⟩ [.bind ⟨2⟩ ⟨0⟩]) ∧
    callItem sampleModule idleUnit 6 ⟨1⟩ [someFloat floatOne] {} = .ok .unit {} ∧
    callItem sampleModule idleUnit 6 ⟨1⟩ [someFloat floatNan] {} =
      .error (.failed (invalid ("a variant decomposition hands a payload position to a value that " ++
        "is not what that position holds"))) { terminated := true } := by
  refine ⟨sample_lowers, sample_within, ⟨rfl, ?_, fun j q hj => ?_⟩, ?_, ?_⟩
  · with_unfolding_all rfl
  · exact absurd hj (Nat.not_lt_zero j)
  · with_unfolding_all rfl
  · with_unfolding_all rfl

end Napitia.Lower
