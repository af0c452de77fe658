import Napitia.Interpreter.Declarations
import Napitia.Lower.FirstMatch

/-!
# A payload read and taken

Reading a payload position copies it into a value of its own; the decomposition
behind the reads moves it out of the shell. The interpreter accepts the move only
where the value handed on equals what the shell holds, and it compares the two the
way the source derives equality: a NaN that was just read is not the NaN it was
read from.
-/
namespace Napitia.Lower
open Nir Interpreter EStateM

/-- A payload position and the value it is read into. -/
structure PayloadRead where
  index : ℕ
  owner : ValueId
  ty : Ty

/-- The read, from a shell that is known to hold a case. -/
def PayloadRead.instruction (value : ValueId) (variant : ItemId) (case : ℕ) (r : PayloadRead) :
    Instruction :=
  .value r.owner r.ty (.variantPayload value variant case r.index)

/-- What a decomposition claims behind the read. -/
def PayloadRead.claim (r : PayloadRead) : ℕ × ValueId := (r.index, r.owner)

/-- Nothing a value reaches is held by an observation. -/
def Unleased (t : ResourceTable) (v : Value) : Prop :=
  ∀ id, Reaches t v id → t.activeLeaseHolding id = none

/-- The reads of a decomposition: each position once and each into a value of its own,
none of them the shell, of a type without parameters in the frame. -/
structure ReadsOnce (ctx : FrameContext) (value : ValueId) (reads : List PayloadRead) : Prop where
  positions : (reads.map (·.index)).Nodup
  owners : (reads.map (·.owner)).Nodup
  apart : ∀ r ∈ reads, r.owner ≠ value ∧ r.owner ≠ canonicalRoot ctx.loadOrigin value
  ground : ∀ r ∈ reads, ∀ p, substitute r.ty ctx.subst ≠ .param p

/-- The frame holds a shell that is well formed. -/
structure HoldsShell (m : Module) (ctx : FrameContext) (s : FrameState) (value : ValueId)
    (variant : ItemId) (case : ℕ) (typeArgs : List Ty) (payload : List Value) : Prop where
  held : s.values.lookup value = some (.variant variant typeArgs case payload)
  root : s.values.lookup (canonicalRoot ctx.loadOrigin value) =
    some (.variant variant typeArgs case payload)
  graph : validateOwnedGraph m s.resources (.variant variant typeArgs case payload) = .ok ⟨⟩

/-- The shell after the decomposition: a tombstone at each claimed position, what it held
at every other, and nothing else in the frame changed. -/
structure Tombstoned (s s' : FrameState) (root : ValueId) (variant : ItemId) (case : ℕ)
    (typeArgs : List Ty) (payload : List Value) (taken : List ℕ) : Prop where
  shell : ∃ left, s'.values.lookup root = some (.variant variant typeArgs case left) ∧
    left.length = payload.length ∧
      ∀ i, left[i]? = if i ∈ taken then payload[i]?.map fun _ => Value.moved else payload[i]?
  rest : ∀ id, id ≠ root → s'.values.lookup id = s.values.lookup id
  interpreter : s'.interpreter = s.interpreter
  leases : s'.activeLeases = s.activeLeases

section
variable {m : Module} {fpu : FloatUnit} {call : Call} {ctx : FrameContext} {s s' : FrameState}
  {value : ValueId} {variant : ItemId} {case : ℕ} {typeArgs : List Ty} {payload : List Value}
  {reads : List PayloadRead} {r : PayloadRead}

/-! ### The reads -/

theorem evalVariantPayload_index {values : Values} {v : Value} {index : ℕ}
    (hvalue : values.lookup value = some (.variant variant typeArgs case payload))
    (h : evalVariantPayload values value variant case index = .ok v) : payload[index]? = some v := by
  have hread : values.read value = .ok (.variant variant typeArgs case payload) :=
    read_eq_ok.mpr hvalue
  unfold evalVariantPayload at h
  obtain ⟨shell, hshell, h⟩ := Except.bind_eq_ok.mp h
  rw [hread] at hshell
  cases hshell
  cases hv : payload[index]? with
  | none =>
    simp only [hv, and_self, if_true] at h
    cases h
  | some w =>
    simp only [hv, and_self, if_true] at h
    cases h
    rfl

theorem isTombstone_of_declared {t : ResourceTable} {v : Value} {declared : Ty}
    (hground : ∀ p, declared ≠ .param p) (h : argumentMatchesDeclared t v declared = .ok true) :
    v.isTombstone = false := by
  cases v with
  | moved | dropped =>
    cases declared with
    | param p => exact absurd rfl (hground p)
    | _ => cases h
  | _ => rfl

theorem execRead (hvalue : s.values.lookup value = some (.variant variant typeArgs case payload))
    (hground : ∀ p, substitute r.ty ctx.subst ≠ .param p)
    (h : execInstruction m fpu call ctx (r.instruction value variant case) s = .ok ⟨⟩ s') :
    ∃ v, payload[r.index]? = some v ∧ v.isTombstone = false ∧ s' = s.insert r.owner v := by
  obtain ⟨v, u, hcompute, -, hcheck, rfl⟩ := execValue_computes h
  obtain ⟨i, hi, rfl⟩ := inInterpreter_eq_ok.mp (get_bind_eq_ok.mp hcompute)
  obtain ⟨hv, rfl⟩ := ask_eq_ok.mp hi
  obtain ⟨ok, hok, hcheck⟩ := asked_eq_ok.mp (get_bind_eq_ok.mp hcheck)
  cases ok with
  | true => exact ⟨v, evalVariantPayload_index hvalue hv, isTombstone_of_declared hground hok, rfl⟩
  | false => exact absurd hcheck fail_ne_ok

theorem execReads (hvalue : s.values.lookup value = some (.variant variant typeArgs case payload))
    (howners : (reads.map (·.owner)).Nodup) (happart : ∀ r ∈ reads, r.owner ≠ value)
    (hground : ∀ r ∈ reads, ∀ p, substitute r.ty ctx.subst ≠ .param p)
    (h : (reads.map (·.instruction value variant case)).forM (execInstruction m fpu call ctx) s =
      .ok ⟨⟩ s') :
    s'.interpreter = s.interpreter ∧
      (∀ id, id ∉ reads.map (·.owner) → s'.values.lookup id = s.values.lookup id) ∧
      ∀ r ∈ reads, ∃ v, payload[r.index]? = some v ∧ v.isTombstone = false ∧
        s'.values.lookup r.owner = some v := by
  induction reads generalizing s with
  | nil =>
    obtain ⟨-, rfl⟩ := pure_eq_ok.mp h
    exact ⟨rfl, fun _ _ => rfl, by simp⟩
  | cons r reads ih =>
    obtain ⟨⟨⟩, u, hr, hrest⟩ := bind_eq_ok.mp h
    obtain ⟨v, hv, hlive, rfl⟩ := execRead hvalue (hground r (by simp)) hr
    obtain ⟨hfresh, hnodup⟩ := List.nodup_cons.mp howners
    have hkeep : (s.insert r.owner v).values.lookup value =
        some (.variant variant typeArgs case payload) :=
      (AList.lookup_insert_ne (happart r (by simp)).symm).trans hvalue
    obtain ⟨hinterpreter, hothers, hreads⟩ := ih hkeep hnodup
      (fun r hr => happart r (by simp [hr])) (fun r hr => hground r (by simp [hr])) hrest
    refine ⟨hinterpreter, fun id hid => ?_, fun r' hr' => ?_⟩
    · have hne : id ≠ r.owner := fun heq => hid (by simp [heq])
      have hid' : id ∉ reads.map (·.owner) := fun hmem => hid (List.mem_cons_of_mem _ hmem)
      exact (hothers id hid').trans (AList.lookup_insert_ne hne)
    · rcases List.mem_cons.mp hr' with rfl | hr'
      · exact ⟨v, hv, hlive, (hothers _ hfresh).trans (AList.lookup_insert _)⟩
      · exact hreads r' hr'

/-! ### The decomposition -/

theorem getElem?_foldl_moved (taken : List (ℕ × ValueId)) (slots : List Value) (i : ℕ) :
    (taken.foldl (fun slots claim => slots.set claim.1 .moved) slots)[i]? =
      if i ∈ taken.map (·.1) then slots[i]?.map fun _ => Value.moved else slots[i]? := by
  induction taken generalizing slots with
  | nil => simp
  | cons c taken ih =>
    rw [List.foldl_cons, ih, List.map_cons]
    by_cases heq : i = c.1
    · subst heq
      by_cases hmem : c.1 ∈ taken.map (·.1)
      · cases hslot : slots[c.1]? <;> simp [hmem, List.getElem?_set_self', hslot]
      · cases hslot : slots[c.1]? <;> simp [hmem, List.getElem?_set_self', hslot]
    · have hset : (slots.set c.1 .moved)[i]? = slots[i]? := List.getElem?_set_ne (Ne.symm heq)
      rw [hset]
      simp only [List.mem_cons, heq, false_or]

theorem length_foldl_moved (taken : List (ℕ × ValueId)) (slots : List Value) :
    (taken.foldl (fun slots claim => slots.set claim.1 .moved) slots).length = slots.length := by
  induction taken generalizing slots with
  | nil => rfl
  | cons c taken ih => rw [List.foldl_cons, ih, List.length_set]

theorem decompose_tombstones {taken : List (ℕ × ValueId)}
    (hroot : s.values.lookup (canonicalRoot ctx.loadOrigin value) =
      some (.variant variant typeArgs case payload))
    (h : decomposeVariant m ctx.loadOrigin value variant case taken s = .ok ⟨⟩ s') :
    Tombstoned s s' (canonicalRoot ctx.loadOrigin value) variant case typeArgs payload
      (taken.map (·.1)) := by
  obtain ⟨typeArgs', payload', hread, -, -, -, rfl⟩ := decomposeVariant_eq_ok h
  rw [read_eq_ok.mpr hroot] at hread
  cases hread
  exact ⟨⟨_, AList.lookup_insert _, length_foldl_moved taken payload,
    getElem?_foldl_moved taken payload⟩, fun id hid => AList.lookup_insert_ne hid, rfl, rfl⟩

/-- A payload that was just read is taken, its positions tombstoned and no other, exactly
when nothing that stays in the shell is on loan and no position taken holds a NaN. -/
theorem decompose_fresh_iff (hshell : HoldsShell m ctx s value variant case typeArgs payload)
    (honce : ReadsOnce ctx value reads)
    (hreads : (reads.map (·.instruction value variant case)).forM
      (execInstruction m fpu call ctx) s = .ok ⟨⟩ s')
    (hfree : ∀ r ∈ reads, ∀ v, payload[r.index]? = some v → Unleased s.resources v) :
    (∃ u, execInstruction m fpu call ctx
        (.decomposeVariant value variant case (reads.map PayloadRead.claim)) s' = .ok ⟨⟩ u ∧
      Tombstoned s' u (canonicalRoot ctx.loadOrigin value) variant case typeArgs payload
        (reads.map (·.index))) ↔
    (∀ i v, i ∉ reads.map (·.index) → payload[i]? = some v → Unleased s.resources v) ∧
      ∀ r ∈ reads, ∀ v, payload[r.index]? = some v → v.hasNan = false := by
  obtain ⟨hinterpreter, hothers, hclaims⟩ := execReads hshell.held honce.owners
    (fun r hr => (honce.apart r hr).1) honce.ground hreads
  have hresources : s'.resources = s.resources := congrArg InterpreterState.resources hinterpreter
  have hpositions : (reads.map PayloadRead.claim).map (·.1) = reads.map (·.index) := by
    rw [List.map_map]
    rfl
  have hroot : s'.values.lookup (canonicalRoot ctx.loadOrigin value) =
      some (.variant variant typeArgs case payload) := by
    refine (hothers _ fun hmem => ?_).trans hshell.root
    obtain ⟨r, hr, hrr⟩ := List.mem_map.mp hmem
    exact (honce.apart r hr).2 hrr
  have hclaimable : Claimable s'.values payload (reads.map PayloadRead.claim) := by
    intro c hc
    obtain ⟨r, hr, rfl⟩ := List.mem_map.mp hc
    exact hclaims r hr
  have hgraph : validateOwnedGraph m s'.resources (.variant variant typeArgs case payload) =
      .ok ⟨⟩ := hresources ▸ hshell.graph
  have haccepts := decomposeVariant_accepts_iff (d := (value, variant, case)) hroot hgraph
    (hpositions ▸ honce.positions) hclaimable
  have hlease : (∀ v ∈ payload, rejectLeasedValue s'.resources v "decomposed out of its variant" =
      .ok ⟨⟩) ↔ ∀ i v, i ∉ reads.map (·.index) → payload[i]? = some v → Unleased s.resources v := by
    have hone : ∀ v ∈ payload, rejectLeasedValue s'.resources v "decomposed out of its variant" =
        .ok ⟨⟩ ↔ Unleased s.resources v := by
      intro v hv
      rw [rejectLeasedValue_eq_ok ((validateOwnedGraph_payload hgraph).1 v hv), hresources]
      rfl
    constructor
    · intro h i v _ hv
      exact (hone v (List.mem_of_getElem? hv)).mp (h v (List.mem_of_getElem? hv))
    · intro h v hv
      refine (hone v hv).mpr ?_
      obtain ⟨i, hi⟩ := List.getElem?_of_mem hv
      by_cases hmem : i ∈ reads.map (·.index)
      · obtain ⟨r, hr, rfl⟩ := List.mem_map.mp hmem
        exact hfree r hr v hi
      · exact h i v hmem hi
  have hclean : Clean s' (reads.map PayloadRead.claim) ↔
      ∀ r ∈ reads, ∀ v, payload[r.index]? = some v → v.hasNan = false := by
    constructor
    · intro h r hr v hv
      obtain ⟨w, hw, -, hlookup⟩ := hclaims r hr
      rw [hv] at hw
      cases hw
      exact h r.claim (List.mem_map_of_mem hr) v hlookup
    · intro h c hc w hw
      obtain ⟨r, hr, rfl⟩ := List.mem_map.mp hc
      obtain ⟨v, hv, -, hlookup⟩ := hclaims r hr
      rw [show r.claim.2 = r.owner from rfl, hlookup] at hw
      cases hw
      exact h r hr w hv
  rw [← hlease, ← hclean, ← haccepts]
  constructor
  · rintro ⟨u, hu, -⟩
    exact ⟨u, perform_eq_ok.mp hu⟩
  · rintro ⟨u, hu⟩
    exact ⟨u, perform_eq_ok.mpr hu, hpositions ▸ decompose_tombstones hroot hu⟩

end

/-! ### A payload that is a float -/

/-- The read of the payload of a `Some(x)`. -/
def sampleRead : PayloadRead := ⟨0, ⟨1⟩, .f64⟩

theorem sample_holdsShell (x : F64) : HoldsShell sampleModule sampleContext (sampleState x) ⟨0⟩ ⟨0⟩
    0 [] [.float x] :=
  ⟨rfl, rfl, rfl⟩

theorem sample_readsOnce : ReadsOnce sampleContext ⟨0⟩ [sampleRead] := by
  refine ⟨by simp, by simp, fun r hr => ?_, fun r hr p => ?_⟩
  · obtain rfl := List.mem_singleton.mp hr
    exact ⟨by decide, by decide⟩
  · obtain rfl := List.mem_singleton.mp hr
    intro h
    cases h

theorem sample_unleased (x : F64) (t : ResourceTable) : Unleased t (.float x) :=
  fun _ h => absurd h (not_reaches rfl)

/-- The sample's run of one instruction. -/
def runSample (i : Instruction) : Run FrameState Unit :=
  execInstruction sampleModule idleUnit (callFunction sampleModule idleUnit 0) sampleContext i

/-- The sample after the read. -/
def sampleReadState (x : F64) : FrameState := (sampleState x).insert ⟨1⟩ (.float x)

theorem sample_reads (x : F64) :
    ([sampleRead].map (·.instruction ⟨0⟩ ⟨0⟩ 0)).forM runSample (sampleState x) =
      .ok ⟨⟩ (sampleReadState x) := by
  with_unfolding_all rfl

/-- The payload `1.0` is taken. -/
theorem decompose_fresh_one : ∃ u, runSample
      (.decomposeVariant ⟨0⟩ ⟨0⟩ 0 ([sampleRead].map PayloadRead.claim)) (sampleReadState floatOne) =
        .ok ⟨⟩ u ∧
      Tombstoned (sampleReadState floatOne) u ⟨0⟩ ⟨0⟩ 0 [] [.float floatOne] [0] := by
  have hfree : ∀ (i : ℕ) v, [Value.float floatOne][i]? = some v →
      Unleased (sampleState floatOne).resources v := by
    intro i v hv
    have hmem := List.mem_singleton.mp (List.mem_of_getElem? hv)
    exact hmem ▸ sample_unleased floatOne _
  refine (decompose_fresh_iff (sample_holdsShell floatOne) sample_readsOnce (sample_reads floatOne)
    fun r _ v hv => hfree r.index v hv).mpr ⟨fun i v _ hv => hfree i v hv, fun r _ v hv => ?_⟩
  obtain rfl := List.mem_singleton.mp (List.mem_of_getElem? hv)
  with_unfolding_all rfl

/-- The payload NaN is refused: what was just read differs from what the shell holds. -/
theorem nan_payload_refused :
    HoldsShell sampleModule sampleContext (sampleState floatNan) ⟨0⟩ ⟨0⟩ 0 [] [.float floatNan] ∧
    ReadsOnce sampleContext ⟨0⟩ [sampleRead] ∧
    ([sampleRead].map (·.instruction ⟨0⟩ ⟨0⟩ 0)).forM runSample (sampleState floatNan) =
      .ok ⟨⟩ (sampleReadState floatNan) ∧
    Unleased (sampleState floatNan).resources (.float floatNan) ∧
    runSample (.decomposeVariant ⟨0⟩ ⟨0⟩ 0 ([sampleRead].map PayloadRead.claim))
      (sampleReadState floatNan) =
        .error (.failed (invalid ("a variant decomposition hands a payload position to a value " ++
          "that is not what that position holds"))) (sampleReadState floatNan) := by
  refine ⟨sample_holdsShell floatNan, sample_readsOnce, sample_reads floatNan,
    sample_unleased floatNan _, ?_⟩
  with_unfolding_all rfl

end Napitia.Lower
