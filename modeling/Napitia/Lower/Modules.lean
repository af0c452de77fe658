import Napitia.Hir.Declarations
import Napitia.Lower.WellFormed
import Napitia.Types

/-!
# Lowering a module

The ids of a module are checked, its layouts and signatures are resolved, and then every
function is lowered: the diagnostics of all of them are reported together. A module comes
out only where there is none.
-/
namespace Napitia.Lower
open Nir
open Hir.Declarations

/-! ### Types -/

def primitiveFromName : String → Option Ty
  | "i8" => some .i8
  | "i16" => some .i16
  | "i32" => some .i32
  | "i64" => some .i64
  | "isize" => some .isize
  | "u8" => some .u8
  | "u16" => some .u16
  | "u32" => some .u32
  | "u64" => some .u64
  | "usize" => some .usize
  | "f32" => some .f32
  | "f64" => some .f64
  | "bool" => some .bool
  | "char" => some .char
  | "str" => some .str
  | "unit" => some .unit
  | "never" => some .never
  | _ => none

section
variable (interner : Symbol → String)

mutual

/-- A reference as a type, down to the depth every stage stops at. -/
def resolveNamedTypeAtDepth (depth : ℕ) : HirType → Ty
  | .aggregate item args =>
    if depth > Limits.maxGenericDepth then .error
    else if args.isEmpty then .named item
    else .applied item (resolveNamedTypesAtDepth (depth + 1) args)
  | .param id => if depth > Limits.maxGenericDepth then .error else .param id
  | .unresolved name =>
    if depth > Limits.maxGenericDepth then .error
    else (primitiveFromName (interner name)).getD .error

def resolveNamedTypesAtDepth (depth : ℕ) : List HirType → List Ty
  | [] => []
  | ty :: rest => resolveNamedTypeAtDepth depth ty :: resolveNamedTypesAtDepth depth rest

end

def resolveNamedType (ty : HirType) : Ty := resolveNamedTypeAtDepth interner 0 ty

def resolveReturnType (ty : Option HirType) : Ty := (ty.map (resolveNamedType interner)).getD .unit

def resolveRequirement (requirement : HirCapabilityRequirement) : CapabilityRequirement :=
  ⟨requirement.protocol, requirement.arguments.map (resolveNamedType interner)⟩

/-! ### Identities -/

inductive ItemKind where
  | record
  | variant
  | function
  | protocol
  | extension
  deriving DecidableEq, Repr

def ItemKind.describe : ItemKind → String
  | .record => "record"
  | .variant => "variant"
  | .function => "function"
  | .protocol => "protocol"
  | .extension => "extend"

/-- An id with what it names. -/
structure Identity where
  id : ItemId
  kind : ItemKind
  name : Symbol

/-- The ids of a module in the order they are checked. An extend is shown by the name of
its protocol, and passed over where there is no such protocol. -/
def identities (hir : HirModule) : List Identity :=
  hir.records.map (fun r => ⟨r.id, .record, r.name⟩) ++
  hir.variants.map (fun v => ⟨v.id, .variant, v.name⟩) ++
  hir.functions.map (fun f => ⟨f.id, .function, f.name⟩) ++
  hir.protocols.map (fun p => ⟨p.id, .protocol, p.name⟩) ++
  hir.extensions.flatMap fun e =>
    ((hir.protocols.find? (·.id = e.protocol)).map fun p =>
      (⟨e.id, .extension, p.name⟩ : Identity)).toList ++
    e.methods.map fun m => ⟨m.id, .function, m.name⟩

def checkIdentities (seen : List (ItemId × ItemKind)) : List Identity → List Diagnostic
  | [] => []
  | item :: rest =>
    match seen.lookup item.id with
    | some existing =>
      let kept := if existing = item.kind then "another " ++ item.kind.describe
        else "a " ++ existing.describe
      internalError (item.kind.describe ++ " `" ++ interner item.name ++
        "` reuses an id already used by " ++ kept ++ " in this module") ::
        checkIdentities seen rest
    | none => checkIdentities ((item.id, item.kind) :: seen) rest

def validateItemIdentities (hir : HirModule) : List Diagnostic :=
  checkIdentities interner [] (identities hir)

/-! ### Layouts -/

def recordLayout (r : HirRecord) : RecordLayout :=
  ⟨r.name, r.typeParams, r.fields.map fun f => (f.name, resolveNamedType interner f.ty), r.affine⟩

def variantLayout (v : HirVariant) : VariantLayout :=
  ⟨v.name, v.typeParams, v.cases.map fun c => ⟨c.name, c.payload.map (resolveNamedType interner)⟩⟩

def protocolLayout (p : HirProtocol) : ProtocolLayout :=
  ⟨p.name, p.typeParams, p.methods.map fun m =>
    ⟨m.name, m.params.map (resolveNamedType interner), resolveReturnType interner m.returnType⟩⟩

/-- The layouts by id, the last one that was built first. -/
def recordLayouts (hir : HirModule) : List (ItemId × RecordLayout) :=
  (hir.records.map fun r => (r.id, recordLayout interner r)).reverse

def variantLayouts (hir : HirModule) : List (ItemId × VariantLayout) :=
  (hir.variants.map fun v => (v.id, variantLayout interner v)).reverse

def variantSources (hir : HirModule) : List (ItemId × SourceId) :=
  (hir.variants.map fun v => (v.id, v.source)).reverse

end

/-! ### Raised variants -/

/-- A file compiled alone has no module path; in a project every source has one. -/
inductive ModulePathMode where
  | singleFile
  | project (modulePathOf : SourceId → Option String)

/-- What a module is lowered with: the tables of the checkers, whose layouts and signatures
are filled in here, and the paths of the project. -/
structure ModuleLowering where
  tables : BodyLowering
  modulePathMode : ModulePathMode

section
variable (C : ModuleLowering) (hir : HirModule)

def modulePath (item : ItemId) : Except Diagnostic String :=
  let names := "a function's own `raises` names id " ++ debugId "ItemId" item.index
  match C.modulePathMode with
  | .singleFile => pure ""
  | .project modulePathOf =>
    match (variantSources hir).lookup item with
    | none => throw (internalError (names ++ ", whose declaring module could not be resolved"))
    | some source =>
      match modulePathOf source with
      | none => throw (internalError (names ++
          ", declared in a module this project's own module-path table has no entry for"))
      | some path => pure path

/-- A raised variant with the module and the name it is ordered by. -/
def raiseKey (item : ItemId) : Except Diagnostic (ItemId × String × String) :=
  match (variantLayouts C.tables.interner hir).lookup item with
  | none => throw (internalError ("a function's own `raises` names id " ++
      debugId "ItemId" item.index ++ ", which does not resolve to any declared variant"))
  | some layout => do
    let path ← modulePath C hir item
    pure (item, path, C.tables.interner layout.name)

def keyLe (a b : ItemId × String × String) : Bool :=
  a.2.1 < b.2.1 || (a.2.1 = b.2.1 && a.2.2 ≤ b.2.2)

def canonicalRaises (raises : List ItemId) : Except Diagnostic (List ItemId) := do
  let keyed ← raises.mapM (raiseKey C hir)
  pure ((keyed.mergeSort keyLe).map (·.1))

/-! ### Signatures -/

/-- What is known of every function by its id, the last entry first. -/
structure Signatures where
  sigs : List (ItemId × FunctionSig) := []
  requirements : List (ItemId × List CapabilityRequirement) := []
  raises : List (ItemId × List ItemId) := []
  namedTypeParams : List (ItemId × List (TypeParamId × Symbol)) := []

def declareFunction (typeParams : List TypeParamId)
    (requirements : HirFunction → List HirCapabilityRequirement) (s : Signatures)
    (f : HirFunction) : Except Diagnostic Signatures := do
  let interner := C.tables.interner
  let raises ← canonicalRaises C hir f.raises
  let sig : FunctionSig := ⟨typeParams, f.paramTypes.map (resolveNamedType interner),
    resolveReturnType interner f.returnType⟩
  pure { s with
    sigs := (f.id, sig) :: s.sigs
    requirements := (f.id, (requirements f).map (resolveRequirement interner)) :: s.requirements
    raises := (f.id, raises) :: s.raises }

/-- The method of an extend for each method of its protocol, as far as there is one. -/
def methodsByIndex (names : List Symbol) (methods : List HirFunction) : List (Option ItemId) :=
  methods.foldl (fun table m =>
    match names.findIdx? (· = m.name) with
    | some index => table.set index (some m.id)
    | none => table) (List.replicate names.length none)

def requireMethod (entry : Option ItemId × ℕ) : Except Diagnostic ItemId :=
  match entry.1 with
  | some id => pure id
  | none => throw (internalError ("extend for protocol method index " ++ toString entry.2 ++
      " has no implementing function; typeck should have already rejected this incomplete " ++
      "extend"))

def declareExtend (s : Signatures × List (ItemId × ExtendLayout)) (e : HirExtend) :
    Except Diagnostic (Signatures × List (ItemId × ExtendLayout)) := do
  let interner := C.tables.interner
  let named := (e.methods.map fun m => (m.id, e.typeParams)).reverse
  let declared ← e.methods.foldlM
    (declareFunction C hir (e.typeParams.map (·.1)) fun _ => e.requirements)
    { s.1 with namedTypeParams := named ++ s.1.namedTypeParams }
  let names := ((hir.protocols.find? (·.id = e.protocol)).map fun p =>
    p.methods.map (·.name)).getD []
  let methods ← (methodsByIndex names e.methods).zipIdx.mapM requireMethod
  pure (declared, s.2 ++ [(e.id, ⟨e.protocol, e.typeParams,
    e.protocolArguments.map (resolveNamedType interner),
    e.requirements.map (resolveRequirement interner), methods⟩)])

/-- A module whose layouts and signatures are resolved. -/
structure Resolved where
  signatures : Signatures
  extensions : List (ItemId × ExtendLayout)

def resolveModule : Except (List Diagnostic) Resolved :=
  match validateItemIdentities C.tables.interner hir with
  | d :: ds => throw (d :: ds)
  | [] =>
    match hir.functions.foldlM (fun s f =>
        declareFunction C hir (f.typeParams.map (·.1)) (·.requirements) s f) {} with
    | .error d => throw [d]
    | .ok signatures =>
      match hir.extensions.foldlM (declareExtend C hir) (signatures, []) with
      | .error d => throw [d]
      | .ok resolved => pure ⟨resolved.1, resolved.2⟩

/-! ### Functions and the module -/

/-- The tables a body is lowered with. -/
def bodyTables (resolved : Resolved) : BodyLowering :=
  { C.tables with
    module := { records := recordLayouts C.tables.interner hir
                variants := variantLayouts C.tables.interner hir }
    functionSigs := fun item => resolved.signatures.sigs.lookup item
    functionRequirements := fun item => resolved.signatures.requirements.lookup item
    functionRaises := fun item => resolved.signatures.raises.lookup item }

/-- What a function is besides its body; what it raises is resolved after the body. -/
def functionHead (resolved : Resolved) (f : HirFunction) : FunctionHead :=
  ⟨f.name, (resolved.signatures.namedTypeParams.lookup f.id).getD f.typeParams,
    (resolved.signatures.requirements.lookup f.id).getD [],
    resolveReturnType C.tables.interner f.returnType, []⟩

def lowerDeclared (resolved : Resolved) (f : HirFunction) : Except Diagnostic Function := do
  let lowered ← lowerFunction (bodyTables C hir resolved) (functionHead C resolved f)
    f.toHirFunction
  let raises ← canonicalRaises C hir f.raises
  pure { lowered with raises := raises }

/-- The functions that were lowered, and what went wrong with the others. -/
def collectFunction (resolved : Resolved) (done : List Function × List Diagnostic)
    (f : HirFunction) : List Function × List Diagnostic :=
  match lowerDeclared C hir resolved f with
  | .ok function => (done.1 ++ [function], done.2)
  | .error d => (done.1, done.2 ++ [d])

/-- The layouts in the order of their declaration, each taken out once. -/
def takeLayouts {α : Type} (what : String) : List ItemId → List (ItemId × α) →
    Except Diagnostic (List (ItemId × α))
  | [], _ => pure []
  | id :: order, layouts =>
    match layouts.lookup id with
    | none => throw (internalError (what ++ " layout for " ++ debugId "ItemId" id.index ++
        " was not built during lowering"))
    | some layout => do
      let rest ← takeLayouts what order (layouts.filter (·.1 ≠ id))
      pure ((id, layout) :: rest)

def finishModule (extensions : List (ItemId × ExtendLayout)) (functions : List Function) :
    Except Diagnostic Module := do
  let interner := C.tables.interner
  let records ← takeLayouts "record" (hir.records.map (·.id)) (recordLayouts interner hir)
  let variants ← takeLayouts "variant" (hir.variants.map (·.id)) (variantLayouts interner hir)
  pure ⟨functions, records, variants,
    hir.protocols.map fun p => (p.id, protocolLayout interner p), extensions⟩

def lowerModule : Except (List Diagnostic) Module :=
  match resolveModule C hir with
  | .error ds => throw ds
  | .ok resolved =>
    let done := hir.bodies.foldl (collectFunction C hir resolved) ([], [])
    match done.2 with
    | d :: ds => throw (d :: ds)
    | [] =>
      match finishModule C hir resolved.extensions done.1 with
      | .error d => throw [d]
      | .ok lowered => pure lowered

end

/-! ### A module is lowered whole -/

section
variable {C : ModuleLowering} {hir : HirModule} {resolved : Resolved}

/-- The functions of a module that were lowered, each from its own declaration. -/
def LoweredFrom (C : ModuleLowering) (hir : HirModule) (resolved : Resolved) :
    List HirFunction → List Function → Prop :=
  List.Forall₂ fun f g => lowerDeclared C hir resolved f = .ok g

theorem collectFunctions_ok {fs : List HirFunction} {gs : List Function} {ds : List Diagnostic}
    (h : (fs.foldl (collectFunction C hir resolved) (gs, ds)).2 = []) :
    ds = [] ∧ ∃ hs, (fs.foldl (collectFunction C hir resolved) (gs, ds)).1 = gs ++ hs ∧
      LoweredFrom C hir resolved fs hs := by
  induction fs generalizing gs ds with
  | nil => exact ⟨h, [], by simp, .nil⟩
  | cons f fs ih =>
    rw [List.foldl_cons] at h ⊢
    cases hf : lowerDeclared C hir resolved f with
    | error d =>
      simp only [collectFunction, hf] at h
      obtain ⟨hnone, -⟩ := ih h
      simp at hnone
    | ok g =>
      simp only [collectFunction, hf] at h ⊢
      obtain ⟨hnone, hs, hall, hlowered⟩ := ih h
      refine ⟨hnone, g :: hs, ?_, .cons hf hlowered⟩
      rw [hall, List.append_assoc]
      rfl

theorem mem_collectFunctions {fs : List HirFunction} {gs : List Function} {ds : List Diagnostic}
    {d : Diagnostic} (h : d ∈ ds) : d ∈ (fs.foldl (collectFunction C hir resolved) (gs, ds)).2 := by
  induction fs generalizing gs ds with
  | nil => exact h
  | cons f fs ih =>
    rw [List.foldl_cons]
    cases hf : lowerDeclared C hir resolved f with
    | error d' =>
      simp only [collectFunction, hf]
      exact ih (List.mem_append_left _ h)
    | ok g =>
      simp only [collectFunction, hf]
      exact ih h

theorem collectFunctions_error {fs : List HirFunction} {gs : List Function}
    {ds : List Diagnostic} {f : HirFunction} {d : Diagnostic} (hf : f ∈ fs)
    (herror : lowerDeclared C hir resolved f = .error d) :
    d ∈ (fs.foldl (collectFunction C hir resolved) (gs, ds)).2 := by
  induction fs generalizing gs ds with
  | nil => cases hf
  | cons first fs ih =>
    rw [List.foldl_cons]
    rcases List.mem_cons.mp hf with rfl | hrest
    · simp only [collectFunction, herror]
      exact mem_collectFunctions (List.mem_append_right _ (List.mem_singleton_self d))
    · exact ih hrest

theorem functions_finishModule {extensions : List (ItemId × ExtendLayout)}
    {functions : List Function} {m : Module}
    (h : finishModule C hir extensions functions = .ok m) : m.functions = functions := by
  obtain ⟨records, -, h⟩ := Except.bind_eq_ok.mp h
  obtain ⟨variants, -, h⟩ := Except.bind_eq_ok.mp h
  cases h
  rfl

theorem lowerModule_ok {m : Module} (h : lowerModule C hir = .ok m) :
    ∃ resolved, resolveModule C hir = .ok resolved ∧
      LoweredFrom C hir resolved hir.bodies m.functions := by
  unfold lowerModule at h
  split at h
  · cases h
  · rename_i resolved hresolved
    refine ⟨resolved, hresolved, ?_⟩
    simp only at h
    split at h
    · cases h
    · rename_i hnone
      obtain ⟨-, hs, hall, hlowered⟩ := collectFunctions_ok hnone
      split at h
      · cases h
      · rename_i lowered hfinished
        cases h
        rw [functions_finishModule hfinished, hall]
        exact hlowered

theorem lowerModule_error {f : HirFunction} {d : Diagnostic}
    (hresolved : resolveModule C hir = .ok resolved) (hf : f ∈ hir.bodies)
    (herror : lowerDeclared C hir resolved f = .error d) :
    ∃ ds, lowerModule C hir = .error ds ∧ d ∈ ds := by
  have hmem : d ∈ (hir.bodies.foldl (collectFunction C hir resolved) ([], [])).2 :=
    collectFunctions_error hf herror
  unfold lowerModule
  rw [hresolved]
  simp only
  split
  · rename_i first rest hsome
    rw [hsome] at hmem
    exact ⟨_, rfl, hmem⟩
  · rename_i hnone
    rw [hnone] at hmem
    cases hmem

theorem wellFormed_lowerDeclared {f : HirFunction} {g : Function}
    (h : lowerDeclared C hir resolved f = .ok g) : WellFormed g := by
  obtain ⟨lowered, hlowered, h⟩ := Except.bind_eq_ok.mp h
  obtain ⟨raises, -, h⟩ := Except.bind_eq_ok.mp h
  cases h
  obtain ⟨hids, htargets, hdefined⟩ := wellFormed_lowerFunction hlowered
  exact ⟨hids, htargets, hdefined⟩

/-- A function that is lowered is well formed, and no block of it was written or ended again
once it was ended; a module is made of such functions, one for each declaration, or it does
not come out. -/
theorem lowered_output_well_formed (C : ModuleLowering) (hir : HirModule) :
    (∀ (B : BodyLowering) (head : FunctionHead) (f : Hir.Body.HirFunction) (g : Function),
      lowerFunction B head f = .ok g →
        WellFormed g ∧ ∃ params fb,
          (lowerParamsAndBody B head f).run { returnTy := head.returnType } = .ok (params, fb) ∧
          fb.asserted = true ∧ fb.blocks = pendingBlocks g ∧
          (definedIn g).Perm (idsFrom 0 fb.nextValue)) ∧
    (∀ m, lowerModule C hir = .ok m →
      ∃ resolved, resolveModule C hir = .ok resolved ∧
        LoweredFrom C hir resolved hir.bodies m.functions ∧ ∀ g ∈ m.functions, WellFormed g) ∧
    (∀ resolved f d, resolveModule C hir = .ok resolved → f ∈ hir.bodies →
      lowerDeclared C hir resolved f = .error d →
        ∃ ds, lowerModule C hir = .error ds ∧ d ∈ ds) := by
  refine ⟨fun B head f g h => ?_, fun m h => ?_, fun resolved f d => lowerModule_error⟩
  · obtain ⟨params, fb, first, hrun, hasserted, -, hblocks, hdefined⟩ := lowerFunction_builder h
    exact ⟨wellFormed_lowerFunction h, params, fb, hrun, hasserted, hblocks, hdefined⟩
  · obtain ⟨resolved, hresolved, hlowered⟩ := lowerModule_ok h
    refine ⟨resolved, hresolved, hlowered, fun g hg => ?_⟩
    obtain ⟨i, hi, rfl⟩ := List.mem_iff_getElem.mp hg
    have hfrom := hlowered.get (i := i) (hlowered.length_eq ▸ hi) hi
    exact wellFormed_lowerDeclared hfrom

/-! ### A module with a loop -/

def loopTables : BodyLowering :=
  { BodyLowering.blank with interner := fun _ => "spin", cleanupEdges := fun _ => some [] }

/-- `while true { break; }` -/
def spin : HirFunction where
  id := ⟨0⟩
  params := []
  body := .mk ⟨0⟩ [.whileLoop (.bool ⟨1⟩ true) (.mk ⟨2⟩ [.expr (.breakExpr ⟨3⟩ none)] none)] none
  name := ⟨0⟩
  typeParams := []
  paramTypes := []
  returnType := none
  requirements := []
  raises := []

/-- The entry, the header, the body and what is after the loop. -/
theorem spin_well_formed : ∃ m, lowerModule ⟨loopTables, .singleFile⟩ { functions := [spin] } = .ok m ∧
    m.functions.map (·.blocks.length) = [4] ∧ ∀ g ∈ m.functions, WellFormed g := by
  have hrun : (match lowerModule ⟨loopTables, .singleFile⟩ { functions := [spin] } with
      | .ok m => some (m.functions.map (·.blocks.length))
      | .error _ => none) = some [4] := by decide +kernel
  split at hrun
  · rename_i m hm
    obtain ⟨resolved, -, -, hall⟩ :=
      (lowered_output_well_formed ⟨loopTables, .singleFile⟩ { functions := [spin] }).2.1 m hm
    exact ⟨m, hm, Option.some.inj hrun, hall⟩
  · cases hrun

/-- The tables with cleanup recorded for the `break` and for the body. -/
def spinTables : BodyLowering :=
  { loopTables with
    cleanupEdges := fun id => if id = ⟨3⟩ ∨ id = ⟨0⟩ then some [] else none }

theorem exits_planned_spin :
    (bodyTrail spinTables .unit spin.body).exits = [⟨3⟩, ⟨0⟩] ∧
      ∀ id ∈ (bodyTrail spinTables .unit spin.body).exits,
        (spinTables.cleanupEdges id).isSome := by
  have hrun : (match lowerFunction spinTables ⟨⟨0⟩, [], [], .unit, []⟩ spin.toHirFunction with
      | .ok _ => true
      | .error _ => false) = true := by decide +kernel
  split at hrun
  · rename_i g hg
    exact ⟨by decide +kernel, exits_planned hg⟩
  · cases hrun

end

end Napitia.Lower
