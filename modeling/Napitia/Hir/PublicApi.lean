import Napitia.Lower.Modules
import Napitia.Parser.Syntax

/-!
# Private types in public signatures

Before anything is lowered the signatures of a module's public declarations are searched for
the names of its private types. The search goes by what is written; what a name means is found
later, where a type parameter comes before a primitive type and that before a declaration. A
range of the file is not kept, and neither are the declarations of no signature.
-/
namespace Napitia.Hir.PublicApi
open Napitia.Parser (TypeRef)
open Lower (primitiveFromName)

/-! ### Declarations -/

/-- A dotted path with arguments in brackets is a capability requirement. -/
structure UsesClause where
  path : List String
  args : List TypeRef

structure FunctionDecl where
  isPublic : Bool
  name : String
  typeParams : List String
  params : List TypeRef
  returnType : Option TypeRef
  uses : List UsesClause
  raises : List String

structure Field where
  isPublic : Bool
  name : String
  ty : TypeRef

structure RecordDecl where
  isPublic : Bool
  name : String
  typeParams : List String
  fields : List Field

structure ResourceDecl where
  isPublic : Bool
  name : String
  fields : List Field

structure Case where
  name : String
  payload : List TypeRef

structure VariantDecl where
  isPublic : Bool
  name : String
  typeParams : List String
  cases : List Case

structure ProtocolMember where
  name : String
  params : List TypeRef
  returnType : Option TypeRef

structure ProtocolDecl where
  isPublic : Bool
  name : String
  typeParams : List String
  members : List ProtocolMember

inductive Item where
  | function (f : FunctionDecl)
  | record (r : RecordDecl)
  | «variant» (v : VariantDecl)
  | protocol (p : ProtocolDecl)
  | extend
  | import
  | resource (r : ResourceDecl)

inductive TypeNameKind where
  | record
  | «variant»
  deriving DecidableEq, Repr

inductive ImportedItemKind where
  | function (item : ItemId)
  | record (item : ItemId)
  | «variant» (item : ItemId)
  | protocol (item : ItemId)

def ImportedItemKind.item : ImportedItemKind → ItemId
  | function item | record item | «variant» item | protocol item => item

structure ImportedItem where
  localName : String
  kind : ImportedItemKind

/-- A module with what it imports, which was numbered before it. -/
structure Module where
  items : List Item
  imports : List ImportedItem
  nextItem : ℕ
  earlier : ∀ i ∈ imports, i.kind.item.index < nextItem

/-! ### The names of a module -/

structure Tables where
  names : List String
  typeNames : String → Option (ItemId × TypeNameKind)
  protocolNames : String → Option ItemId
  nextItem : ℕ

/-- Of two imports under one name the first counts. -/
def Tables.seed (t : Tables) (imported : ImportedItem) : Tables :=
  if imported.localName ∈ t.names then t
  else
    let t := { t with names := imported.localName :: t.names }
    match imported.kind with
    | .function _ => t
    | .record item =>
      { t with typeNames := Function.update t.typeNames imported.localName (some (item, .record)) }
    | .variant item =>
      { t with typeNames := Function.update t.typeNames imported.localName (some (item, .variant)) }
    | .protocol item =>
      { t with protocolNames := Function.update t.protocolNames imported.localName (some item) }

/-- A declaration takes the name, whatever had it. -/
def Tables.declare (t : Tables) (item : Item) : Tables :=
  let id : ItemId := ⟨t.nextItem⟩
  let t := { t with nextItem := t.nextItem + 1 }
  match item with
  | .record r => { t with typeNames := Function.update t.typeNames r.name (some (id, .record)) }
  | .variant v => { t with typeNames := Function.update t.typeNames v.name (some (id, .variant)) }
  | .protocol p => { t with protocolNames := Function.update t.protocolNames p.name (some id) }
  | .resource r => { t with typeNames := Function.update t.typeNames r.name (some (id, .record)) }
  | .function _ | .extend | .import => t

namespace Module
variable (m : Module)

def functions : List FunctionDecl :=
  m.items.filterMap fun item => match item with | .function f => some f | _ => none

def records : List RecordDecl :=
  m.items.filterMap fun item => match item with | .record r => some r | _ => none

def variants : List VariantDecl :=
  m.items.filterMap fun item => match item with | .variant v => some v | _ => none

def resources : List ResourceDecl :=
  m.items.filterMap fun item => match item with | .resource r => some r | _ => none

def tables : Tables :=
  m.items.foldl Tables.declare
    (m.imports.foldl Tables.seed ⟨[], fun _ => none, fun _ => none, m.nextItem⟩)

/-- What the module declares, the records first, and whether each is public. -/
def localDeclarations : List (String × Bool) :=
  m.records.map (fun r => (r.name, r.isPublic)) ++
    m.variants.map (fun v => (v.name, v.isPublic)) ++
    m.resources.map fun r => (r.name, r.isPublic)

/-- Of two under one name the last counts. -/
def localPublic (name : String) : Option Bool :=
  (m.localDeclarations.reverse.find? fun d => d.1 = name).map Prod.snd

/-! ### The search -/

mutual

def checkPublicApiLeak : TypeRef → List String
  | .mk name args =>
    if (primitiveFromName name).isSome then []
    else (if m.localPublic name = some false then [name] else []) ++ checkPublicApiLeaks args

def checkPublicApiLeaks : List TypeRef → List String
  | [] => []
  | ty :: rest => checkPublicApiLeak ty ++ checkPublicApiLeaks rest

end

def checkRaisesPublicApiLeak (raised : String) : List String :=
  if m.localPublic raised = some false then [raised] else []

def checkFields (fields : List Field) : List String :=
  fields.flatMap fun field => if field.isPublic then m.checkPublicApiLeak field.ty else []

def checkFunction (f : FunctionDecl) : List String :=
  if f.isPublic then
    f.params.flatMap m.checkPublicApiLeak ++ f.returnType.toList.flatMap m.checkPublicApiLeak ++
      f.raises.flatMap m.checkRaisesPublicApiLeak
  else []

def checkRecord (r : RecordDecl) : List String :=
  if r.isPublic then m.checkFields r.fields else []

def checkVariant (v : VariantDecl) : List String :=
  if v.isPublic then v.cases.flatMap fun case => case.payload.flatMap m.checkPublicApiLeak else []

def checkResource (r : ResourceDecl) : List String :=
  if r.isPublic then m.checkFields r.fields else []

/-- The names of private types that are reported, one for each report. -/
def privateTypesLeaked : List String :=
  m.functions.flatMap m.checkFunction ++ m.records.flatMap m.checkRecord ++
    m.variants.flatMap m.checkVariant ++ m.resources.flatMap m.checkResource

/-! ### What a name means -/

/-- What is in scope as a type parameter; the name of a primitive type cannot be one. -/
def lowerTypeParams (params : List String) : List String :=
  params.filter fun p => (primitiveFromName p).isNone

inductive Meaning where
  | param
  | primitive (ty : Ty)
  | aggregate (item : ItemId) (kind : TypeNameKind)
  | unknown

/-- The head of a reference is resolved in this order. -/
def resolveHead (typeParams : List String) (name : String) : Meaning :=
  if name ∈ lowerTypeParams typeParams then .param
  else
    match primitiveFromName name with
    | some ty => .primitive ty
    | none =>
      match m.tables.typeNames name with
      | some (item, kind) => .aggregate item kind
      | none => .unknown

end Module

/-! ### Signatures -/

/-- What a public declaration tells of itself. -/
structure Signature where
  typeParams : List String
  /-- The types of parameters, results, public fields and payloads. -/
  types : List TypeRef
  raises : List String
  requirements : List (String × List TypeRef)
  /-- The types of a protocol's methods. -/
  methods : List TypeRef

def UsesClause.requirement : UsesClause → Option (String × List TypeRef)
  | ⟨[protocol], arg :: args⟩ => some (protocol, arg :: args)
  | _ => none

def publicTypes (fields : List Field) : List TypeRef :=
  (fields.filter (·.isPublic)).map (·.ty)

def Item.signature : Item → Option Signature
  | .function f =>
    if f.isPublic then
      some ⟨f.typeParams, f.params ++ f.returnType.toList, f.raises,
        f.uses.filterMap UsesClause.requirement, []⟩
    else none
  | .record r => if r.isPublic then some ⟨r.typeParams, publicTypes r.fields, [], [], []⟩ else none
  | .variant v =>
    if v.isPublic then some ⟨v.typeParams, v.cases.flatMap (·.payload), [], [], []⟩ else none
  | .protocol p =>
    if p.isPublic then
      some ⟨p.typeParams, [], [], [], p.members.flatMap fun f => f.params ++ f.returnType.toList⟩
    else none
  | .resource r => if r.isPublic then some ⟨[], publicTypes r.fields, [], [], []⟩ else none
  | .extend | .import => none

def Item.isPrivate : Item → Bool
  | .record r => !r.isPublic
  | .variant v => !v.isPublic
  | .protocol p => !p.isPublic
  | .resource r => !r.isPublic
  | .function _ | .extend | .import => false

mutual

/-- Every name in a type, at any depth. -/
def names : TypeRef → List String
  | .mk name args => name :: namesOfAll args

def namesOfAll : List TypeRef → List String
  | [] => []
  | ty :: rest => names ty ++ namesOfAll rest

end

mutual

/-- The names that are not those of primitive types or within what these are applied to. -/
def searched : TypeRef → List String
  | .mk name args => if (primitiveFromName name).isSome then [] else name :: searchedOfAll args

def searchedOfAll : List TypeRef → List String
  | [] => []
  | ty :: rest => searched ty ++ searchedOfAll rest

end

namespace Module
variable (m : Module)

/-- The items of the module are numbered as they stand there. -/
def isPrivate (id : ItemId) : Bool :=
  m.nextItem ≤ id.index && (m.items[id.index - m.nextItem]?).any Item.isPrivate

def typeIsPrivate (name : String) : Bool := (m.tables.typeNames name).any fun t => m.isPrivate t.1

def protocolIsPrivate (name : String) : Bool := (m.tables.protocolNames name).any m.isPrivate

/-- A name in a type of a signature means a private declaration. -/
def meansPrivate (typeParams : List String) (name : String) : Bool :=
  match m.resolveHead typeParams name with
  | .aggregate item _ => m.isPrivate item
  | _ => false

def Mentions (typeParams : List String) (types : List TypeRef) : Prop :=
  ∃ ty ∈ types, ∃ name ∈ names ty, m.meansPrivate typeParams name

/-- A private type or protocol is mentioned anywhere in a signature. -/
def Leaks (s : Signature) : Prop :=
  m.Mentions s.typeParams s.types ∨ (∃ raised ∈ s.raises, m.typeIsPrivate raised) ∨
    (∃ r ∈ s.requirements, m.protocolIsPrivate r.1 ∨ m.Mentions s.typeParams r.2) ∨
    m.Mentions s.typeParams s.methods

def Anywhere (P : Signature → Prop) : Prop := ∃ item ∈ m.items, ∃ s ∈ item.signature, P s

/-- A leak is reported where there is one, and only there. -/
def ReportsLeaks : Prop := m.privateTypesLeaked ≠ [] ↔ m.Anywhere m.Leaks

instance (typeParams : List String) (types : List TypeRef) :
    Decidable (m.Mentions typeParams types) := by
  unfold Mentions
  infer_instance

instance (s : Signature) : Decidable (m.Leaks s) := by
  unfold Leaks
  infer_instance

instance (P : Signature → Prop) [DecidablePred P] : Decidable (m.Anywhere P) := by
  unfold Anywhere
  infer_instance

instance : Decidable m.ReportsLeaks := by
  unfold ReportsLeaks
  infer_instance

/-! ### Where the search goes wrong -/

/-- A type that is searched, or a raised name, names a private type and means it. -/
def Exposes (s : Signature) : Prop :=
  (∃ ty ∈ s.types, ∃ name ∈ searched ty,
      m.localPublic name = some false ∧ name ∉ s.typeParams ∧ m.typeIsPrivate name) ∨
    ∃ raised ∈ s.raises, m.localPublic raised = some false ∧ m.typeIsPrivate raised

/-- The name of a private type is there that of a type parameter, or a later declaration took
it. -/
def Shadows (s : Signature) : Prop :=
  (∃ ty ∈ s.types, ∃ name ∈ searched ty,
      m.localPublic name = some false ∧ (name ∈ s.typeParams ∨ ¬m.typeIsPrivate name)) ∨
    ∃ raised ∈ s.raises, m.localPublic raised = some false ∧ ¬m.typeIsPrivate raised

/-- A requirement or a method mentions a private declaration, or a primitive type is applied to
one; or the name of one is also that of a public declaration. -/
def Overlooks (s : Signature) : Prop :=
  (∃ r ∈ s.requirements, m.protocolIsPrivate r.1 ∨ m.Mentions s.typeParams r.2) ∨
    m.Mentions s.typeParams s.methods ∨
    (∃ ty ∈ s.types, ∃ name ∈ names ty, m.meansPrivate s.typeParams name ∧
      (name ∉ searched ty ∨ m.localPublic name ≠ some false)) ∨
    ∃ raised ∈ s.raises, m.typeIsPrivate raised ∧ m.localPublic raised ≠ some false

variable {m}

mutual

theorem mem_checkPublicApiLeak {name : String} :
    ∀ ty, name ∈ m.checkPublicApiLeak ty ↔ name ∈ searched ty ∧ m.localPublic name = some false
  | .mk head args => by
    unfold checkPublicApiLeak searched
    by_cases hprimitive : (primitiveFromName head).isSome
    · simp [hprimitive]
    · by_cases hhead : m.localPublic head = some false
      · rw [if_neg hprimitive, if_neg hprimitive, if_pos hhead, List.mem_append,
          mem_checkPublicApiLeaks args, List.mem_singleton, List.mem_cons]
        constructor
        · rintro (rfl | ⟨hname, hpublic⟩)
          · exact ⟨Or.inl rfl, hhead⟩
          · exact ⟨Or.inr hname, hpublic⟩
        · rintro ⟨rfl | hname, hpublic⟩
          · exact Or.inl rfl
          · exact Or.inr ⟨hname, hpublic⟩
      · rw [if_neg hprimitive, if_neg hprimitive, if_neg hhead, List.nil_append,
          mem_checkPublicApiLeaks args, List.mem_cons]
        constructor
        · rintro ⟨hname, hpublic⟩
          exact ⟨Or.inr hname, hpublic⟩
        · rintro ⟨rfl | hname, hpublic⟩
          · exact absurd hpublic hhead
          · exact ⟨hname, hpublic⟩

theorem mem_checkPublicApiLeaks {name : String} :
    ∀ types, name ∈ m.checkPublicApiLeaks types ↔
      name ∈ searchedOfAll types ∧ m.localPublic name = some false
  | [] => by simp [checkPublicApiLeaks, searchedOfAll]
  | ty :: rest => by
    rw [checkPublicApiLeaks, searchedOfAll, List.mem_append, List.mem_append,
      mem_checkPublicApiLeak ty, mem_checkPublicApiLeaks rest, or_and_right]

end

mutual

theorem mem_names_of_searched {name : String} :
    ∀ ty, name ∈ searched ty → name ∈ names ty ∧ primitiveFromName name = none
  | .mk head args => by
    unfold searched names
    intro h
    by_cases hprimitive : (primitiveFromName head).isSome
    · simp [hprimitive] at h
    · rw [if_neg hprimitive] at h
      rcases List.mem_cons.mp h with rfl | h
      · exact ⟨List.mem_cons_self, by simpa using hprimitive⟩
      · obtain ⟨hname, hnone⟩ := mem_namesOfAll_of_searched args h
        exact ⟨List.mem_cons_of_mem _ hname, hnone⟩

theorem mem_namesOfAll_of_searched {name : String} :
    ∀ types, name ∈ searchedOfAll types →
      name ∈ namesOfAll types ∧ primitiveFromName name = none
  | [] => by
    intro h
    simp [searchedOfAll] at h
  | ty :: rest => by
    unfold searchedOfAll namesOfAll
    intro h
    rcases List.mem_append.mp h with h | h
    · obtain ⟨hname, hnone⟩ := mem_names_of_searched ty h
      exact ⟨List.mem_append_left _ hname, hnone⟩
    · obtain ⟨hname, hnone⟩ := mem_namesOfAll_of_searched rest h
      exact ⟨List.mem_append_right _ hname, hnone⟩

end

/-- A name that is not of a primitive type means a private type where no type parameter has
it. -/
theorem meansPrivate_iff {typeParams : List String} {name : String}
    (hprimitive : primitiveFromName name = none) :
    m.meansPrivate typeParams name ↔ name ∉ typeParams ∧ m.typeIsPrivate name := by
  have hparam : name ∈ lowerTypeParams typeParams ↔ name ∈ typeParams := by
    simp [lowerTypeParams, hprimitive]
  unfold meansPrivate resolveHead typeIsPrivate
  by_cases hmem : name ∈ typeParams
  · simp [hparam, hmem]
  · rw [if_neg (hparam.not.mpr hmem), hprimitive]
    cases m.tables.typeNames name with
    | none => simp
    | some t => simp [hmem]

theorem checkFields_eq (fields : List Field) :
    m.checkFields fields = (publicTypes fields).flatMap m.checkPublicApiLeak := by
  induction fields with
  | nil => rfl
  | cons field fields ih =>
    unfold checkFields publicTypes at *
    by_cases hpublic : field.isPublic <;> simp [hpublic, ih]

/-- What is reported, signature by signature. -/
def Reported (m : Module) (s : Signature) (name : String) : Prop :=
  m.localPublic name = some false ∧
    ((∃ ty ∈ s.types, name ∈ searched ty) ∨ name ∈ s.raises)

theorem mem_filterMap_items {α : Type} {select : Item → Option α} {item : α → Item}
    (h : ∀ x a, select x = some a ↔ x = item a) {a : α} :
    a ∈ m.items.filterMap select ↔ item a ∈ m.items := by
  rw [List.mem_filterMap]
  constructor
  · rintro ⟨x, hx, hselect⟩
    exact (h x a).mp hselect ▸ hx
  · exact fun ha => ⟨item a, ha, (h (item a) a).mpr rfl⟩

theorem mem_functions {f : FunctionDecl} : f ∈ m.functions ↔ .function f ∈ m.items :=
  mem_filterMap_items fun x f => by cases x <;> simp

theorem mem_records {r : RecordDecl} : r ∈ m.records ↔ .record r ∈ m.items :=
  mem_filterMap_items fun x r => by cases x <;> simp

theorem mem_variants {v : VariantDecl} : v ∈ m.variants ↔ .variant v ∈ m.items :=
  mem_filterMap_items fun x v => by cases x <;> simp

theorem mem_resources {r : ResourceDecl} : r ∈ m.resources ↔ .resource r ∈ m.items :=
  mem_filterMap_items fun x r => by cases x <;> simp

theorem mem_flatMap_check {name : String} {types : List TypeRef} :
    name ∈ types.flatMap m.checkPublicApiLeak ↔
      m.localPublic name = some false ∧ ∃ ty ∈ types, name ∈ searched ty := by
  simp only [List.mem_flatMap, mem_checkPublicApiLeak]
  constructor
  · rintro ⟨ty, hty, hname, hpublic⟩
    exact ⟨hpublic, ty, hty, hname⟩
  · rintro ⟨hpublic, ty, hty, hname⟩
    exact ⟨ty, hty, hname, hpublic⟩

theorem mem_checkFunction {f : FunctionDecl} {name : String} :
    name ∈ m.checkFunction f ↔ ∃ s ∈ (Item.function f).signature, m.Reported s name := by
  unfold checkFunction
  dsimp only [Item.signature]
  by_cases hpublic : f.isPublic
  · have hraises : name ∈ f.raises.flatMap m.checkRaisesPublicApiLeak ↔
        m.localPublic name = some false ∧ name ∈ f.raises := by
      simp only [List.mem_flatMap, checkRaisesPublicApiLeak]
      constructor
      · rintro ⟨raised, hraised, hname⟩
        by_cases hprivate : m.localPublic raised = some false
        · obtain rfl : name = raised := by simpa [hprivate] using hname
          exact ⟨hprivate, hraised⟩
        · simp [hprivate] at hname
      · rintro ⟨hprivate, hraised⟩
        exact ⟨name, hraised, by simp [hprivate]⟩
    rw [if_pos hpublic, if_pos hpublic, ← List.flatMap_append, List.mem_append, mem_flatMap_check,
      hraises, ← and_or_left]
    simp [Reported]
  · simp [hpublic]

theorem mem_checkRecord {r : RecordDecl} {name : String} :
    name ∈ m.checkRecord r ↔ ∃ s ∈ (Item.record r).signature, m.Reported s name := by
  unfold checkRecord
  dsimp only [Item.signature]
  by_cases hpublic : r.isPublic
  · rw [if_pos hpublic, if_pos hpublic, checkFields_eq, mem_flatMap_check]
    simp [Reported]
  · simp [hpublic]

theorem mem_checkResource {r : ResourceDecl} {name : String} :
    name ∈ m.checkResource r ↔ ∃ s ∈ (Item.resource r).signature, m.Reported s name := by
  unfold checkResource
  dsimp only [Item.signature]
  by_cases hpublic : r.isPublic
  · rw [if_pos hpublic, if_pos hpublic, checkFields_eq, mem_flatMap_check]
    simp [Reported]
  · simp [hpublic]

theorem mem_checkVariant {v : VariantDecl} {name : String} :
    name ∈ m.checkVariant v ↔ ∃ s ∈ (Item.variant v).signature, m.Reported s name := by
  unfold checkVariant
  dsimp only [Item.signature]
  by_cases hpublic : v.isPublic
  · rw [if_pos hpublic, if_pos hpublic, ← List.flatMap_assoc, mem_flatMap_check]
    simp [Reported]
  · simp [hpublic]

theorem mem_privateTypesLeaked {name : String} :
    name ∈ m.privateTypesLeaked ↔ m.Anywhere fun s => m.Reported s name := by
  simp only [privateTypesLeaked, List.mem_append, List.mem_flatMap, mem_functions, mem_records,
    mem_variants, mem_resources, mem_checkFunction, mem_checkRecord, mem_checkVariant,
    mem_checkResource]
  constructor
  · rintro (((⟨f, hf, hname⟩ | ⟨r, hr, hname⟩) | ⟨v, hv, hname⟩) | ⟨r, hr, hname⟩)
    · exact ⟨_, hf, hname⟩
    · exact ⟨_, hr, hname⟩
    · exact ⟨_, hv, hname⟩
    · exact ⟨_, hr, hname⟩
  · rintro ⟨item, hitem, hname⟩
    cases item with
    | function f => exact Or.inl (Or.inl (Or.inl ⟨f, hitem, hname⟩))
    | record r => exact Or.inl (Or.inl (Or.inr ⟨r, hitem, hname⟩))
    | «variant» v => exact Or.inl (Or.inr ⟨v, hitem, hname⟩)
    | resource r => exact Or.inr ⟨r, hitem, hname⟩
    | protocol p =>
      -- of a protocol nothing is searched
      exfalso
      obtain ⟨s, hs, -, hname⟩ := hname
      by_cases hpublic : p.isPublic
      · obtain rfl : _ = s := by simpa [Item.signature, hpublic] using hs
        simp at hname
      · simp [Item.signature, hpublic] at hs
    | extend =>
      obtain ⟨s, hs, -⟩ := hname
      cases hs
    | «import» =>
      obtain ⟨s, hs, -⟩ := hname
      cases hs

theorem exists_reported_iff (s : Signature) :
    (∃ name, m.Reported s name) ↔ m.Exposes s ∨ m.Shadows s := by
  constructor
  · rintro ⟨name, hpublic, ⟨ty, hty, hname⟩ | hraised⟩
    · by_cases hmeans : name ∉ s.typeParams ∧ m.typeIsPrivate name
      · exact Or.inl (Or.inl ⟨ty, hty, name, hname, hpublic, hmeans⟩)
      · refine Or.inr (Or.inl ⟨ty, hty, name, hname, hpublic, ?_⟩)
        tauto
    · by_cases hmeans : m.typeIsPrivate name
      · exact Or.inl (Or.inr ⟨name, hraised, hpublic, hmeans⟩)
      · exact Or.inr (Or.inr ⟨name, hraised, hpublic, hmeans⟩)
  · rintro ((⟨ty, hty, name, hname, hpublic, -⟩ | ⟨name, hraised, hpublic, -⟩) |
      (⟨ty, hty, name, hname, hpublic, -⟩ | ⟨name, hraised, hpublic, -⟩))
    · exact ⟨name, hpublic, Or.inl ⟨ty, hty, hname⟩⟩
    · exact ⟨name, hpublic, Or.inr hraised⟩
    · exact ⟨name, hpublic, Or.inl ⟨ty, hty, hname⟩⟩
    · exact ⟨name, hpublic, Or.inr hraised⟩

theorem privateTypesLeaked_ne_nil_iff :
    m.privateTypesLeaked ≠ [] ↔ m.Anywhere fun s => m.Exposes s ∨ m.Shadows s := by
  rw [ne_eq, List.eq_nil_iff_forall_not_mem, not_forall]
  simp only [not_not, mem_privateTypesLeaked, Anywhere, ← exists_reported_iff]
  constructor
  · rintro ⟨name, item, hitem, s, hs, hname⟩
    exact ⟨item, hitem, s, hs, name, hname⟩
  · rintro ⟨item, hitem, s, hs, name, hname⟩
    exact ⟨name, item, hitem, s, hs, hname⟩

theorem leaks_iff (s : Signature) : m.Leaks s ↔ m.Exposes s ∨ m.Overlooks s := by
  constructor
  · rintro (⟨ty, hty, name, hname, hmeans⟩ | ⟨raised, hraised, hmeans⟩ | hrequired | hmethods)
    · by_cases hseen : name ∈ searched ty ∧ m.localPublic name = some false
      · have hprimitive := (mem_names_of_searched ty hseen.1).2
        obtain ⟨hparam, hprivate⟩ := (meansPrivate_iff hprimitive).mp hmeans
        exact Or.inl (Or.inl ⟨ty, hty, name, hseen.1, hseen.2, hparam, hprivate⟩)
      · refine Or.inr (Or.inr (Or.inr (Or.inl ⟨ty, hty, name, hname, hmeans, ?_⟩)))
        tauto
    · by_cases hpublic : m.localPublic raised = some false
      · exact Or.inl (Or.inr ⟨raised, hraised, hpublic, hmeans⟩)
      · exact Or.inr (Or.inr (Or.inr (Or.inr ⟨raised, hraised, hmeans, hpublic⟩)))
    · exact Or.inr (Or.inl hrequired)
    · exact Or.inr (Or.inr (Or.inl hmethods))
  · rintro ((⟨ty, hty, name, hname, -, hmeans⟩ | ⟨raised, hraised, -, hmeans⟩) | hoverlooked)
    · obtain ⟨hmem, hprimitive⟩ := mem_names_of_searched ty hname
      exact Or.inl ⟨ty, hty, name, hmem, (meansPrivate_iff hprimitive).mpr hmeans⟩
    · exact Or.inr (Or.inl ⟨raised, hraised, hmeans⟩)
    · rcases hoverlooked with hrequired | hmethods | ⟨ty, hty, name, hname, hmeans, -⟩ |
        ⟨raised, hraised, hmeans, -⟩
      · exact Or.inr (Or.inr (Or.inl hrequired))
      · exact Or.inr (Or.inr (Or.inr hmethods))
      · exact Or.inl ⟨ty, hty, name, hname, hmeans⟩
      · exact Or.inr (Or.inl ⟨raised, hraised, hmeans⟩)

theorem anywhere_or {P Q : Signature → Prop} :
    (m.Anywhere fun s => P s ∨ Q s) ↔ m.Anywhere P ∨ m.Anywhere Q := by
  constructor
  · rintro ⟨item, hitem, s, hs, hP | hQ⟩
    · exact Or.inl ⟨item, hitem, s, hs, hP⟩
    · exact Or.inr ⟨item, hitem, s, hs, hQ⟩
  · rintro (⟨item, hitem, s, hs, hP⟩ | ⟨item, hitem, s, hs, hQ⟩)
    · exact ⟨item, hitem, s, hs, Or.inl hP⟩
    · exact ⟨item, hitem, s, hs, Or.inr hQ⟩

/-- Leaks are reported rightly where one is seen for what it is, and otherwise where there is a
false report just if a leak is overlooked. -/
theorem reportsLeaks_iff (m : Module) :
    m.ReportsLeaks ↔
      m.Anywhere m.Exposes ∨ (m.Anywhere m.Shadows ↔ m.Anywhere m.Overlooks) := by
  have hleaks : m.Anywhere m.Leaks ↔ m.Anywhere fun s => m.Exposes s ∨ m.Overlooks s := by
    simp only [Anywhere, leaks_iff]
  rw [ReportsLeaks, privateTypesLeaked_ne_nil_iff, hleaks, anywhere_or, anywhere_or]
  tauto

/-- A private record under the name of a public function's type parameter. -/
def identityOverRecord : Module where
  items := [.record ⟨false, "T", [], [⟨false, "x", .mk "i64" []⟩]⟩,
    .function ⟨true, "identity", ["T"], [.mk "T" []], some (.mk "T" []), [], []⟩]
  imports := []
  nextItem := 0
  earlier := by simp

/-- A private record that a method of a public protocol takes. -/
def protocolOverRecord : Module where
  items := [.record ⟨false, "Secret", [], [⟨false, "x", .mk "i64" []⟩]⟩,
    .protocol ⟨true, "Opens", ["T"], [⟨"opens", [.mk "T" [], .mk "Secret" []], none⟩]⟩]
  imports := []
  nextItem := 0
  earlier := by simp

/-- One is reported without a leak, and a leak in the other is not reported. -/
theorem reportsLeaks_fails :
    ¬identityOverRecord.ReportsLeaks ∧ ¬protocolOverRecord.ReportsLeaks := by
  decide

end Module

end Napitia.Hir.PublicApi
