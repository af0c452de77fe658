import Napitia.Lib.DepthFirst
import Napitia.Substitution

/-!
# Infinitely-sized aggregate cycles

Every declared record, resource and variant is walked from its own generic self
along the types its fields and payloads hold by value, each instance substituted
as it is reached. A declaration met again on the active path closes a cycle. What a
diagnostic says is its cycle, where the closing edge leads and that edge's label;
spans and rendered names are left out.
-/
namespace Napitia.Typeck

/-- A record or resource declaration with the types its fields resolved to. -/
structure HirRecord where
  id : ItemId
  typeParams : List TypeParamId
  fields : List (String × Ty)

structure HirVariant where
  id : ItemId
  typeParams : List TypeParamId
  cases : List (String × List Ty)

/-- One declaration's own shape: the type and label of every field and payload
position. -/
structure Decl where
  typeParams : List TypeParamId
  fields : List (Ty × String)

abbrev Decls := AList (fun _ : ItemId => Decl)

structure GenericInstanceKey where
  declaration : ItemId
  arguments : List Ty
  deriving DecidableEq

structure LayoutEdge where
  target : GenericInstanceKey
  label : String

/-- A declaration's type parameters applied to themselves. -/
def symbolicSelf (declId : ItemId) (decl : Decl) : GenericInstanceKey :=
  ⟨declId, decl.typeParams.map .param⟩

/-- The instance a type names, when it names a declaration. -/
def instanceOf : Ty → Option GenericInstanceKey
  | .named target => some ⟨target, []⟩
  | .applied target args => some ⟨target, args⟩
  | _ => none

/-- The outgoing edges of one concrete instance. -/
def substituteEdges (decls : Decls) (inst : GenericInstanceKey) : List LayoutEdge :=
  match decls.lookup inst.declaration with
  | none => []
  | some decl =>
    let subst := collectSubst decl.typeParams inst.arguments
    decl.fields.filterMap fun (ty, label) =>
      (instanceOf (substitute ty subst)).map fun target => ⟨target, label⟩

def recordDecl (record : HirRecord) : Decl :=
  ⟨record.typeParams, record.fields.map fun (name, ty) => (ty, name)⟩

def variantDecl (variant : HirVariant) : Decl :=
  ⟨variant.typeParams, variant.cases.flatMap fun (name, payload) =>
    payload.zipIdx.map fun (ty, i) => (ty, s!"{name}.{i}")⟩

/-- The declarations in the order they are walked, records before variants. -/
def declarations (records : List HirRecord) (variants : List HirVariant) : List (ItemId × Decl) :=
  records.map (fun r => (r.id, recordDecl r)) ++ variants.map fun v => (v.id, variantDecl v)

def collectDecls (entries : List (ItemId × Decl)) : Decls :=
  entries.foldl (fun decls entry => decls.insert entry.1 entry.2) ∅

def declared (records : List HirRecord) (variants : List HirVariant) : Decls :=
  collectDecls (declarations records variants)

/-- The instances the walks start from, in order. -/
def walkStarts (records : List HirRecord) (variants : List HirVariant) :
    List GenericInstanceKey :=
  (declarations records variants).filterMap fun (id, _) =>
    ((declared records variants).lookup id).map (symbolicSelf id)

/-- The instances the edges lead along, known on a path by their declaration. -/
def layoutGraph (decls : Decls) : DepthFirst.Graph GenericInstanceKey LayoutEdge ItemId :=
  ⟨substituteEdges decls, LayoutEdge.target, GenericInstanceKey.declaration⟩

structure CycleDiagnostic where
  cycle : List GenericInstanceKey
  target : GenericInstanceKey
  label : String
  deriving DecidableEq

/-- The position of the member with the smallest identity. -/
def smallestAt (cycle : List GenericInstanceKey) : ℕ :=
  cycle.findIdx fun k => cycle.all fun other => k.declaration.index ≤ other.declaration.index

/-- The cycle an edge closes, turned so that its smallest member comes first. -/
def cycleDiagnostic (c : DepthFirst.Closing GenericInstanceKey LayoutEdge) : CycleDiagnostic :=
  let path := c.stack.reverse
  let startIdx := path.findIdx fun f => f.node.declaration = c.edge.target.declaration
  let slice := path.drop startIdx
  let rotate := smallestAt (slice.map (·.node))
  let rotated := (slice.drop rotate ++ slice.take rotate).map (·.node)
  if rotate = 0 then ⟨rotated, c.edge.target, c.edge.label⟩
  else
    match slice[rotate]? with
    | some f => ⟨rotated, f.node, (f.incoming.map (·.label)).getD ""⟩
    | none => ⟨rotated, c.edge.target, c.edge.label⟩

/-- One diagnostic for each declaration whose recurrence closed a cycle. -/
def reportCycle (acc : List ItemId × List CycleDiagnostic)
    (c : DepthFirst.Closing GenericInstanceKey LayoutEdge) : List ItemId × List CycleDiagnostic :=
  let (reported, diagnostics) := acc
  if c.edge.target.declaration ∈ reported then acc
  else (c.edge.target.declaration :: reported, diagnostics ++ [cycleDiagnostic c])

/-- The diagnostics for a set of declarations, when the fuel lasts for every walk. -/
def checkCycles (fuel : ℕ) (records : List HirRecord) (variants : List HirVariant) :
    Option (List CycleDiagnostic) :=
  ((layoutGraph (declared records variants)).search fuel (walkStarts records variants)).map
    fun s => (s.closings.foldl reportCycle ([], [])).2

end Napitia.Typeck
