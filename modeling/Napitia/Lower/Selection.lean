import Napitia.Interpreter.Shape
import Napitia.Lower.Matrix

/-!
# A decision made on a value

What the decision tree of a `match` comes to on one runtime value: the rows it
keeps at each column, read off the value instead of branched on. The arm it ends
with is the first one whose pattern accepts the value. Beside it the decision
notes whether the arm takes a NaN out of a shell: the payload positions it
binds, takes apart or leaves to a wildcard of its own.
-/
namespace Napitia.Interpreter

mutual

/-- Whether a NaN stands anywhere inline in a value. -/
def Value.hasNan : Value → Bool
  | .float x => x.isNan
  | .record _ _ fields => Value.hasNanAny fields
  | .variant _ _ _ payload => Value.hasNanAny payload
  | _ => false

def Value.hasNanAny : List Value → Bool
  | [] => false
  | v :: vs => v.hasNan || Value.hasNanAny vs

end

mutual

theorem Value.eqv_self : ∀ v : Value, v.eqv v = !v.hasNan
  | .float x => by simp [Value.eqv, Value.hasNan, F64.eq]
  | .record item typeArgs fields => by
    simp [Value.eqv, Value.hasNan, Value.eqvList_self fields]
  | .variant item typeArgs case payload => by
    simp [Value.eqv, Value.hasNan, Value.eqvList_self payload]
  | .int _ | .bool _ | .char _ | .str _ | .unit | .resource _ | .moved | .dropped => by
    simp [Value.eqv, Value.hasNan]

theorem Value.eqvList_self : ∀ vs : List Value, Value.eqvList vs vs = !Value.hasNanAny vs
  | [] => by simp [Value.eqvList, Value.hasNanAny]
  | v :: vs => by
    simp [Value.eqvList, Value.hasNanAny, Value.eqv_self v, Value.eqvList_self vs]

end

end Napitia.Interpreter

namespace Napitia.Typeck
open Interpreter

mutual

/-- Whether a pattern accepts a runtime value. -/
def ResolvedPattern.accepts : ResolvedPattern → Value → Bool
  | .wildcard, _ => true
  | .bool b, .bool c => b = c
  | .literal (.int n), .int x => x.toInt = n
  | .literal (.str a), .str b => a = b
  | .literal (.char a), .char b => a = b
  | .variant item case args, .variant item' _ case' payload =>
    item = item' && case = case' && ResolvedPattern.acceptsAll args payload
  | _, _ => false

def ResolvedPattern.acceptsAll : List ResolvedPattern → List Value → Bool
  | [], [] => true
  | p :: ps, v :: vs => p.accepts v && ResolvedPattern.acceptsAll ps vs
  | _, _ => false

end

namespace ResolvedPattern

@[simp] theorem accepts_wildcard (v : Value) : accepts .wildcard v = true := by
  simp [accepts]

@[simp] theorem acceptsAll_nil : acceptsAll [] [] = true := by simp [acceptsAll]

@[simp] theorem acceptsAll_cons (p : ResolvedPattern) (ps : List ResolvedPattern) (v : Value)
    (vs : List Value) : acceptsAll (p :: ps) (v :: vs) = (p.accepts v && acceptsAll ps vs) := by
  simp [acceptsAll]

theorem acceptsAll_length {ps : List ResolvedPattern} {vs : List Value}
    (h : acceptsAll ps vs = true) : ps.length = vs.length := by
  induction ps generalizing vs with
  | nil =>
    cases vs with
    | nil => rfl
    | cons v vs => simp [acceptsAll] at h
  | cons p ps ih =>
    cases vs with
    | nil => simp [acceptsAll] at h
    | cons v vs =>
      rw [acceptsAll_cons, Bool.and_eq_true] at h
      simp [ih h.2]

theorem acceptsAll_append {ps qs : List ResolvedPattern} {vs ws : List Value}
    (hlen : ps.length = vs.length) :
    acceptsAll (ps ++ qs) (vs ++ ws) = (acceptsAll ps vs && acceptsAll qs ws) := by
  induction ps generalizing vs with
  | nil =>
    have hnil : vs = [] := List.length_eq_zero_iff.mp hlen.symm
    simp [hnil]
  | cons p ps ih =>
    cases vs with
    | nil => simp at hlen
    | cons v vs =>
      have hlen' : ps.length = vs.length := by simpa using hlen
      simp only [List.cons_append, acceptsAll_cons, ih hlen', Bool.and_assoc]

theorem acceptsAll_wildcards {vs : List Value} {ps : List ResolvedPattern}
    (hlen : ps.length = vs.length) (h : ∀ p ∈ ps, p = .wildcard) : acceptsAll ps vs = true := by
  induction ps generalizing vs with
  | nil =>
    have hnil : vs = [] := List.length_eq_zero_iff.mp hlen.symm
    simp [hnil]
  | cons p ps ih =>
    cases vs with
    | nil => simp at hlen
    | cons v vs =>
      have hlen' : ps.length = vs.length := by simpa using hlen
      simp [h p (by simp), ih hlen' fun q hq => h q (by simp [hq])]

end ResolvedPattern

end Napitia.Typeck

namespace Napitia.Lower
open Nir Typeck Interpreter

/-- A position of the value still to be decided. Every position but the
scrutinee's own is inside a shell. -/
structure Position where
  ty : Ty
  value : Value
  inner : Bool

/-- A NaN that would have to leave a shell. -/
def Position.taints (pos : Position) : Bool := pos.inner && pos.value.hasNan

def PatternSlot.isReal : PatternSlot → Bool
  | .real _ => true
  | _ => false

/-- An arm still in play: what it asks of the pending positions, and whether it
has taken a NaN out of a shell of its own. -/
structure Contender where
  arm : ℕ
  slots : List PatternSlot
  tainted : Bool := false

namespace Contender

def head (c : Contender) : PatternSlot := c.slots.headD .wildcard

/-- Whether the contender accepts the values that are pending. -/
def accepts (L : Lowering) (positions : List Position) (c : Contender) : Bool :=
  ResolvedPattern.acceptsAll (c.slots.map L.resolveSlot) (positions.map (·.value))

/-- The contender with new slots in place of the one it was decided on. -/
def advance (c : Contender) (slots : List PatternSlot) : Contender :=
  { c with slots := slots ++ c.slots.tail }

/-- The same, for a position it takes. -/
def take (c : Contender) (pos : Position) (slots : List PatternSlot) : Contender :=
  { c with
    slots := slots ++ c.slots.tail
    tainted := c.tainted || (c.head.isReal && pos.taints) }

end Contender

section
variable (L : Lowering)

/-- The contender past a position that it does not test. -/
def Lowering.passOver (pos : Position) (c : Contender) : Option Contender :=
  match L.classify c.head with
  | .wildcard | .bind _ => some (c.take pos [])
  | _ => none

/-- The contender past a position that holds the literal. -/
def Lowering.holdsLiteral (lit : LiteralTest) (pos : Position) (c : Contender) :
    Option Contender :=
  match L.classify c.head with
  | .literal l => if l = lit then some (c.advance []) else none
  | .wildcard | .bind _ => some (c.take pos [])
  | .case .. => none

/-- The contender past the shell of a position of the case. -/
def Lowering.holdsCase (item : ItemId) (case arity : ℕ) (pos : Position) (c : Contender) :
    Option Contender :=
  match L.classify c.head with
  | .case variant k args =>
    if variant = item ∧ k = case ∧ args.length = arity then some (c.take pos (args.map .real))
    else none
  | .bind _ => some (c.take pos (List.replicate arity .owned))
  | .wildcard =>
    let slot : PatternSlot := match c.head with
      | .owned => .owned
      | _ => .wildcard
    some (c.advance (List.replicate arity slot))
  | .literal _ => none

mutual

/-- The locals a pattern binds on a value that it accepts, each with the value at
its position. -/
def Lowering.binders : HirPattern → Value → List (LocalId × Value)
  | .bind id binding, v =>
    match L.patternCase.lookup id with
    | some _ => []
    | none => [(binding, v)]
  | .variant _ args, .variant _ _ _ payload => Lowering.bindersAll args payload
  | _, _ => []

def Lowering.bindersAll : List HirPattern → List Value → List (LocalId × Value)
  | p :: ps, v :: vs => Lowering.binders p v ++ Lowering.bindersAll ps vs
  | _, _ => []

end

/-- The variant a type instantiates. -/
def Lowering.variantOf (ty : Ty) : Option VariantLayout :=
  (declarationOf ty).bind fun p => L.module.findVariant p.1

/-- The payload types of a case at an instantiation of its variant. -/
def Lowering.payloadTypes (ty : Ty) (case : ℕ) : List Ty :=
  match declarationOf ty, L.variantOf ty with
  | some (_, args), some layout =>
    let subst : Subst := ((layout.typeParams.map (·.1)).zip args).foldl
      (fun s p => s.insert p.1 p.2) ∅
    ((layout.cases[case]?.map (·.payload)).getD []).map fun ty => substitute ty subst
  | _, _ => []

/-- The positions behind a shell. -/
def Lowering.payloadPositions (ty : Ty) (case : ℕ) (payload : List Value) : List Position :=
  payload.mapIdx fun i value => ⟨((L.payloadTypes ty case)[i]?).getD .unit, value, true⟩

def Lowering.decideOn : ℕ → List Contender → List Position → Option Contender
  | 0, _, _ => none
  | _ + 1, cs, [] => cs.head?
  | n + 1, cs, pos :: rest =>
    if (L.variantOf pos.ty).isSome then
      if cs.any fun c => (L.classify c.head).isCase then
        match pos.value with
        | .variant item _ case payload =>
          Lowering.decideOn n (cs.filterMap (L.holdsCase item case payload.length pos))
            (L.payloadPositions pos.ty case payload ++ rest)
        | _ => none
      else Lowering.decideOn n (cs.filterMap (L.passOver pos)) rest
    else match pos.ty with
      | .bool =>
        if cs.any fun c => (L.classify c.head).isBool then
          match pos.value with
          | .bool b => Lowering.decideOn n (cs.filterMap (L.holdsLiteral (.bool b) pos)) rest
          | _ => none
        else Lowering.decideOn n (cs.filterMap (L.passOver pos)) rest
      | _ =>
        match cs.head? with
        | none => none
        | some first =>
          match L.classify first.head with
          | .wildcard | .bind _ => Lowering.decideOn n [first.take pos []] rest
          | .literal lit =>
            if lit.resolved.accepts pos.value then
              Lowering.decideOn n (cs.filterMap (L.holdsLiteral lit pos)) rest
            else Lowering.decideOn n (cs.filter fun c => !(L.classify c.head).isLiteral lit)
              (pos :: rest)
          | .case .. => none

/-- Whether the arm a value selects takes a NaN out of a shell it matches. -/
def Lowering.takesNan (ty : Ty) (arms : List HirPattern) (v : Value) : Bool :=
  ((L.decideOn (Limits.maxPatternDepth + 1)
    (arms.zipIdx.map fun p => { arm := p.2, slots := [.real p.1] })
    [⟨ty, v, false⟩]).map (·.tainted)).getD false

end

/-! ### Values of a type -/

/-- A value the interpreter takes for one of the type under the running frame's
instantiation. -/
structure Fits (t : ResourceTable) (frame : Subst) (v : Value) (ty : Ty) : Prop where
  executable : unexecutableNumericName (substitute ty frame) = none
  declared : argumentMatchesDeclared t v (substitute ty frame) = .ok true
  live : v.isTombstone = false

/-- A runtime value of a type: one the interpreter takes for it and, where the
type is a variant, a shell of one of its cases around values of the payload. -/
inductive Lowering.RunsAs (L : Lowering) (t : ResourceTable) (frame : Subst) : Value → Ty → Prop
  | plain {v : Value} {ty : Ty} : L.variantOf ty = none → Fits t frame v ty →
      Lowering.RunsAs L t frame v ty
  | shell {item : ItemId} {args typeArgs : List Ty} {case : ℕ} {payload : List Value} {ty : Ty}
      {layout : VariantLayout} {caseLayout : CaseLayout} :
      declarationOf ty = some (item, args) → L.module.findVariant item = some layout →
      layout.cases[case]? = some caseLayout → payload.length = caseLayout.payload.length →
      (∀ (i : ℕ) (u : Value) (uty : Ty), payload[i]? = some u → (L.payloadTypes ty case)[i]? = some uty →
        Lowering.RunsAs L t frame u uty) →
      Fits t frame (.variant item typeArgs case payload) ty →
      Lowering.RunsAs L t frame (.variant item typeArgs case payload) ty

section
variable {L : Lowering} {t : ResourceTable} {frame : Subst} {v : Value} {ty : Ty}

theorem Lowering.RunsAs.fits (h : L.RunsAs t frame v ty) : Fits t frame v ty := by
  cases h with
  | plain _ hfits => exact hfits
  | shell _ _ _ _ _ hfits => exact hfits

theorem Lowering.RunsAs.bool (h : L.RunsAs t frame v .bool) : ∃ b, v = .bool b := by
  have hdecl := h.fits.declared
  have hbool : substitute .bool frame = .bool := rfl
  rw [hbool] at hdecl
  cases v with
  | bool b => exact ⟨b, rfl⟩
  | _ => cases hdecl

theorem Lowering.RunsAs.shell_inv {layout : VariantLayout} (h : L.RunsAs t frame v ty)
    (hv : L.variantOf ty = some layout) :
    ∃ item args typeArgs case payload caseLayout, v = .variant item typeArgs case payload ∧
      declarationOf ty = some (item, args) ∧ L.module.findVariant item = some layout ∧
      layout.cases[case]? = some caseLayout ∧ payload.length = caseLayout.payload.length ∧
      ∀ (i : ℕ) (u : Value) (uty : Ty), payload[i]? = some u → (L.payloadTypes ty case)[i]? = some uty →
        L.RunsAs t frame u uty := by
  cases h with
  | plain hnone _ => simp [hv] at hnone
  | @shell item args typeArgs case payload ty layout' caseLayout hdecl hfind hcase hlen hparts _ =>
    have heq : layout' = layout := by
      rw [Lowering.variantOf, hdecl, Option.bind_some, hfind] at hv
      exact Option.some.inj hv
    subst heq
    exact ⟨item, args, typeArgs, case, payload, caseLayout, rfl, hdecl, hfind, hcase, hlen, hparts⟩

theorem payloadTypes_eq {item : ItemId} {args : List Ty} {case : ℕ} {layout : VariantLayout}
    {caseLayout : CaseLayout} (hdecl : declarationOf ty = some (item, args))
    (hfind : L.module.findVariant item = some layout)
    (hcase : layout.cases[case]? = some caseLayout) :
    L.payloadTypes ty case = caseLayout.payload.map fun ty => substitute ty
      (((layout.typeParams.map (·.1)).zip args).foldl (fun s p => s.insert p.1 p.2) ∅) := by
  simp [Lowering.payloadTypes, Lowering.variantOf, hdecl, hfind, hcase]

theorem map_value_payloadPositions (L : Lowering) (ty : Ty) (case : ℕ) (payload : List Value) :
    (L.payloadPositions ty case payload).map (·.value) = payload := by
  apply List.ext_getElem
  · simp [Lowering.payloadPositions]
  · simp [Lowering.payloadPositions]

theorem Lowering.RunsAs.payload {item : ItemId} {typeArgs : List Ty} {case : ℕ}
    {payload : List Value} (h : L.RunsAs t frame (.variant item typeArgs case payload) ty)
    (hv : (L.variantOf ty).isSome) :
    ∀ pos ∈ L.payloadPositions ty case payload, L.RunsAs t frame pos.value pos.ty := by
  obtain ⟨layout, hlayout⟩ := Option.isSome_iff_exists.mp hv
  obtain ⟨item', args, typeArgs', case', payload', caseLayout, heq, hdecl, hfind, hcase, hlen,
    hparts⟩ := h.shell_inv hlayout
  cases heq
  intro pos hpos
  obtain ⟨i, hi, rfl⟩ := List.mem_mapIdx.mp hpos
  have htypes := payloadTypes_eq hdecl hfind hcase
  have hlt : i < (L.payloadTypes ty case).length := by
    rw [htypes, List.length_map, ← hlen]
    exact hi
  have hget : (L.payloadTypes ty case)[i]? = some (L.payloadTypes ty case)[i] :=
    List.getElem?_eq_getElem hlt
  have hpart := hparts i payload[i] _ (List.getElem?_eq_getElem hi) hget
  simpa [hget] using hpart

end

/-! ### The first arm that accepts -/

/-- The first contender with the property is one of this arm. -/
def FirstIn (P : Contender → Prop) (cs : List Contender) (arm : ℕ) : Prop :=
  ∃ before c after, cs = before ++ c :: after ∧ c.arm = arm ∧ P c ∧ ∀ d ∈ before, ¬ P d

section
variable {P Q : Contender → Prop} {cs : List Contender} {arm : ℕ}

theorem FirstIn.cons_of_not {c : Contender} (hc : ¬ P c) (h : FirstIn P cs arm) :
    FirstIn P (c :: cs) arm := by
  obtain ⟨before, d, after, rfl, harm, hd, hbefore⟩ := h
  refine ⟨c :: before, d, after, rfl, harm, hd, ?_⟩
  rintro e (_ | ⟨_, he⟩)
  · exact hc
  · exact hbefore e he

/-- A step that keeps the arm and the acceptance of every contender it keeps,
and drops only contenders that do not accept, keeps the first one. -/
theorem FirstIn.of_filterMap {f : Contender → Option Contender}
    (hsome : ∀ c ∈ cs, ∀ d, f c = some d → d.arm = c.arm ∧ (Q d ↔ P c))
    (hnone : ∀ c ∈ cs, f c = none → ¬ P c) (h : FirstIn Q (cs.filterMap f) arm) :
    FirstIn P cs arm := by
  induction cs with
  | nil =>
    obtain ⟨before, c, after, heq, -⟩ := h
    simp at heq
  | cons c cs ih =>
    have ih' := ih (fun d hd => hsome d (by simp [hd])) fun d hd => hnone d (by simp [hd])
    cases hf : f c with
    | none =>
      rw [List.filterMap_cons_none hf] at h
      exact (ih' h).cons_of_not (hnone c (by simp) hf)
    | some d =>
      obtain ⟨harm, hiff⟩ := hsome c (by simp) d hf
      rw [List.filterMap_cons_some hf] at h
      obtain ⟨before, e, after, heq, he, hQ, hbefore⟩ := h
      cases before with
      | nil =>
        rw [List.nil_append, List.cons.injEq] at heq
        obtain ⟨rfl, -⟩ := heq
        exact ⟨[], c, cs, rfl, harm.symm.trans he, hiff.mp hQ, by simp⟩
      | cons b before =>
        rw [List.cons_append, List.cons.injEq] at heq
        obtain ⟨rfl, heq⟩ := heq
        have hnot : ¬ P c := fun hP => hbefore d (by simp) (hiff.mpr hP)
        exact (ih' ⟨before, e, after, heq, he, hQ,
          fun x hx => hbefore x (by simp [hx])⟩).cons_of_not hnot

end

section
variable {L : Lowering} {pos : Position} {rest : List Position} {c d : Contender}

/-- A contender that has a slot for each pending position. -/
def Contender.Spans (c : Contender) (positions : List Position) : Prop :=
  c.slots.length = positions.length

theorem Contender.accepts_cons (hspans : c.Spans (pos :: rest)) :
    c.accepts L (pos :: rest) = ((L.resolveClass (L.classify c.head)).accepts pos.value &&
      ResolvedPattern.acceptsAll (c.slots.tail.map L.resolveSlot) (rest.map (·.value))) := by
  obtain ⟨arm, slots, tainted⟩ := c
  cases slots with
  | nil => simp [Contender.Spans] at hspans
  | cons slot slots =>
    simp [Contender.accepts, Contender.head, resolveSlot_eq]

/-- What a step that keeps a contender keeps of it. -/
structure Keeps (L : Lowering) (positions positions' : List Position) (c d : Contender) :
    Prop where
  arm : d.arm = c.arm
  spans : d.Spans positions'
  accepts : d.accepts L positions' = c.accepts L positions

theorem keeps_slots (slots : List PatternSlot) (inside : List Position)
    (hspans : c.Spans (pos :: rest)) (harm : d.arm = c.arm)
    (hslots : d.slots = slots ++ c.slots.tail) (hlen : slots.length = inside.length)
    (haccepts : (L.resolveClass (L.classify c.head)).accepts pos.value =
      ResolvedPattern.acceptsAll (slots.map L.resolveSlot) (inside.map (·.value))) :
    Keeps L (pos :: rest) (inside ++ rest) c d := by
  refine ⟨harm, ?_, ?_⟩
  · simp only [Contender.Spans, List.length_cons] at hspans
    simp [Contender.Spans, hslots, hlen, hspans]
  · rw [Contender.accepts_cons hspans, haccepts, Contender.accepts, hslots, List.map_append,
      List.map_append, ResolvedPattern.acceptsAll_append (by simpa using hlen)]

theorem keeps_next (hspans : c.Spans (pos :: rest)) (harm : d.arm = c.arm)
    (hslots : d.slots = c.slots.tail)
    (haccepts : (L.resolveClass (L.classify c.head)).accepts pos.value = true) :
    Keeps L (pos :: rest) rest c d :=
  keeps_slots [] [] hspans harm hslots rfl (by simpa using haccepts)

theorem passOver_keeps (hspans : c.Spans (pos :: rest)) (h : L.passOver pos c = some d) :
    Keeps L (pos :: rest) rest c d := by
  unfold Lowering.passOver at h
  cases hc : L.classify c.head with
  | wildcard =>
    simp only [hc, Option.some.injEq] at h
    subst h
    exact keeps_next hspans rfl rfl (by simp [hc, Lowering.resolveClass])
  | bind binding =>
    simp only [hc, Option.some.injEq] at h
    subst h
    exact keeps_next hspans rfl rfl (by simp [hc, Lowering.resolveClass])
  | case item k args => simp [hc] at h
  | literal test => simp [hc] at h

theorem not_accepts (hspans : c.Spans (pos :: rest))
    (h : (L.resolveClass (L.classify c.head)).accepts pos.value = false) :
    ¬ c.accepts L (pos :: rest) = true := by
  rw [Contender.accepts_cons hspans, h]
  simp

theorem holdsLiteral_keeps {lit : LiteralTest} (hspans : c.Spans (pos :: rest))
    (hlit : lit.resolved.accepts pos.value = true) (h : L.holdsLiteral lit pos c = some d) :
    Keeps L (pos :: rest) rest c d := by
  unfold Lowering.holdsLiteral at h
  cases hc : L.classify c.head with
  | wildcard =>
    simp only [hc, Option.some.injEq] at h
    subst h
    exact keeps_next hspans rfl rfl (by simp [hc, Lowering.resolveClass])
  | bind binding =>
    simp only [hc, Option.some.injEq] at h
    subst h
    exact keeps_next hspans rfl rfl (by simp [hc, Lowering.resolveClass])
  | case item k args => simp [hc] at h
  | literal test =>
    simp only [hc, Option.ite_none_right_eq_some, Option.some.injEq] at h
    obtain ⟨rfl, rfl⟩ := h
    exact keeps_next hspans rfl rfl (by simpa [hc, Lowering.resolveClass] using hlit)

theorem LiteralTest.eq_of_accepts {a b : LiteralTest} {v : Value}
    (ha : a.resolved.accepts v = true) (hb : b.resolved.accepts v = true) : a = b := by
  cases a <;> cases b <;> cases v <;>
    simp_all [LiteralTest.resolved, ResolvedPattern.accepts]

theorem holdsLiteral_drops {lit : LiteralTest} (hspans : c.Spans (pos :: rest))
    (hlit : lit.resolved.accepts pos.value = true) (h : L.holdsLiteral lit pos c = none) :
    ¬ c.accepts L (pos :: rest) = true := by
  unfold Lowering.holdsLiteral at h
  cases hc : L.classify c.head with
  | wildcard => simp [hc] at h
  | bind binding => simp [hc] at h
  | case item k args =>
    apply not_accepts hspans
    rw [hc]
    cases lit <;> cases hv : pos.value <;>
      simp_all [Lowering.resolveClass, LiteralTest.resolved, ResolvedPattern.accepts]
  | literal test =>
    simp only [hc, ite_eq_right_iff, reduceCtorEq, imp_false] at h
    apply not_accepts hspans
    rw [hc, Lowering.resolveClass, ← Bool.not_eq_true]
    exact fun htest => h (LiteralTest.eq_of_accepts htest hlit)

theorem holdsCase_keeps {item : ItemId} {typeArgs : List Ty} {case : ℕ} {payload : List Value}
    (hspans : c.Spans (pos :: rest)) (hv : pos.value = .variant item typeArgs case payload)
    (h : L.holdsCase item case payload.length pos c = some d) :
    Keeps L (pos :: rest) (L.payloadPositions pos.ty case payload ++ rest) c d := by
  have hvalues := map_value_payloadPositions L pos.ty case payload
  have hlen : (L.payloadPositions pos.ty case payload).length = payload.length := by
    simp [Lowering.payloadPositions]
  have hfill : ∀ slot : PatternSlot, L.resolveSlot slot = .wildcard →
      ResolvedPattern.acceptsAll ((List.replicate payload.length slot).map L.resolveSlot)
        ((L.payloadPositions pos.ty case payload).map (·.value)) = true := by
    intro slot hslot
    rw [hvalues]
    apply ResolvedPattern.acceptsAll_wildcards
    · simp
    · intro p hp
      simp only [List.map_replicate] at hp
      rw [(List.mem_replicate.mp hp).2, hslot]
  unfold Lowering.holdsCase at h
  cases hc : L.classify c.head with
  | wildcard =>
    simp only [hc, Option.some.injEq] at h
    subst h
    refine keeps_slots _ _ hspans rfl rfl (by simp [hlen]) ?_
    rw [hc, hfill _ (by split <;> rfl)]
    simp [Lowering.resolveClass]
  | bind binding =>
    simp only [hc, Option.some.injEq] at h
    subst h
    refine keeps_slots _ _ hspans rfl rfl (by simp [hlen]) ?_
    rw [hc, hfill _ rfl]
    simp [Lowering.resolveClass]
  | case variant k args =>
    simp only [hc, Option.ite_none_right_eq_some, Option.some.injEq] at h
    obtain ⟨⟨rfl, rfl, harity⟩, rfl⟩ := h
    refine keeps_slots _ _ hspans rfl rfl (by simp [hlen, harity]) ?_
    rw [hc, hvalues, hv]
    simp [Lowering.resolveClass, ResolvedPattern.accepts, List.map_map, Function.comp_def,
      Lowering.resolveSlot]
  | literal test => simp [hc] at h

theorem holdsCase_drops {item : ItemId} {typeArgs : List Ty} {case : ℕ} {payload : List Value}
    (hspans : c.Spans (pos :: rest)) (hv : pos.value = .variant item typeArgs case payload)
    (h : L.holdsCase item case payload.length pos c = none) :
    ¬ c.accepts L (pos :: rest) = true := by
  unfold Lowering.holdsCase at h
  cases hc : L.classify c.head with
  | wildcard => simp [hc] at h
  | bind binding => simp [hc] at h
  | case variant k args =>
    simp only [hc, ite_eq_right_iff, reduceCtorEq, imp_false] at h
    apply not_accepts hspans
    rw [hc, hv, ← Bool.not_eq_true]
    intro haccepts
    simp only [Lowering.resolveClass, ResolvedPattern.accepts, Bool.and_eq_true,
      decide_eq_true_eq] at haccepts
    have hlen := ResolvedPattern.acceptsAll_length haccepts.2
    rw [List.length_map] at hlen
    exact h ⟨haccepts.1.1, haccepts.1.2, hlen⟩
  | literal test =>
    apply not_accepts hspans
    rw [hc, hv]
    cases test <;> simp [Lowering.resolveClass, LiteralTest.resolved, ResolvedPattern.accepts]

theorem passOver_drops (tests : Classified → Bool) (hspans : c.Spans (pos :: rest))
    (huntested : tests (L.classify c.head) = false)
    (htests : ∀ k, tests k = false → k ≠ .wildcard → (∀ b, k ≠ .bind b) →
      (L.resolveClass k).accepts pos.value = false)
    (h : L.passOver pos c = none) : ¬ c.accepts L (pos :: rest) = true := by
  apply not_accepts hspans
  apply htests _ huntested
  · intro hc
    simp [Lowering.passOver, hc] at h
  · intro b hc
    simp [Lowering.passOver, hc] at h

end

section
variable {L : Lowering} {t : ResourceTable} {frame : Subst}

/-- A decision names the first arm that accepts. -/
theorem decideOn_first (t : ResourceTable) (frame : Subst) {n : ℕ} {cs : List Contender} {positions : List Position} {w : Contender}
    (hspans : ∀ c ∈ cs, c.Spans positions)
    (hruns : ∀ pos ∈ positions, L.RunsAs t frame pos.value pos.ty)
    (h : L.decideOn n cs positions = some w) :
    FirstIn (fun c => c.accepts L positions = true) cs w.arm := by
  induction n generalizing cs positions with
  | zero => simp [Lowering.decideOn] at h
  | succ n ih =>
    cases positions with
    | nil =>
      rw [Lowering.decideOn] at h
      obtain ⟨after, rfl⟩ := List.head?_eq_some_iff.mp h
      have hw := hspans w (by simp)
      have hnil : w.slots = [] := List.length_eq_zero_iff.mp hw
      exact ⟨[], w, after, rfl, rfl, by simp [Contender.accepts, hnil], by simp⟩
    | cons pos rest =>
      have hpos := hruns pos (by simp)
      have hrest : ∀ p ∈ rest, L.RunsAs t frame p.value p.ty :=
        fun p hp => hruns p (by simp [hp])
      -- every step below is a filter that keeps what accepts
      have hstep : ∀ {f : Contender → Option Contender} {positions' : List Position},
          (∀ p ∈ positions', L.RunsAs t frame p.value p.ty) →
          (∀ c ∈ cs, ∀ d, f c = some d → Keeps L (pos :: rest) positions' c d) →
          (∀ c ∈ cs, f c = none → ¬ c.accepts L (pos :: rest) = true) →
          L.decideOn n (cs.filterMap f) positions' = some w →
          FirstIn (fun c => c.accepts L (pos :: rest) = true) cs w.arm := by
        intro f positions' hruns' hkeeps hdrops hdecide
        refine FirstIn.of_filterMap (fun c hc d hd => ⟨(hkeeps c hc d hd).arm, ?_⟩) hdrops
          (ih ?_ hruns' hdecide)
        · rw [(hkeeps c hc d hd).accepts]
        · intro d hd
          obtain ⟨c, hc, hf⟩ := List.mem_filterMap.mp hd
          exact (hkeeps c hc d hf).spans
      unfold Lowering.decideOn at h
      by_cases hvariant : (L.variantOf pos.ty).isSome
      · rw [if_pos hvariant] at h
        obtain ⟨layout, hlayout⟩ := Option.isSome_iff_exists.mp hvariant
        obtain ⟨item, args, typeArgs, case, payload, caseLayout, hv, -⟩ := hpos.shell_inv hlayout
        split at h
        · rw [hv] at h
          refine hstep ?_ (fun c hc d hd => holdsCase_keeps (hspans c hc) hv hd)
            (fun c hc hd => holdsCase_drops (hspans c hc) hv hd) h
          intro p hp
          rcases List.mem_append.mp hp with hin | hin
          · rw [hv] at hpos
            exact hpos.payload hvariant p hin
          · exact hrest p hin
        · rename_i huntested
          refine hstep hrest (fun c hc d hd => passOver_keeps (hspans c hc) hd)
            (fun c hc hd => passOver_drops Classified.isCase (hspans c hc) ?_ ?_ hd) h
          · rw [List.any_eq_true, not_exists] at huntested
            simpa using fun hcase => huntested c ⟨hc, hcase⟩
          · intro k hk hwild hbind
            rw [hv]
            cases k with
            | wildcard => exact absurd rfl hwild
            | bind b => exact absurd rfl (hbind b)
            | case i j args => simp [Classified.isCase] at hk
            | literal test =>
              cases test <;>
                simp [Lowering.resolveClass, LiteralTest.resolved, ResolvedPattern.accepts]
      · rw [if_neg hvariant] at h
        split at h
        · rename_i hty
          rw [hty] at hpos
          obtain ⟨b, hb⟩ := hpos.bool
          split at h
          · rw [hb] at h
            have hlit : (LiteralTest.bool b).resolved.accepts pos.value = true := by
              simp [hb, LiteralTest.resolved, ResolvedPattern.accepts]
            exact hstep hrest (fun c hc d hd => holdsLiteral_keeps (hspans c hc) hlit hd)
              (fun c hc hd => holdsLiteral_drops (hspans c hc) hlit hd) h
          · rename_i huntested
            refine hstep hrest (fun c hc d hd => passOver_keeps (hspans c hc) hd)
              (fun c hc hd => passOver_drops Classified.isBool (hspans c hc) ?_ ?_ hd) h
            · rw [List.any_eq_true, not_exists] at huntested
              simpa using fun hbool => huntested c ⟨hc, hbool⟩
            · intro k hk hwild hbind
              rw [hb]
              cases k with
              | wildcard => exact absurd rfl hwild
              | bind b => exact absurd rfl (hbind b)
              | case i j args => simp [Lowering.resolveClass, ResolvedPattern.accepts]
              | literal test =>
                cases test <;> simp_all [Lowering.resolveClass, LiteralTest.resolved,
                  ResolvedPattern.accepts, Classified.isBool]
        · cases hfirst : cs.head? with
          | none => simp [hfirst] at h
          | some first =>
            obtain ⟨after, rfl⟩ := List.head?_eq_some_iff.mp hfirst
            simp only [List.head?_cons] at h
            have hkeep : ∀ {d : Contender}, L.passOver pos first = some d →
                L.decideOn n [d] rest = some w →
                FirstIn (fun c => c.accepts L (pos :: rest) = true) (first :: after) w.arm := by
              intro d hd hdecide
              have hd' := passOver_keeps (hspans first (by simp)) hd
              obtain ⟨before, e, tail, heq, harm, he, -⟩ :=
                ih (by simpa using hd'.spans) hrest hdecide
              obtain ⟨rfl, rfl, -⟩ : before = [] ∧ e = d ∧ tail = [] := by
                cases before <;> simp_all
              exact ⟨[], first, after, rfl, hd'.arm.symm.trans harm,
                hd'.accepts.symm.trans he, by simp⟩
            cases hc : L.classify first.head with
            | wildcard =>
              simp only [hc] at h
              exact hkeep (by simp [Lowering.passOver, hc]) h
            | bind binding =>
              simp only [hc] at h
              exact hkeep (by simp [Lowering.passOver, hc]) h
            | case item k args => simp [hc] at h
            | literal lit =>
              simp only [hc] at h
              split at h
              · rename_i hlit
                exact hstep hrest (fun c hc d hd => holdsLiteral_keeps (hspans c hc) hlit hd)
                  (fun c hc hd => holdsLiteral_drops (hspans c hc) hlit hd) h
              · rename_i hlit
                rw [← List.filterMap_eq_filter] at h
                refine hstep hruns (fun c hc d hd => ?_) (fun c hc hd => ?_) h
                · obtain ⟨rfl, -⟩ := Option.guard_eq_some_iff.mp hd
                  exact ⟨rfl, hspans c hc, rfl⟩
                · apply not_accepts (hspans c hc)
                  have hlit' : (L.classify c.head).isLiteral lit = true := by
                    simpa using hd
                  cases hk : L.classify c.head with
                  | literal test =>
                    rw [hk] at hlit'
                    obtain rfl : test = lit := by simpa [Classified.isLiteral] using hlit'
                    simpa [Lowering.resolveClass] using hlit
                  | _ => simp [hk, Classified.isLiteral] at hlit'

end

end Napitia.Lower
