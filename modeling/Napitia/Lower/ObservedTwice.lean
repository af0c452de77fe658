import Napitia.Hir.Observations
import Napitia.Lower.Functions
import Napitia.Resourceck.Visits
import Napitia.Resourceck.KeptPlans

/-!
# Observations that are begun twice

Name resolution gives every `observe` of a body an id of its own. Lowering begins one of
them twice exactly where an arm with an `observe` in it is reached by two leaves of the
decision of its `match`.
-/
namespace Napitia.Lower
open Nir
open Hir (ExprId HirHandleArmKind)
open Hir.Body
open Resourceck

/-! ### Trails without a doubled observation -/

/-- A trail comes to these observations only, and to one of them twice exactly where an arm
is reached twice. -/
structure Trail.Within (t : Trail) (ids : List ObservationId) : Prop where
  mem : ∀ id ∈ t.begun, id ∈ ids
  exact : ids.Nodup → (t.begun.Nodup ↔ t.doubled = false)

section
variable {t u : Trail} {ids others : List ObservationId}

theorem within_of_none (hbegun : t.begun = []) (hdoubled : t.doubled = false) :
    Trail.Within t ids where
  mem := by simp [hbegun]
  exact := by simp [hbegun, hdoubled]

theorem within_same (h : Trail.Within t ids) (hbegun : u.begun = t.begun)
    (hdoubled : u.doubled = t.doubled) : Trail.Within u ids := by
  constructor
  · rw [hbegun]
    exact h.mem
  · rw [hbegun, hdoubled]
    exact h.exact

theorem Trail.Within.mono (h : Trail.Within t ids) (hsub : ids.Sublist others) :
    Trail.Within t others :=
  ⟨fun id hid => hsub.subset (h.mem id hid), fun hnodup => h.exact (hnodup.sublist hsub)⟩

theorem Trail.Within.joined (h : Trail.Within t ids) : Trail.Within t.joined ids :=
  within_same h rfl rfl

theorem Trail.Within.asStmt (h : Trail.Within t ids) : Trail.Within t.asStmt ids :=
  within_same h rfl rfl

theorem Trail.Within.lost (h : Trail.Within t ids) : Trail.Within t.lost ids :=
  within_same h rfl rfl

theorem Trail.Within.inScope (h : Trail.Within t ids) (id : ExprId) :
    Trail.Within (t.inScope id) ids := by
  unfold Trail.inScope
  cases t.ending <;> exact within_same h rfl rfl

theorem within_leaves (id : ExprId) : Trail.Within (.leaves id) ids := within_of_none rfl rfl

theorem within_append {v : Trail} (ht : Trail.Within t ids) (hu : Trail.Within u others)
    (hbegun : v.begun = t.begun ++ u.begun) (hdoubled : v.doubled = (t.doubled || u.doubled)) :
    Trail.Within v (ids ++ others) where
  mem := by
    intro id hid
    rw [hbegun, List.mem_append] at hid
    exact List.mem_append.mpr (hid.imp (ht.mem id) (hu.mem id))
  exact := by
    intro hnodup
    have hparts := List.nodup_append'.mp hnodup
    have hdisjoint : t.begun.Disjoint u.begun := fun id ht' hu' =>
      hparts.2.2 (ht.mem id ht') (hu.mem id hu')
    rw [hbegun, List.nodup_append', ht.exact hparts.1, hu.exact hparts.2.1, hdoubled,
      Bool.or_eq_false_iff]
    exact ⟨fun h => ⟨h.1, h.2.1⟩, fun h => ⟨h.1, h.2, hdisjoint⟩⟩

theorem Trail.Within.andThen (ht : Trail.Within t ids) (hu : Trail.Within u others) :
    Trail.Within (t.andThen u) (ids ++ others) := by
  by_cases hending : t.ending = .value
  · rw [andThen_value hending]
    exact within_append ht hu rfl rfl
  · rw [andThen_gone hending]
    exact ht.mono (List.sublist_append_left _ _)

theorem within_pair {v : Trail} (ht : Trail.Within t ids) (hu : Trail.Within u others)
    (hv : v.begun = (Trail.all [t, u]).begun) (hdoubled : v.doubled = (Trail.all [t, u]).doubled) :
    Trail.Within v (ids ++ others) := by
  refine within_append ht hu ?_ ?_
  · rw [hv]
    simp [Trail.all]
  · rw [hdoubled]
    simp [Trail.all]

/-! ### Arms -/

/-- Arms with observations of their own. -/
inductive AllWithin : List Trail → List ObservationId → Prop
  | nil : AllWithin [] []
  | cons {t : Trail} {ts : List Trail} {ids others : List ObservationId} :
      Trail.Within t ids → AllWithin ts others → AllWithin (t :: ts) (ids ++ others)

theorem AllWithin.at {ts : List Trail} (h : AllWithin ts ids) (index : ℕ) :
    Trail.Within (ts.getD index {}) ids := by
  induction h generalizing index with
  | nil => exact within_of_none rfl rfl
  | cons ht _ ih =>
    cases index with
    | zero => exact ht.mono (List.sublist_append_left _ _)
    | succ index => exact (ih index).mono (List.sublist_append_right _ _)

theorem AllWithin.disjoint {ts : List Trail} (h : AllWithin ts ids) (hnodup : ids.Nodup) {i j : ℕ}
    (hne : i ≠ j) : (ts.getD i {}).begun.Disjoint (ts.getD j {}).begun := by
  induction h generalizing i j with
  | nil => simp
  | @cons t ts ids others ht hts ih =>
    have hparts := List.nodup_append'.mp hnodup
    have hapart : ∀ k, t.begun.Disjoint (ts.getD k {}).begun := fun k id ht' hk =>
      hparts.2.2 (ht.mem id ht') ((hts.at k).mem id hk)
    cases i with
    | zero =>
      cases j with
      | zero => exact absurd rfl hne
      | succ j => exact hapart j
    | succ i =>
      cases j with
      | zero => exact (hapart i).symm
      | succ j => exact ih hparts.2.1 (fun heq => hne (by rw [heq]))

end

/-- Lists that are apart, joined along a list that may repeat: nothing occurs twice in all
if nothing does in any of them and only empty ones are repeated. -/
theorem nodup_flatMap_iff {α β : Type} [BEq α] [LawfulBEq α] {g : α → List β} {ls : List α}
    (hapart : ∀ a b, a ≠ b → (g a).Disjoint (g b)) :
    (ls.flatMap g).Nodup ↔ (∀ l ∈ ls, (g l).Nodup) ∧ ∀ l ∈ ls, 1 < ls.count l → g l = [] := by
  induction ls with
  | nil => simp
  | cons a ls ih =>
    have hdisjoint : (g a).Disjoint (ls.flatMap g) ↔ (a ∈ ls → g a = []) := by
      constructor
      · intro h hmem
        rw [List.eq_nil_iff_forall_not_mem]
        exact fun x hx => h hx (List.mem_flatMap.mpr ⟨a, hmem, hx⟩)
      · intro h x hx hlater
        obtain ⟨b, hb, hxb⟩ := List.mem_flatMap.mp hlater
        by_cases heq : a = b
        · rw [h (heq ▸ hb)] at hx
          cases hx
        · exact hapart a b heq hx hxb
    have hcount : (∀ l ∈ a :: ls, 1 < (a :: ls).count l → g l = []) ↔
        (a ∈ ls → g a = []) ∧ ∀ l ∈ ls, 1 < ls.count l → g l = [] := by
      constructor
      · intro h
        refine ⟨fun hmem => h a List.mem_cons_self ?_, fun l hl hmany => ?_⟩
        · rw [List.count_cons_self]
          have hpos := List.count_pos_iff.mpr hmem
          omega
        · refine h l (List.mem_cons_of_mem a hl) (hmany.trans_le ?_)
          exact List.count_le_count_cons
      · rintro ⟨hfirst, hrest⟩ l hl hmany
        by_cases heq : l = a
        · subst heq
          rw [List.count_cons_self] at hmany
          exact hfirst (List.count_pos_iff.mp (by omega))
        · have hmem := (List.mem_cons.mp hl).resolve_left heq
          rw [List.count_cons_of_ne (Ne.symm heq)] at hmany
          exact hrest l hmem hmany
    rw [List.flatMap_cons, List.nodup_append', ih, hdisjoint, hcount, List.forall_mem_cons]
    tauto

section
variable {arms : List Trail} {ids : List ObservationId} (h : AllWithin arms ids)

theorem begun_leavesTrail (arms : List Trail) (ls : List (Option ℕ)) :
    (leavesTrail arms ls).begun = ls.flatMap fun l => (leafTrail arms l).begun := by
  unfold leavesTrail Trail.all
  rw [List.flatMap_map]

include h

theorem within_leafTrail (l : Option ℕ) : (leafTrail arms l).Within ids := by
  cases l with
  | none => exact within_of_none rfl rfl
  | some index => exact h.at index

theorem disjoint_leafTrail (hnodup : ids.Nodup) {l k : Option ℕ} (hne : l ≠ k) :
    (leafTrail arms l).begun.Disjoint (leafTrail arms k).begun := by
  cases l with
  | none => simp [leafTrail]
  | some i =>
    cases k with
    | none => simp [leafTrail]
    | some j => exact h.disjoint hnodup fun heq => hne (by rw [heq])

/-- A decision begins an observation twice exactly where an arm does, or where two leaves
reach an arm that begins one. -/
theorem within_leaves_doubled (ls : List (Option ℕ)) {t : Trail}
    (hbegun : t.begun = (leavesTrail arms ls).begun)
    (hdoubled : t.doubled = ((leavesTrail arms ls).doubled || reachedTwice arms ls)) :
    t.Within ids where
  mem := by
    intro id hid
    rw [hbegun, begun_leavesTrail] at hid
    obtain ⟨l, -, hl⟩ := List.mem_flatMap.mp hid
    exact (within_leafTrail h l).mem id hl
  exact := by
    intro hnodup
    have heach : (∀ l ∈ ls, (leafTrail arms l).begun.Nodup) ↔
        (leavesTrail arms ls).doubled = false := by
      unfold leavesTrail Trail.all
      rw [List.any_map, List.any_eq_false]
      refine forall₂_congr fun l _ => ?_
      rw [(within_leafTrail h l).exact hnodup]
      simp
    have htwice : (∀ l ∈ ls, 1 < ls.count l → (leafTrail arms l).begun = []) ↔
        reachedTwice arms ls = false := by
      unfold reachedTwice
      rw [List.any_eq_false]
      refine forall₂_congr fun l _ => ?_
      simp
    rw [hbegun, begun_leavesTrail, nodup_flatMap_iff fun l k => disjoint_leafTrail h hnodup,
      heach, htwice, hdoubled, Bool.or_eq_false_iff]

end

section
variable {B : BodyLowering} {arms : List Trail} {ids : List ObservationId}
  {kinds : List HirHandleArmKind}

theorem AllWithin.decision (h : AllWithin arms ids) (scrutinee : HirExpr)
    (patterns : List HirPattern) : (decisionTrail B scrutinee patterns arms).Within ids :=
  within_leaves_doubled h _ rfl rfl

theorem nodup_enteredArms (kinds : List HirHandleArmKind) (seen : List ℕ)
    (keys : List (ItemId × ℕ)) :
    (enteredArms kinds seen keys).Nodup ∧ ∀ i ∈ enteredArms kinds seen keys, i ∉ seen := by
  induction keys generalizing seen with
  | nil => simp [enteredArms]
  | cons key keys ih =>
    unfold enteredArms
    cases handlerOf kinds key with
    | none => exact ih seen
    | some index =>
      by_cases hseen : index ∈ seen
      · simp only [if_pos hseen]
        exact ih seen
      · simp only [if_neg hseen]
        have hlater := ih (index :: seen)
        refine ⟨List.nodup_cons.mpr ⟨fun hmem => hlater.2 index hmem List.mem_cons_self,
          hlater.1⟩, List.forall_mem_cons.mpr ⟨hseen, fun i hi hmem => ?_⟩⟩
        exact hlater.2 i hi (List.mem_cons_of_mem index hmem)

theorem isSuccess_of_handlerOf {key : ItemId × ℕ} {index : ℕ}
    (h : handlerOf kinds key = some index) :
    ∃ kind, kinds[index]? = some kind ∧ kind.isSuccess = false := by
  have hat : ∀ {p : HirHandleArmKind → Bool}, kinds.findIdx? p = some index →
      ∃ kind, kinds[index]? = some kind ∧ p kind = true := by
    intro p hfound
    obtain ⟨hlt, hp, -⟩ := List.findIdx?_eq_some_iff_getElem.mp hfound
    exact ⟨kinds[index], List.getElem?_eq_getElem hlt, hp⟩
  unfold handlerOf at h
  cases hnamed : kinds.findIdx? (·.names key) with
  | some named =>
    rw [hnamed] at h
    cases h
    obtain ⟨kind, hkind, hnames⟩ := hat hnamed
    refine ⟨kind, hkind, ?_⟩
    cases kind with
    | success pattern => cases hnames
    | failure pattern => rfl
  | none =>
    rw [hnamed] at h
    obtain ⟨kind, hkind, hwildcard⟩ := hat h
    refine ⟨kind, hkind, ?_⟩
    cases kind with
    | success pattern => cases hwildcard
    | failure pattern => rfl

theorem isSuccess_of_entered {seen : List ℕ} {keys : List (ItemId × ℕ)} {index : ℕ}
    (h : index ∈ enteredArms kinds seen keys) :
    ∃ kind, kinds[index]? = some kind ∧ kind.isSuccess = false := by
  induction keys generalizing seen with
  | nil => simp [enteredArms] at h
  | cons key keys ih =>
    unfold enteredArms at h
    cases hhandler : handlerOf kinds key with
    | none =>
      rw [hhandler] at h
      exact ih h
    | some found =>
      rw [hhandler] at h
      by_cases hseen : found ∈ seen
      · simp only [if_pos hseen] at h
        exact ih h
      · simp only [if_neg hseen] at h
        rcases List.mem_cons.mp h with rfl | hlater
        · exact isSuccess_of_handlerOf hhandler
        · exact ih hlater

theorem exists_index_of_success {t : Trail}
    (h : ((kinds.zip arms).find? (·.1.isSuccess)).map (·.2) = some t) :
    ∃ (index : ℕ) (kind : HirHandleArmKind), kinds[index]? = some kind ∧ kind.isSuccess = true ∧
      arms.getD index {} = t := by
  obtain ⟨⟨kind, t'⟩, hfound, rfl⟩ := Option.map_eq_some_iff.mp h
  have hsuccess := List.find?_some hfound
  obtain ⟨index, hindex⟩ := List.mem_iff_getElem?.mp (List.mem_of_find?_eq_some hfound)
  rw [List.getElem?_zip_eq_some] at hindex
  exact ⟨index, kind, hindex.1, hsuccess, by rw [List.getD, hindex.2, Option.getD_some]⟩

theorem AllWithin.dispatch (h : AllWithin arms ids) (operand : HirExpr) :
    (dispatchTrail B operand kinds arms).Within ids := by
  have hentered := nodup_enteredArms kinds [] (raisedCases B (raisedBy B operand))
  have hsome : ∃ js : List ℕ, js.Nodup ∧ dispatchTrail B operand kinds arms =
      leavesTrail arms (js.map some) := by
    cases hsuccess : ((kinds.zip arms).find? (·.1.isSuccess)).map (·.2) with
    | none =>
      refine ⟨_, hentered.1, ?_⟩
      rw [dispatchTrail, hsuccess, Option.toList_none, List.append_nil, leavesTrail, List.map_map]
      rfl
    | some t =>
      obtain ⟨index, kind, hkind, hisSuccess, rfl⟩ := exists_index_of_success hsuccess
      have hnot : index ∉ enteredArms kinds [] (raisedCases B (raisedBy B operand)) := by
        intro hmem
        obtain ⟨kind', hkind', hfailure⟩ := isSuccess_of_entered hmem
        rw [hkind] at hkind'
        cases hkind'
        rw [hisSuccess] at hfailure
        cases hfailure
      refine ⟨enteredArms kinds [] (raisedCases B (raisedBy B operand)) ++ [index], ?_, ?_⟩
      · rw [List.nodup_append']
        exact ⟨hentered.1, List.nodup_singleton _, List.disjoint_singleton.mpr hnot⟩
      · rw [dispatchTrail, hsuccess, Option.toList_some, leavesTrail, List.map_map, List.map_append]
        rfl
  obtain ⟨js, hjs, htrail⟩ := hsome
  have honce : reachedTwice arms (js.map some) = false := by
    unfold reachedTwice
    rw [List.any_eq_false]
    intro l hl
    have hcount := List.nodup_iff_count_le_one.mp (hjs.map (Option.some_injective ℕ)) l
    simp [Nat.not_lt.mpr hcount]
  rw [htrail]
  exact within_leaves_doubled h _ rfl (by rw [honce, Bool.or_false])

end

/-! ### Bodies -/

section
variable {t : Trail} {ids : List ObservationId}

theorem Trail.Within.follow {u : Trail} (h : t.Within ids) (hbegun : u.begun = [])
    (hdoubled : u.doubled = false) : (t.andThen u).Within ids := by
  have hnone : u.Within [] := within_of_none hbegun hdoubled
  have hall := h.andThen hnone
  rwa [List.append_nil] at hall

theorem Trail.Within.arm (h : t.Within ids) (never : Bool) (id : ExprId) :
    (armTrail never id t).Within ids := by
  unfold armTrail
  cases never with
  | true => exact h.lost
  | false => exact h.follow rfl rfl

theorem Trail.Within.afterParts (h : t.Within ids) (never : Bool) :
    (afterParts never t).Within ids := by
  cases never with
  | true => exact h.lost
  | false => exact h.joined

theorem Trail.Within.ifParts {u : Trail} {others : List ObservationId} (h : t.Within ids)
    (hu : u.Within others) (never : Bool) : (ifTrail never t u).Within (ids ++ others) :=
  (within_pair h hu rfl rfl).afterParts never

end

section
variable (B : BodyLowering) (retTy : Ty)

mutual

/-- A trail begins only observations of its expression. -/
theorem within_expr : ∀ e : HirExpr, (exprTrail B retTy e).Within e.observations
  | .int .. | .float .. | .str .. | .char .. | .bool .. | .localVar .. | .function ..
  | .caseRef .. | .protocolMethodRef .. | .cast .. | .error .. => by
    unfold exprTrail
    exact within_of_none rfl rfl
  | .unary _ _ operand => by
    unfold exprTrail HirExpr.observations
    exact within_expr operand
  | .binary _ op left right => by
    unfold exprTrail HirExpr.observations
    refine (within_expr left).andThen ?_
    split
    · exact (within_expr right).joined
    · exact (within_expr right).joined
    · exact within_expr right
  | .assign _ target _ value => by
    unfold exprTrail HirExpr.observations
    have hvalue := (within_expr value).mono (List.sublist_append_right target.observations _)
    have hboth := (within_expr target).andThen (within_expr value)
    split
    · exact hvalue
    · split
      · exact hvalue
      · exact hboth
    · exact hboth
  | .call _ callee args => by
    unfold exprTrail HirExpr.observations
    exact (within_expr callee).andThen (within_args args)
  | .field _ base => by
    unfold exprTrail HirExpr.observations
    split
    · exact within_of_none rfl rfl
    · exact within_expr base
  | .tryExpr _ operand => by
    unfold exprTrail HirExpr.observations
    exact (within_expr operand).follow rfl rfl
  | .ifExpr id condition thenBranch elseBranch => by
    unfold exprTrail HirExpr.observations
    exact (within_expr condition).andThen
      ((within_scoped thenBranch).ifParts (within_else elseBranch) (isNeverExpr B id))
  | .matchExpr id scrutinee arms => by
    unfold exprTrail HirExpr.observations
    exact (within_expr scrutinee).andThen
      (((within_arms (isNeverExpr B id) arms).decision scrutinee _).afterParts _)
  | .block body => by
    unfold exprTrail HirExpr.observations
    exact within_scoped body
  | .returnExpr _ none => by
    unfold exprTrail
    exact within_leaves _
  | .returnExpr _ (some value) => by
    unfold exprTrail HirExpr.observations valueObservations
    split
    · exact within_sink value (within_expr value)
    · exact (within_expr value).follow rfl rfl
  | .breakExpr .. | .continueExpr _ => by
    unfold exprTrail
    exact within_leaves _
  | .recordLiteral _ _ fields => by
    unfold exprTrail HirExpr.observations
    exact within_fields fields
  | .raise _ operand => by
    unfold exprTrail HirExpr.observations
    exact (within_expr operand).follow rfl rfl
  | .handle id operand arms => by
    unfold exprTrail HirExpr.observations
    exact (within_expr operand).andThen
      (((within_handlers (isNeverExpr B id) arms).dispatch operand).afterParts _)

theorem within_args : ∀ args, (argsTrail B retTy args).Within (argsObservations args)
  | [] => by
    unfold argsTrail
    exact within_of_none rfl rfl
  | arg :: rest => by
    unfold argsTrail argsObservations
    exact (within_expr arg).andThen (within_args rest)

theorem within_fields : ∀ fields, (fieldsTrail B retTy fields).Within (fieldsObservations fields)
  | [] => by
    unfold fieldsTrail
    exact within_of_none rfl rfl
  | .mk _ value :: rest => by
    unfold fieldsTrail fieldsObservations
    exact (within_expr value).andThen (within_fields rest)

theorem within_else : ∀ other : Option HirElse,
    (elseTrail B retTy other).Within (elseObservations other)
  | none => by
    unfold elseTrail
    exact within_of_none rfl rfl
  | some (.block body) => by
    unfold elseTrail elseObservations
    exact within_scoped body
  | some (.ifExpr inner) => by
    unfold elseTrail elseObservations
    exact within_expr inner

theorem within_scoped : ∀ body : HirBlock, (scopedTrail B retTy body).Within body.observations
  | .mk id statements tail => by
    unfold scopedTrail HirBlock.observations
    exact ((within_stmts statements).andThen (within_tail tail)).inScope id

theorem within_scopedVoid : ∀ body : HirBlock,
    (scopedVoidTrail B retTy body).Within body.observations
  | .mk id statements tail => by
    unfold scopedVoidTrail HirBlock.observations
    exact ((within_stmts statements).andThen (within_tail tail).asStmt).inScope id

theorem within_tail : ∀ tail : Option HirExpr,
    (tailTrail B retTy tail).Within (valueObservations tail)
  | none => by
    unfold tailTrail
    exact within_of_none rfl rfl
  | some tail => by
    unfold tailTrail valueObservations
    exact within_expr tail

theorem within_stmts : ∀ statements,
    (stmtsTrail B retTy statements).Within (stmtsObservations statements)
  | [] => by
    unfold stmtsTrail
    exact within_of_none rfl rfl
  | stmt :: rest => by
    unfold stmtsTrail stmtsObservations
    exact (within_stmt stmt).andThen (within_stmts rest)

theorem within_stmt : ∀ stmt : HirStmt, (stmtTrail B retTy stmt).Within stmt.observations
  | .binding _ value => by
    unfold stmtTrail HirStmt.observations
    exact (within_expr value).asStmt
  | .expr expr | .defer expr => by
    unfold stmtTrail HirStmt.observations
    exact (within_expr expr).asStmt
  | .drop expr => by
    unfold stmtTrail HirStmt.observations
    split
    · exact within_of_none rfl rfl
    · exact (within_expr expr).asStmt
  | .whileLoop condition body => by
    unfold stmtTrail HirStmt.observations
    exact ((within_expr condition).andThen (within_scopedVoid body).joined).asStmt
  | .loop body => by
    unfold stmtTrail HirStmt.observations
    exact (within_scopedVoid body).joined
  | .observe id source _ body => by
    unfold stmtTrail HirStmt.observations
    have hbegins : ({ begun := [id] } : Trail).Within [id] :=
      ⟨fun _ h => h, by simp⟩
    exact hbegins.andThen ((within_scopedVoid body).mono (List.sublist_append_right _ _))

theorem within_armBody : ∀ body : HirMatchArmBody,
    (armBodyTrail B retTy body).Within body.observations
  | .expr expr => by
    unfold armBodyTrail HirMatchArmBody.observations
    exact within_expr expr
  | .block (.mk _ statements tail) => by
    unfold armBodyTrail HirMatchArmBody.observations HirBlock.observations
    exact (within_stmts statements).andThen (within_tail tail)

theorem within_arms (never : Bool) : ∀ arms,
    AllWithin (armTrails B retTy never arms) (armsObservations arms)
  | [] => by
    unfold armTrails armsObservations
    exact .nil
  | .mk _ body :: rest => by
    unfold armTrails armsObservations
    exact .cons ((within_armBody body).arm never body.id) (within_arms never rest)

theorem within_handlers (never : Bool) : ∀ arms,
    AllWithin (handlerTrails B retTy never arms) (handlersObservations arms)
  | [] => by
    unfold handlerTrails handlersObservations
    exact .nil
  | .mk _ body :: rest => by
    unfold handlerTrails handlersObservations
    exact .cons ((within_armBody body).arm never body.id) (within_handlers never rest)

theorem within_sink : ∀ e : HirExpr, ∀ {t : Trail}, t.Within e.observations →
    (sinkTrail B retTy e t).Within e.observations
  | .block body, _, _ => by
    unfold sinkTrail HirExpr.observations
    exact within_sinkBlock body
  | .matchExpr _ scrutinee arms, _, _ => by
    unfold sinkTrail HirExpr.observations
    exact (within_expr scrutinee).andThen ((within_sinkArms arms).decision scrutinee _).lost
  | .handle _ operand arms, _, _ => by
    unfold sinkTrail HirExpr.observations
    exact (within_expr operand).andThen ((within_sinkHandlers arms).dispatch operand).lost
  | .ifExpr _ condition thenBranch elseBranch, _, _ => by
    unfold sinkTrail HirExpr.observations
    exact (within_expr condition).andThen
      ((within_sinkBlock thenBranch).ifParts (within_sinkElse elseBranch) true)
  | .int .., _, h | .float .., _, h | .str .., _, h | .char .., _, h | .bool .., _, h
  | .localVar .., _, h | .function .., _, h | .caseRef .., _, h | .protocolMethodRef .., _, h
  | .unary .., _, h | .binary .., _, h | .assign .., _, h | .call .., _, h | .field .., _, h
  | .cast .., _, h | .tryExpr .., _, h | .returnExpr .., _, h | .breakExpr .., _, h
  | .continueExpr .., _, h | .recordLiteral .., _, h | .raise .., _, h | .error .., _, h => by
    unfold sinkTrail
    exact h.follow rfl rfl

theorem within_sinkBlock : ∀ body : HirBlock,
    (sinkBlockTrail B retTy body).Within body.observations
  | .mk _ statements tail => by
    unfold sinkBlockTrail HirBlock.observations
    exact (within_stmts statements).andThen (within_sinkTail tail)

theorem within_sinkTail : ∀ tail : Option HirExpr,
    (sinkTailTrail B retTy tail).Within (valueObservations tail)
  | none => by
    unfold sinkTailTrail
    exact within_of_none rfl rfl
  | some tail => by
    unfold sinkTailTrail valueObservations
    exact within_sink tail (within_expr tail)

theorem within_sinkElse : ∀ other : Option HirElse,
    (sinkElseTrail B retTy other).Within (elseObservations other)
  | none => by
    unfold sinkElseTrail
    exact within_of_none rfl rfl
  | some (.block body) => by
    unfold sinkElseTrail elseObservations
    exact within_sinkBlock body
  | some (.ifExpr inner) => by
    unfold sinkElseTrail elseObservations
    exact within_sink inner (within_expr inner)

theorem within_sinkArms : ∀ arms,
    AllWithin (sinkArmTrails B retTy arms) (armsObservations arms)
  | [] => by
    unfold sinkArmTrails armsObservations
    exact .nil
  | .mk _ body :: rest => by
    unfold sinkArmTrails armsObservations
    exact .cons (within_sinkArm body) (within_sinkArms rest)

theorem within_sinkHandlers : ∀ arms,
    AllWithin (sinkHandlerTrails B retTy arms) (handlersObservations arms)
  | [] => by
    unfold sinkHandlerTrails handlersObservations
    exact .nil
  | .mk _ body :: rest => by
    unfold sinkHandlerTrails handlersObservations
    exact .cons (within_sinkArm body) (within_sinkHandlers rest)

theorem within_sinkArm : ∀ body : HirMatchArmBody,
    (sinkArmTrail B retTy body).Within body.observations
  | .expr expr => by
    unfold sinkArmTrail HirMatchArmBody.observations
    exact within_sink expr (within_expr expr)
  | .block body => by
    unfold sinkArmTrail HirMatchArmBody.observations
    exact within_sinkBlock body

end

theorem within_body (body : HirBlock) : (bodyTrail B retTy body).Within body.observations := by
  obtain ⟨id, statements, tail⟩ := body
  simp only [bodyTrail]
  split
  · exact within_sinkBlock B retTy _
  · unfold HirBlock.observations
    exact ((within_stmts B retTy statements).andThen (within_tail B retTy tail)).follow rfl rfl

end

/-- A lowered function begins each observation at most once just where no arm with an
`observe` in it is reached by two leaves of its decision. -/
theorem observations_begun_once_iff {B : BodyLowering} {head : FunctionHead} {f : HirFunction}
    {g : Function} (hids : f.body.observations.Nodup) (h : lowerFunction B head f = .ok g) :
    (∀ id, (begunIn g).count id ≤ 1) ↔ (bodyTrail B head.returnType f.body).doubled = false := by
  rw [← List.nodup_iff_count_le_one, (begunIn_perm h).nodup_iff]
  exact (within_body B head.returnType f.body).exact hids

/-! ### A watched light

```
func f(take a: File, l: Light) {
    match l {
        Red => {}
        _ => { observe a as v {} }
    }
}
```
-/

/-- `variant Light { Red, Amber, Green }`, beside a resource `File`. -/
def lightModule : Module where
  records := [(⟨0⟩, ⟨⟨0⟩, [], [], true⟩)]
  variants := [(⟨1⟩, ⟨⟨1⟩, [], [⟨⟨2⟩, []⟩, ⟨⟨3⟩, []⟩, ⟨⟨4⟩, []⟩]⟩)]

/-- The light is local 1, the file local 0 and, where it is observed, local 2. The local of
the pattern `Red` is none: it names a case. -/
def lightContext : FlowContext :=
  { fileContext with
    localTypes := fun binding =>
      if binding = ⟨1⟩ then some (.named ⟨1⟩)
      else if binding = ⟨5⟩ then none
      else some (.named ⟨0⟩)
    exprTypes := fun id =>
      some (if id = ⟨2⟩ then .named ⟨1⟩ else if id = ⟨3⟩ then .named ⟨0⟩ else .unit)
    variantItems := fun item => item = ⟨1⟩ }

def watchesLight : HirFunction where
  id := ⟨9⟩
  params := [⟨⟨0⟩, true⟩, ⟨⟨1⟩, false⟩]
  body := .mk ⟨20⟩ [.expr (.matchExpr ⟨1⟩ (.localVar ⟨2⟩ ⟨1⟩)
    [.mk (.bind ⟨0⟩ ⟨5⟩) (.block (.mk ⟨21⟩ [] none)),
      .mk (.wildcard ⟨1⟩) (.block (.mk ⟨22⟩
        [.observe ⟨0⟩ (.localVar ⟨3⟩ ⟨0⟩) ⟨2⟩ (.mk ⟨23⟩ [] none)] none))])] none

/-- What the resource checker leaves of it to lowering. -/
def lightChecked : FlowState := after (checkFunction lightContext watchesLight) {}

def lightLowering : BodyLowering :=
  { BodyLowering.blank with
    module := lightModule
    patternCase := (∅ : AList fun _ : PatternId => ItemId × ℕ).insert ⟨0⟩ (⟨1⟩, 0)
    localTypes := lightContext.localTypes
    exprTypes := lightContext.exprTypes
    cleanupEdges := fun id => lightChecked.cleanupEdges.lookup id
    consumeSites := fun id => lightChecked.consumeSites.lookup id
    deferPlans := fun id => lightChecked.deferPlans.lookup id
    observations := fun id => lightChecked.checkedObservations.lookup id
    observationExits := fun id => lightChecked.observationExits.lookup id }

def lightHead : FunctionHead := ⟨⟨9⟩, [], [], .unit, []⟩

theorem begunIn_watchesLight : ∃ g, lowerFunction lightLowering lightHead watchesLight = .ok g ∧
    begunIn g = [⟨0⟩, ⟨0⟩] := by
  have hrun : (lowerFunction lightLowering lightHead watchesLight).toOption.map begunIn =
      some [⟨0⟩, ⟨0⟩] := by decide +kernel
  cases hg : lowerFunction lightLowering lightHead watchesLight with
  | error e =>
    rw [hg] at hrun
    cases hrun
  | ok g =>
    rw [hg] at hrun
    exact ⟨g, rfl, Option.some.inj hrun⟩

/-- Amber and Green are leaves of their own for the second arm. -/
theorem light_observed_twice : Accepts lightContext watchesLight ∧
    watchesLight.body.observations.Nodup ∧
    ∃ g, lowerFunction lightLowering lightHead watchesLight = .ok g ∧ (begunIn g).count ⟨0⟩ = 2 := by
  obtain ⟨g, hg, hbegun⟩ := begunIn_watchesLight
  refine ⟨by decide +kernel, by decide +kernel, g, hg, ?_⟩
  rw [hbegun]
  decide +kernel

theorem begun_once_iff_watchesLight :
    ∃ g, lowerFunction lightLowering lightHead watchesLight = .ok g ∧
      ((∀ id, (begunIn g).count id ≤ 1) ↔
        (bodyTrail lightLowering lightHead.returnType watchesLight.body).doubled = false) := by
  obtain ⟨g, hg, -⟩ := begunIn_watchesLight
  exact ⟨g, hg, observations_begun_once_iff (by decide +kernel) hg⟩

end Napitia.Lower
