import Napitia.Lower.Leaving

/-!
# Pieces in blocks of their own

A construct opens blocks, ends the one it is in and then turns to its new blocks one after
the other. A block that is still to come stays open and empty of anything else meanwhile:
what is lowered in one block changes that block and newer ones.
-/
namespace Napitia.Lower
open Nir StateT
open Hir (ExprId)
open Hir.Body

/-- On the way from one builder to another, blocks have been opened that are still to be
turned to. -/
structure Forks (B : BodyLowering) (retTy : Ty) (a : FnBuilder) (r : Record) (b : FnBuilder)
    (pending : List ℕ) : Prop where
  lands : Lands B a r b
  returns : b.returnTy = retTy
  new : ∀ i ∈ pending, a.blocks.length ≤ i
  opened : ∀ i ∈ pending, b.OpenAt i
  distinct : pending.Nodup
  apart : b.current.index ∉ pending

section
variable {B : BodyLowering} {retTy : Ty} {α β : Type} {a b c : FnBuilder} {r s : Record}
  {i : ℕ} {pending others : List ℕ} {x : Build α} {P : α → Bool → Prop} {v : α}

/-- The same while the builder is at an open block. -/
structure Working (B : BodyLowering) (retTy : Ty) (a : FnBuilder) (r : Record) (b : FnBuilder)
    (pending : List ℕ) : Prop extends Forks B retTy a r b pending where
  isOpen : b.ended = false

theorem FnBuilder.Ready.working (B : BodyLowering) (h : a.Ready retTy) : Working B retTy a {} a [] where
  lands := .refl h.isOpen.lt
  returns := h.returnTy
  new := by simp
  opened := by simp
  distinct := .nil
  apart := by simp
  isOpen := FnBuilder.ended_of_open h.isOpen

theorem Forks.perm (h : Forks B retTy a r b pending) (hperm : pending.Perm others) :
    Forks B retTy a r b others where
  lands := h.lands
  returns := h.returns
  new := fun i hi => h.new i (hperm.mem_iff.mpr hi)
  opened := fun i hi => h.opened i (hperm.mem_iff.mpr hi)
  distinct := hperm.nodup_iff.mp h.distinct
  apart := fun hi => h.apart (hperm.mem_iff.mpr hi)

theorem Forks.enter {block : BlockId} {u : Unit} (h : Forks B retTy a r b (block.index :: pending))
    (hrun : (switchTo block).run b = .ok (u, c)) : Working B retTy a r c pending := by
  cases hrun
  have hopen := h.opened block.index List.mem_cons_self
  exact {
    lands := h.lands.movedTo (h.new _ List.mem_cons_self) hopen.lt
    returns := h.returns
    new := fun j hj => h.new j (List.mem_cons_of_mem _ hj)
    opened := fun j hj => h.opened j (List.mem_cons_of_mem _ hj)
    distinct := h.distinct.of_cons
    apart := (List.nodup_cons.mp h.distinct).1
    isOpen := FnBuilder.ended_of_open hopen }

namespace Working

theorem ready (h : Working B retTy a r b pending) : b.Ready retTy :=
  ⟨FnBuilder.open_of_ended h.lands.inRange h.isOpen, h.returns⟩

theorem openOne {block : BlockId} (h : Working B retTy a r b pending)
    (hrun : newBlock.run b = .ok (block, c)) : Working B retTy a r c (pending ++ [block.index]) := by
  cases hrun
  have hlands := h.lands.trans (lands_opened h.lands.inRange)
  rw [record_append_nil] at hlands
  have hcurrent := FnBuilder.openAt_opened h.ready.isOpen
  exact {
    lands := hlands
    returns := h.returns
    new := by
      intro i hi
      rcases List.mem_append.mp hi with hi | hi
      · exact h.new i hi
      · rw [List.mem_singleton.mp hi]
        exact h.lands.length
    opened := by
      intro i hi
      rcases List.mem_append.mp hi with hi | hi
      · exact FnBuilder.openAt_opened (h.opened i hi)
      · rw [List.mem_singleton.mp hi]
        exact FnBuilder.openAt_last
    distinct := by
      rw [List.nodup_append]
      refine ⟨h.distinct, List.nodup_singleton _, fun i hi j hj => ?_⟩
      rw [List.mem_singleton.mp hj]
      exact (h.opened i hi).lt.ne
    apart := by
      intro hmem
      rcases List.mem_append.mp hmem with hi | hi
      · exact h.apart hi
      · exact h.lands.inRange.ne (List.mem_singleton.mp hi)
    isOpen := FnBuilder.ended_of_open hcurrent }

theorem openEach {l : List β} {blocks : List BlockId} (h : Working B retTy a r b pending)
    (hrun : (l.mapM fun _ => newBlock).run b = .ok (blocks, c)) :
    Working B retTy a r c (pending ++ blocks.map (·.index)) ∧ blocks.length = l.length := by
  induction l generalizing b pending blocks with
  | nil =>
    rw [List.mapM_nil] at hrun
    obtain ⟨rfl, rfl⟩ := run_pure_eq_ok.mp hrun
    rw [List.map_nil, List.append_nil]
    exact ⟨h, rfl⟩
  | cons _ l ih =>
    rw [List.mapM_cons] at hrun
    obtain ⟨block, b₁, hblock, hrun⟩ := run_bind_eq_ok.mp hrun
    obtain ⟨others, b₂, hothers, hpure⟩ := run_bind_eq_ok.mp hrun
    obtain ⟨rfl, rfl⟩ := run_pure_eq_ok.mp hpure
    have hrest := ih (h.openOne hblock) hothers
    rw [List.append_assoc] at hrest
    exact ⟨hrest.1, congrArg (· + 1) hrest.2⟩

theorem piece (h : Working B retTy a r b pending) (hx : Lowers B retTy x s P)
    (hrun : x.run b = .ok (v, c)) : Forks B retTy a (r ++ s) c pending ∧ P v c.ended := by
  have hnext := hx h.ready hrun
  refine ⟨?_, hnext.2⟩
  exact {
    lands := h.lands.trans hnext.1
    returns := hnext.1.returnTy.trans h.returns
    new := h.new
    opened := fun i hi => hnext.1.openAt (h.opened i hi) fun heq => h.apart (heq ▸ hi)
    distinct := h.distinct
    apart := by
      intro hi
      rcases hnext.1.current with hsame | hnew
      · exact h.apart (hsame ▸ hi)
      · have hlt := (h.opened _ hi).lt
        omega }

theorem straight (h : Working B retTy a r b pending) (hx : Straight B retTy x)
    (hrun : x.run b = .ok (v, c)) : Working B retTy a r c pending := by
  have hnext := h.piece hx hrun
  rw [record_append_nil] at hnext
  exact ⟨hnext.1, hnext.2⟩

theorem stmt {t : Trail} (h : Working B retTy a r b pending) (hx : LowersStmt B retTy x t)
    (hrun : x.run b = .ok (v, c)) :
    Forks B retTy a (r ++ t.toRecord) c pending ∧ c.ended = decide (t.ending = .closed) :=
  h.piece hx hrun

theorem close {terminator : Terminator} {u : Unit} (h : Working B retTy a r b pending)
    (hrun : (terminate terminator).run b = .ok (u, c)) : Forks B retTy a r c pending := by
  have hnext := (h.piece (lowers_terminate terminator) hrun).1
  rwa [record_append_nil] at hnext

theorem leave (h : Working B retTy a r b pending) {block : BlockId} {u : Unit}
    (hnew : a.blocks.length ≤ b.current.index) (hblock : block.index ∈ pending)
    (hrun : (switchTo block).run b = .ok (u, c)) :
    Working B retTy a r c (b.current.index :: pending.erase block.index) := by
  have hentered := (h.toForks.perm (List.perm_cons_erase hblock)).enter hrun
  have hopen := h.ready.isOpen
  cases hrun
  exact {
    lands := hentered.lands
    returns := h.returns
    new := List.forall_mem_cons.mpr ⟨hnew, hentered.new⟩
    opened := List.forall_mem_cons.mpr ⟨hopen, hentered.opened⟩
    distinct := List.nodup_cons.mpr
      ⟨fun hi => h.apart (List.mem_of_mem_erase hi), hentered.distinct⟩
    apart := by
      intro hmem
      rcases List.mem_cons.mp hmem with hi | hi
      · exact h.apart (hi ▸ hblock)
      · exact hentered.apart hi
    isOpen := hentered.isOpen }

theorem done (h : Working B retTy a r b pending) {y : Build LoweredExpr} {w : LoweredExpr}
    (hy : LowersTo B retTy y {}) (hrun : y.run b = .ok (w, c)) :
    Lands B a r c ∧ Ending.value.Fits w.isValue c.ended := by
  have hnext := h.piece hy hrun
  rw [record_append_nil] at hnext
  exact ⟨hnext.1.lands, hnext.2⟩

end Working

end

/-! ### Branches -/

section
variable {B : BodyLowering} {retTy : Ty} {t u : Trail} {x y : Build LoweredExpr} {r : Record}

@[simp] theorem record_andThen_closed (t : Trail) :
    (t.andThen { ending := .closed }).toRecord = t.toRecord := by
  by_cases hending : t.ending = .value
  · rw [andThen_value hending]
    exact record_append_nil _
  · rw [andThen_gone hending]

@[simp] theorem record_joined (t : Trail) : t.joined.toRecord = t.toRecord := rfl

@[simp] theorem record_lost (t : Trail) : t.lost.toRecord = t.toRecord := rfl

@[simp] theorem record_all_nil : (Trail.all []).toRecord = {} := rfl

@[simp] theorem record_all_cons (t : Trail) (ts : List Trail) :
    (Trail.all (t :: ts)).toRecord = t.toRecord ++ (Trail.all ts).toRecord := rfl

theorem straight_storeInto_terminated (slot value : ValueId) (after : BlockId) :
    Lowers B retTy (storeInto slot value after) {} fun _ ended => ended = true := by
  apply (straight_pushInstruction rfl).bind
  intro _
  exact lowers_terminate _

theorem lowersStmt_joinInto (slot : ValueId) (after : BlockId) (hx : LowersTo B retTy x t) :
    LowersStmt B retTy (joinInto slot after x) (t.andThen { ending := .closed }) := by
  refine LowersTo.follow hx (fun hending id => ?_) ⟨(), rfl, fun hgone => ?_⟩
  · rw [andThen_value hending]
    exact (straight_storeInto_terminated slot id after).mono fun _ _ h => by simp [h]
  · rw [andThen_gone hgone]

theorem lowersStmt_joinThen (slot : ValueId) (after : BlockId) (hasElse : Bool)
    (hx : LowersTo B retTy x t) :
    LowersStmt B retTy (joinThen slot after hasElse x) (t.andThen { ending := .closed }) := by
  refine LowersTo.follow hx (fun hending id => ?_) ⟨(), rfl, fun hgone => ?_⟩
  · rw [andThen_value hending]
    have hstored : ∀ value, Lowers B retTy (storeInto slot value after) {} fun _ ended =>
        ended = decide (Ending.closed = Ending.closed) := fun value =>
      (straight_storeInto_terminated slot value after).mono fun _ _ h => by simp [h]
    cases hasElse with
    | true => exact hstored id
    | false => exact straight_unitValue.bind fun unit => hstored unit
  · rw [andThen_gone hgone]

theorem lowersTo_lowerShortCircuit (shortOnTrue : Bool) (hx : LowersTo B retTy x t)
    (hy : LowersTo B retTy y u) :
    LowersTo B retTy (lowerShortCircuit x y shortOnTrue) (t.andThen u.joined) := by
  apply hx.onValue
  intro left a b v ha hrun
  obtain ⟨rightBlock, b₁, hright, hrun⟩ := run_bind_eq_ok.mp hrun
  obtain ⟨afterBlock, b₂, hafter, hrun⟩ := run_bind_eq_ok.mp hrun
  obtain ⟨slot, b₃, hslot, hrun⟩ := run_bind_eq_ok.mp hrun
  obtain ⟨_, b₄, hstore, hrun⟩ := run_bind_eq_ok.mp hrun
  obtain ⟨_, b₅, hclose, hrun⟩ := run_bind_eq_ok.mp hrun
  obtain ⟨_, b₆, hturn, hrun⟩ := run_bind_eq_ok.mp hrun
  obtain ⟨_, b₇, hjoin, hrun⟩ := run_bind_eq_ok.mp hrun
  obtain ⟨_, b₈, hback, hload⟩ := run_bind_eq_ok.mp hrun
  have hopened := ((ha.working B).openOne hright).openOne hafter
  have hallocated := hopened.straight (straight_pushValue fun _ => rfl) hslot
  have hstored := hallocated.straight (straight_pushInstruction rfl) hstore
  have hrightForks := ((hstored.close hclose).enter hturn).piece
    (lowersStmt_joinInto slot afterBlock hy) hjoin
  rw [record_andThen_closed] at hrightForks
  exact (hrightForks.1.enter hback).done (straight_pushValue fun _ => rfl).lowersTo hload

/-! ### `if` -/

theorem record_ifTrail (never : Bool) (t u : Trail) :
    (ifTrail never t u).toRecord = t.toRecord ++ u.toRecord := by
  cases never <;> simp [ifTrail, afterParts]

theorem ending_ifTrail_never (t u : Trail) : (ifTrail true t u).ending = u.ending.lost := rfl

theorem Ending.lost_fits (ending : Ending) : ending.lost.Fits false (decide (ending = .closed)) := by
  cases ending <;> simp [Ending.lost, Ending.Fits]

theorem LowersTo.asPart (hx : LowersTo B retTy x t) : Lowers B retTy x t.toRecord fun _ ended =>
    ended = decide (t.ending = .closed) :=
  hx.mono fun _ _ h => h.ended_eq

theorem lands_lowerNeverIf {a b c : FnBuilder} {cond : ValueId} {thenBlock elseBlock : BlockId}
    {other : Option (Build LoweredExpr)} {v : LoweredExpr} (hx : LowersTo B retTy x t)
    (hother : ∀ y, other = some y → LowersTo B retTy y u)
    (h : Working B retTy a {} b [thenBlock.index, elseBlock.index])
    (hrun : (lowerNeverIf cond thenBlock elseBlock x other).run b = .ok (v, c)) :
    Lands B a (t.toRecord ++ u.toRecord) c ∧
      (ifTrail true t u).ending.Fits v.isValue c.ended := by
  obtain ⟨_, b₁, hclose, hrun⟩ := run_bind_eq_ok.mp hrun
  obtain ⟨_, b₂, hthen, hrun⟩ := run_bind_eq_ok.mp hrun
  obtain ⟨w, b₃, hthenRun, hrun⟩ := run_bind_eq_ok.mp hrun
  obtain ⟨_, b₄, helse, hrun⟩ := run_bind_eq_ok.mp hrun
  obtain ⟨w', b₅, helseRun, hpure⟩ := run_bind_eq_ok.mp hrun
  obtain ⟨rfl, rfl⟩ := run_pure_eq_ok.mp hpure
  have hthenForks := ((h.close hclose).enter hthen).piece hx.asPart hthenRun
  cases other with
  | none => exact absurd helseRun run_throw_ne_ok
  | some y =>
    have helseForks := (hthenForks.1.enter helse).piece (hother y rfl).asPart helseRun
    rw [record_nil_append] at helseForks
    refine ⟨helseForks.1.lands, ?_⟩
    rw [ending_ifTrail_never, helseForks.2]
    exact u.ending.lost_fits

theorem lowersTo_lowerIf {other : Option (Build LoweredExpr)} {v : Trail} (resultTy : Ty)
    (hx : LowersTo B retTy x t) (hy : LowersTo B retTy y u)
    (hother : ∀ z, other = some z → LowersTo B retTy z v) (hnone : other = none → v = {}) :
    LowersTo B retTy (lowerIf x y other resultTy)
      (t.andThen (ifTrail (decide (resultTy = .never)) u v)) := by
  apply hx.onValue
  intro cond a b w ha hrun
  obtain ⟨thenBlock, b₁, hthenNew, hrun⟩ := run_bind_eq_ok.mp hrun
  obtain ⟨elseBlock, b₂, helseNew, hrun⟩ := run_bind_eq_ok.mp hrun
  have hopened := ((ha.working B).openOne hthenNew).openOne helseNew
  rw [record_ifTrail]
  by_cases hnever : resultTy = .never
  · rw [if_pos hnever] at hrun
    rw [decide_eq_true hnever]
    exact lands_lowerNeverIf hy hother hopened hrun
  · rw [if_neg hnever] at hrun
    rw [decide_eq_false hnever]
    obtain ⟨slot, b₃, hslot, hrun⟩ := run_bind_eq_ok.mp hrun
    obtain ⟨afterBlock, b₄, hafterNew, hrun⟩ := run_bind_eq_ok.mp hrun
    obtain ⟨_, b₅, hclose, hrun⟩ := run_bind_eq_ok.mp hrun
    obtain ⟨_, b₆, hthen, hrun⟩ := run_bind_eq_ok.mp hrun
    obtain ⟨_, b₇, hthenRun, hrun⟩ := run_bind_eq_ok.mp hrun
    obtain ⟨_, b₈, helse, hrun⟩ := run_bind_eq_ok.mp hrun
    obtain ⟨_, b₉, helseRun, hrun⟩ := run_bind_eq_ok.mp hrun
    obtain ⟨_, b₁₀, hback, hload⟩ := run_bind_eq_ok.mp hrun
    have hallocated := hopened.straight (straight_pushValue fun _ => rfl) hslot
    have hclosed := (hallocated.openOne hafterNew).close hclose
    have hthenForks := (hclosed.enter hthen).piece
      (lowersStmt_joinThen slot afterBlock other.isSome hy) hthenRun
    have hotherLowers : LowersTo B retTy (other.getD (valueOf unitValue)) v := by
      cases hcase : other with
      | none => rw [hnone hcase]; exact lowersTo_unit
      | some z => exact hother z hcase
    have helseForks := (hthenForks.1.enter helse).piece
      (lowersStmt_joinInto slot afterBlock hotherLowers) helseRun
    rw [record_andThen_closed, record_andThen_closed, record_nil_append] at helseForks
    exact (helseForks.1.enter hback).done (straight_pushValue fun _ => rfl).lowersTo hload

theorem lowersTo_lowerIfIntoReturnSink {z : Build LoweredExpr} {v : Trail}
    (hx : LowersTo B retTy x t) (hy : LowersTo B retTy y u) (hz : LowersTo B retTy z v) :
    LowersTo B retTy (lowerIfIntoReturnSink x y z) (t.andThen (ifTrail true u v)) := by
  apply hx.onValue
  intro cond a b w ha hrun
  obtain ⟨thenBlock, b₁, hthenNew, hrun⟩ := run_bind_eq_ok.mp hrun
  obtain ⟨elseBlock, b₂, helseNew, hrun⟩ := run_bind_eq_ok.mp hrun
  have hopened := ((ha.working B).openOne hthenNew).openOne helseNew
  rw [record_ifTrail]
  have hother : ∀ y, some z = some y → LowersTo B retTy y v := by
    rintro _ ⟨⟩
    exact hz
  have hnever : (lowerNeverIf cond thenBlock elseBlock y (some z)).run b₂ = .ok (w, b) := hrun
  exact lands_lowerNeverIf hy hother hopened hnever

/-! ### Loops -/

theorem lowersStmt_lowerLoopBody {body : Build Unit} (ctx : LoopCtx)
    (h : LowersStmt B retTy body t) :
    Lowers B retTy (lowerLoopBody ctx body) t.toRecord fun _ ended => ended = true := by
  have hpush := @straight_modify B retTy (fun fb => { fb with loopStack := ctx :: fb.loopStack })
    (fun _ => rfl) (fun _ => rfl) (fun _ => rfl) fun _ => rfl
  apply hpush.bind
  intro _ a c v ha hrun
  obtain ⟨_, b₁, hbody, hrun⟩ := run_bind_eq_ok.mp hrun
  obtain ⟨_, b₂, hpop, hrun⟩ := run_bind_eq_ok.mp hrun
  obtain ⟨ended, b₃, hterm, hrest⟩ := run_bind_eq_ok.mp hrun
  obtain ⟨rfl, rfl⟩ := reads_currentTerminated hterm
  have hbodyLands := h ha hbody
  have hsame : Lands B a t.toRecord b₃ ∧ b₃.ended = b₁.ended := by
    cases hpop
    have hlands := hbodyLands.1.trans
      (lands_same (b := { b₁ with loopStack := b₁.loopStack.tail }) hbodyLands.1.inRange rfl rfl rfl rfl)
    rw [record_append_nil] at hlands
    exact ⟨hlands, rfl⟩
  by_cases hended : b₃.ended = true
  · rw [hended] at hrest
    obtain ⟨-, rfl⟩ := run_pure_eq_ok.mp hrest
    exact ⟨hsame.1, hended⟩
  · have hfalse : b₃.ended = false := by simpa using hended
    rw [hfalse] at hrest
    have hclosed := lowers_terminate (B := B) (.branch ctx.continueTarget)
      (hsame.1.ready ha hfalse) hrest
    have hlands := hsame.1.trans hclosed.1
    rw [record_append_nil] at hlands
    exact ⟨hlands, hclosed.2⟩

theorem lowersStmt_lowerLoop {body : Build Unit} (h : LowersStmt B retTy body t) :
    LowersStmt B retTy (lowerLoop body) t.joined := by
  intro a b v ha hrun
  obtain ⟨header, b₁, hheader, hrun⟩ := run_bind_eq_ok.mp hrun
  obtain ⟨after, b₂, hafter, hrun⟩ := run_bind_eq_ok.mp hrun
  obtain ⟨_, b₃, hclose, hrun⟩ := run_bind_eq_ok.mp hrun
  obtain ⟨_, b₄, hturn, hrun⟩ := run_bind_eq_ok.mp hrun
  obtain ⟨_, b₅, hbody, hback⟩ := run_bind_eq_ok.mp hrun
  have hopened := ((ha.working B).openOne hheader).openOne hafter
  have hbodyForks := ((hopened.close hclose).enter hturn).piece
    (lowersStmt_lowerLoopBody ⟨after, header⟩ h) hbody
  have hdone := hbodyForks.1.enter hback
  exact ⟨hdone.lands, hdone.isOpen⟩

theorem lowersStmt_lowerWhile {body : Build Unit} (hx : LowersTo B retTy x t)
    (h : LowersStmt B retTy body u) :
    LowersStmt B retTy (lowerWhile x body) (t.andThen u.joined).asStmt := by
  intro a b v ha hrun
  obtain ⟨header, b₁, hheader, hrun⟩ := run_bind_eq_ok.mp hrun
  obtain ⟨_, b₂, hclose, hrun⟩ := run_bind_eq_ok.mp hrun
  obtain ⟨_, b₃, hturn, hrun⟩ := run_bind_eq_ok.mp hrun
  obtain ⟨cond, b₄, hcond, hrun⟩ := run_bind_eq_ok.mp hrun
  have hheaderWorking := ((((ha.working B).openOne hheader).close hclose).enter hturn)
  have hcondForks := hheaderWorking.piece hx hcond
  rw [record_nil_append] at hcondForks
  have hended := hcondForks.2.ended_eq
  cases cond with
  | diverged =>
    obtain ⟨-, rfl⟩ := run_pure_eq_ok.mp hrun
    rw [andThen_gone (Ending.Fits.ne_value hcondForks.2)]
    refine ⟨hcondForks.1.lands, ?_⟩
    rw [hended, Trail.asStmt]
    cases hcase : t.ending <;> simp [Ending.asStmt]
  | value cond =>
    have hvalue : t.ending = .value := hcondForks.2.isValue_iff.mp rfl
    have hworking : Working B retTy a t.toRecord b₄ [] :=
      ⟨hcondForks.1, by rw [hended, hvalue]; rfl⟩
    obtain ⟨loopBody, b₅, hloopNew, hrun⟩ := run_bind_eq_ok.mp hrun
    obtain ⟨after, b₆, hafter, hrun⟩ := run_bind_eq_ok.mp hrun
    obtain ⟨_, b₇, hbranch, hrun⟩ := run_bind_eq_ok.mp hrun
    obtain ⟨_, b₈, hloop, hrun⟩ := run_bind_eq_ok.mp hrun
    obtain ⟨_, b₉, hbody, hback⟩ := run_bind_eq_ok.mp hrun
    have hopened := (hworking.openOne hloopNew).openOne hafter
    have hbodyForks := ((hopened.close hbranch).enter hloop).piece
      (lowersStmt_lowerLoopBody ⟨after, header⟩ h) hbody
    have hdone := hbodyForks.1.enter hback
    rw [andThen_value hvalue]
    exact ⟨hdone.lands, hdone.isOpen⟩

end

end Napitia.Lower
