import Napitia.Lower.Placement
import Napitia.Lower.Trail

/-!
# Where a piece of lowering lands

From an open block, a piece of lowering changes that block and the ones it opens itself,
and no other. What it begins stands in one of these blocks, and every exit it asked for
has a plan. Most pieces are straight: they begin nothing and end at an open block.
-/
namespace Napitia.Lower
open Nir StateT
open Hir (ExprId)
open Hir.Body
open Resourceck (LocalPlace CleanupAction)

/-- The observation an instruction begins. -/
def beginning : Instruction → Option ObservationId
  | .value _ _ (.observePlace id _) => some id
  | _ => none

namespace FnBuilder

/-- The observations begun in the blocks of a builder. -/
def begun (fb : FnBuilder) : List ObservationId :=
  fb.blocks.flatMap fun b => b.instructions.filterMap beginning

def OpenAt (fb : FnBuilder) (i : ℕ) : Prop :=
  ∃ p, fb.blocks[i]? = some p ∧ p.terminator = none

section
variable {fb : FnBuilder} {i : ℕ}

theorem OpenAt.lt (h : fb.OpenAt i) : i < fb.blocks.length := by
  obtain ⟨p, hp, -⟩ := h
  exact (List.getElem?_eq_some_iff.mp hp).choose

theorem ended_of_open (h : fb.OpenAt fb.current.index) : fb.ended = false := by
  obtain ⟨p, hp, ht⟩ := h
  simp [ended, hp, ht]

theorem open_of_ended (hlt : fb.current.index < fb.blocks.length) (h : fb.ended = false) :
    fb.OpenAt fb.current.index := by
  refine ⟨fb.blocks[fb.current.index], List.getElem?_eq_getElem hlt, ?_⟩
  simpa [ended, List.getElem?_eq_getElem hlt] using h

@[simp] theorem openAt_emit (instruction : Instruction) :
    (fb.emit instruction).OpenAt i ↔ fb.OpenAt i := by
  have hblock := blocks_onCurrent fb
    (fun b => { b with instructions := b.instructions ++ [instruction] }) i
  unfold OpenAt emit
  rw [hblock]
  split
  · cases fb.blocks[i]? <;> simp
  · rfl

@[simp] theorem openAt_define (ty : Ty) (kind : ValueKind) :
    (fb.define ty kind).OpenAt i ↔ fb.OpenAt i := openAt_emit _

theorem openAt_opened (h : fb.OpenAt i) : fb.opened.OpenAt i := by
  obtain ⟨p, hp, ht⟩ := h
  exact ⟨p, (List.getElem?_append_left (List.getElem?_eq_some_iff.mp hp).choose).trans hp, ht⟩

theorem openAt_last : fb.opened.OpenAt fb.blocks.length := ⟨_, block_opened fb, rfl⟩

theorem ended_close (h : fb.current.index < fb.blocks.length) (t : Terminator) :
    (fb.close t).ended = true := by
  have hblock := blocks_onCurrent fb (fun b => { b with terminator := some t }) fb.current.index
  rw [if_pos rfl, List.getElem?_eq_getElem h] at hblock
  change ((fb.close t).blocks[fb.current.index]?.bind (·.terminator)).isSome = true
  unfold close
  rw [hblock]
  rfl

end

end FnBuilder

/-- One builder has become another: the block it was at and new ones hold what is
recorded, and no assertion failed on the way. -/
structure Lands (B : BodyLowering) (a : FnBuilder) (r : Record) (b : FnBuilder) : Prop where
  length : a.blocks.length ≤ b.blocks.length
  kept : ∀ {i : ℕ}, i < a.blocks.length → i ≠ a.current.index → b.blocks[i]? = a.blocks[i]?
  current : b.current = a.current ∨ a.blocks.length ≤ b.current.index
  inRange : b.current.index < b.blocks.length
  returnTy : b.returnTy = a.returnTy
  begun : b.begun.Perm (a.begun ++ r.begun)
  planned : ∀ id ∈ r.exits, (B.cleanupEdges id).isSome
  asserted : b.asserted = a.asserted

section
variable {B : BodyLowering} {a b c fb : FnBuilder} {r s : Record} {i : ℕ}

@[simp] theorem begun_append (r s : Record) : (r ++ s).begun = r.begun ++ s.begun := rfl

@[simp] theorem exits_append (r s : Record) : (r ++ s).exits = r.exits ++ s.exits := rfl

@[simp] theorem record_append_nil (r : Record) : r ++ ({} : Record) = r := by
  change Record.mk (r.begun ++ []) (r.exits ++ []) = r
  rw [List.append_nil, List.append_nil]

@[simp] theorem record_nil_append (r : Record) : ({} : Record) ++ r = r := rfl

theorem record_append_assoc (r s t : Record) : r ++ s ++ t = r ++ (s ++ t) := by
  change Record.mk _ _ = Record.mk _ _
  simp

theorem lands_same (hlt : a.current.index < a.blocks.length) (hblocks : b.blocks = a.blocks)
    (hcurrent : b.current = a.current) (hty : b.returnTy = a.returnTy)
    (hasserted : b.asserted = a.asserted) : Lands B a {} b where
  length := by rw [hblocks]
  kept := fun _ _ => by rw [hblocks]
  current := .inl hcurrent
  inRange := by rw [hblocks, hcurrent]; exact hlt
  returnTy := hty
  begun := by simp [FnBuilder.begun, hblocks]
  planned := by simp
  asserted := hasserted

theorem Lands.refl (hlt : a.current.index < a.blocks.length) : Lands B a {} a :=
  lands_same hlt rfl rfl rfl rfl

theorem Lands.trans (hab : Lands B a r b) (hbc : Lands B b s c) : Lands B a (r ++ s) c where
  length := hab.length.trans hbc.length
  kept := by
    intro i hi hne
    have hb : i ≠ b.current.index := by
      rcases hab.current with hsame | hnew
      · rw [hsame]
        exact hne
      · omega
    have hlen := hab.length
    rw [hbc.kept (by omega) hb, hab.kept hi hne]
  current := by
    rcases hbc.current with hsame | hnew
    · rw [hsame]
      exact hab.current
    · exact .inr (hab.length.trans hnew)
  inRange := hbc.inRange
  returnTy := hbc.returnTy.trans hab.returnTy
  begun := by
    rw [begun_append, ← List.append_assoc]
    exact hbc.begun.trans (hab.begun.append_right _)
  planned := by
    intro id hid
    rw [exits_append, List.mem_append] at hid
    rcases hid with hid | hid
    · exact hab.planned id hid
    · exact hbc.planned id hid
  asserted := hbc.asserted.trans hab.asserted

theorem Lands.movedTo {block : BlockId} (h : Lands B a r b) (hnew : a.blocks.length ≤ block.index)
    (hlt : block.index < b.blocks.length) : Lands B a r (b.movedTo block) :=
  ⟨h.length, h.kept, .inr hnew, hlt, h.returnTy, h.begun, h.planned, h.asserted⟩

theorem Lands.openAt (h : Lands B a r b) (hi : a.OpenAt i) (hne : i ≠ a.current.index) :
    b.OpenAt i := by
  obtain ⟨p, hp, ht⟩ := hi
  exact ⟨p, (h.kept (List.getElem?_eq_some_iff.mp hp).choose hne).trans hp, ht⟩

theorem begun_onCurrent {f : PendingBlock → PendingBlock} {new : List ObservationId}
    (hf : ∀ b : PendingBlock, ((f b).instructions.filterMap beginning) =
      b.instructions.filterMap beginning ++ new)
    (hlt : fb.current.index < fb.blocks.length) :
    (fb.onCurrent f).begun.Perm (fb.begun ++ new) := by
  have hsplit := List.take_append_drop fb.current.index fb.blocks
  have hdrop := List.drop_eq_getElem_cons hlt
  have hblocks : (fb.onCurrent f).blocks = fb.blocks.take fb.current.index ++
      f fb.blocks[fb.current.index] :: fb.blocks.drop (fb.current.index + 1) := by
    unfold FnBuilder.onCurrent
    exact List.modify_eq_take_cons_drop hlt
  unfold FnBuilder.begun
  rw [hblocks]
  conv_rhs => rw [← hsplit, hdrop]
  simp only [List.flatMap_append, List.flatMap_cons, hf, List.append_assoc]
  refine List.Perm.append_left _ (List.Perm.append_left _ ?_)
  exact List.perm_append_comm

theorem lands_onCurrent {f : PendingBlock → PendingBlock} {new : List ObservationId}
    (hf : ∀ b : PendingBlock, ((f b).instructions.filterMap beginning) =
      b.instructions.filterMap beginning ++ new)
    (hopen : fb.OpenAt fb.current.index) :
    Lands B fb { begun := new } (fb.onCurrent f) where
  length := by rw [FnBuilder.length_onCurrent]
  kept := by
    intro i _ hne
    rw [FnBuilder.blocks_onCurrent, if_neg (Ne.symm hne)]
  current := .inl rfl
  inRange := by
    rw [FnBuilder.length_onCurrent]
    exact hopen.lt
  returnTy := rfl
  begun := begun_onCurrent hf hopen.lt
  planned := by simp
  asserted := by simp [FnBuilder.onCurrent, FnBuilder.ended_of_open hopen]

theorem lands_emit (instruction : Instruction) (hopen : fb.OpenAt fb.current.index) :
    Lands B fb { begun := (beginning instruction).toList } (fb.emit instruction) := by
  refine lands_onCurrent (fun b => ?_) hopen
  rw [List.filterMap_append]
  cases h : beginning instruction <;> simp [h]

theorem lands_define (ty : Ty) (kind : ValueKind) (hopen : fb.OpenAt fb.current.index) :
    Lands B fb { begun := (beginning (.value ⟨fb.nextValue⟩ ty kind)).toList }
      (fb.define ty kind) := by
  have hcounted : Lands B fb {} { fb with nextValue := fb.nextValue + 1 } :=
    lands_same hopen.lt rfl rfl rfl rfl
  exact hcounted.trans (lands_emit _ hopen)

theorem lands_close (t : Terminator) (hopen : fb.OpenAt fb.current.index) :
    Lands B fb {} (fb.close t) :=
  lands_onCurrent (fun b => by simp) hopen

theorem lands_opened (hlt : fb.current.index < fb.blocks.length) : Lands B fb {} fb.opened where
  length := by simp [FnBuilder.length_opened]
  kept := by
    intro i hi _
    exact List.getElem?_append_left hi
  current := .inl rfl
  inRange := by
    rw [FnBuilder.length_opened]
    exact hlt.trans (Nat.lt_succ_self _)
  returnTy := rfl
  begun := by simp [FnBuilder.begun, FnBuilder.opened]
  planned := by simp
  asserted := rfl

end

/-! ### Pieces of lowering -/

/-- A builder at an open block of a function with this return type. -/
structure FnBuilder.Ready (fb : FnBuilder) (retTy : Ty) : Prop where
  isOpen : fb.OpenAt fb.current.index
  returnTy : fb.returnTy = retTy

/-- What a piece of lowering leaves behind, and how its result and the end of its block
are related. -/
def Lowers (B : BodyLowering) (retTy : Ty) {α : Type} (x : Build α) (r : Record)
    (P : α → Bool → Prop) : Prop :=
  ∀ ⦃a b : FnBuilder⦄ ⦃v : α⦄, a.Ready retTy → x.run a = .ok (v, b) →
    Lands B a r b ∧ P v b.ended

/-- A piece that begins nothing and leaves its block open. -/
def Straight (B : BodyLowering) (retTy : Ty) {α : Type} (x : Build α) : Prop :=
  Lowers B retTy x {} fun _ ended => ended = false

/-- A question to the tables or to the builder. -/
def Reads {α : Type} (x : Build α) : Prop :=
  ∀ ⦃a b : FnBuilder⦄ ⦃v : α⦄, x.run a = .ok (v, b) → b = a

section
variable {B : BodyLowering} {retTy : Ty} {α β : Type} {x y : Build α} {f : α → Build β}
  {r s : Record} {P : α → Bool → Prop} {Q : β → Bool → Prop}

theorem Lands.ready {a b : FnBuilder} (h : Lands B a r b) (ha : a.Ready retTy)
    (hended : b.ended = false) : b.Ready retTy :=
  ⟨FnBuilder.open_of_ended h.inRange hended, h.returnTy.trans ha.returnTy⟩

theorem Lowers.mono {P' : α → Bool → Prop} (hx : Lowers B retTy x r P)
    (h : ∀ v ended, P v ended → P' v ended) : Lowers B retTy x r P' := by
  intro a b v ha hrun
  have hx' := hx ha hrun
  exact ⟨hx'.1, h _ _ hx'.2⟩

theorem Lowers.bind (hx : Lowers B retTy x r P) (hP : ∀ v ended, P v ended → ended = false)
    (hf : ∀ v, P v false → Lowers B retTy (f v) s Q) : Lowers B retTy (x >>= f) (r ++ s) Q := by
  intro a c w ha hrun
  obtain ⟨v, b, hxrun, hfrun⟩ := run_bind_eq_ok.mp hrun
  have hlands := hx ha hxrun
  have hended := hP _ _ hlands.2
  have hv : P v false := hended ▸ hlands.2
  have hnext := hf v hv (hlands.1.ready ha hended) hfrun
  exact ⟨hlands.1.trans hnext.1, hnext.2⟩

theorem Straight.bind (hx : Straight B retTy x) (hf : ∀ v, Lowers B retTy (f v) r Q) :
    Lowers B retTy (x >>= f) r Q := by
  have h := Lowers.bind hx (fun _ _ h => h) fun v _ => hf v
  rwa [record_nil_append] at h

theorem Lowers.ite {p : Prop} [Decidable p] (hx : p → Lowers B retTy x r P)
    (hy : ¬ p → Lowers B retTy y r P) : Lowers B retTy (if p then x else y) r P := by
  split
  · exact hx ‹_›
  · exact hy ‹_›

theorem lowers_throw (e : Diagnostic) : Lowers B retTy (throw e : Build α) r P := by
  intro a b v _ hrun
  exact absurd hrun run_throw_ne_ok

theorem lowers_throw_bind (e : Diagnostic) :
    Lowers B retTy ((throw e : Build α) >>= f) r Q := by
  intro a b v _ hrun
  obtain ⟨w, u, hthrow, -⟩ := run_bind_eq_ok.mp hrun
  exact absurd hthrow run_throw_ne_ok

theorem Reads.pure (v : α) : Reads (Pure.pure v : Build α) := by
  intro a b w hrun
  exact (run_pure_eq_ok.mp hrun).2.symm

theorem Reads.throw (e : Diagnostic) : Reads (MonadExcept.throw e : Build α) :=
  fun _ _ _ hrun => absurd hrun run_throw_ne_ok

theorem Reads.get : Reads (MonadState.get : Build FnBuilder) :=
  fun _ _ _ hrun => (run_get_eq_ok.mp hrun).2.symm

theorem Reads.bind (hx : Reads x) (hf : ∀ v, Reads (f v)) : Reads (x >>= f) := by
  intro a c w hrun
  obtain ⟨v, b, hxrun, hfrun⟩ := run_bind_eq_ok.mp hrun
  have hb := hx hxrun
  subst hb
  exact hf v hfrun

theorem Reads.ite {p : Prop} [Decidable p] (hx : Reads x) (hy : Reads y) :
    Reads (if p then x else y) := by
  split
  · exact hx
  · exact hy

theorem Reads.guard {p : Prop} [Decidable p] {e : Diagnostic} {g : β → Build α} (hx : Reads x) :
    Reads (if p then (MonadExcept.throw e : Build β) >>= g else x) :=
  fun _ _ _ hrun => hx (run_guard_eq_ok.mp hrun).2

theorem Reads.straight (hx : Reads x) : Straight B retTy x := by
  intro a b v ha hrun
  have hb := hx hrun
  subst hb
  exact ⟨.refl ha.isOpen.lt, FnBuilder.ended_of_open ha.isOpen⟩

theorem straight_pure (v : α) : Straight B retTy (Pure.pure v : Build α) := (Reads.pure v).straight

theorem straight_pushInstruction {i : Instruction} (hi : beginning i = none) :
    Straight B retTy (pushInstruction i) := by
  intro a b v ha hrun
  cases hrun
  have hlands := lands_emit (B := B) i ha.isOpen
  rw [hi] at hlands
  exact ⟨hlands, FnBuilder.ended_of_open ((FnBuilder.openAt_emit i).mpr ha.isOpen)⟩

theorem straight_pushValue {ty : Ty} {kind : ValueKind}
    (hkind : ∀ v, beginning (.value v ty kind) = none) : Straight B retTy (pushValue ty kind) := by
  intro a b v ha hrun
  cases hrun
  have hlands := lands_define (B := B) ty kind ha.isOpen
  rw [hkind] at hlands
  exact ⟨hlands, FnBuilder.ended_of_open ((FnBuilder.openAt_define ty kind).mpr ha.isOpen)⟩

theorem straight_modify {g : FnBuilder → FnBuilder} (hblocks : ∀ fb, (g fb).blocks = fb.blocks)
    (hcurrent : ∀ fb, (g fb).current = fb.current) (hty : ∀ fb, (g fb).returnTy = fb.returnTy)
    (hasserted : ∀ fb, (g fb).asserted = fb.asserted) :
    Straight B retTy (modify g : Build PUnit) := by
  intro a b v ha hrun
  cases hrun
  refine ⟨lands_same ha.isOpen.lt (hblocks a) (hcurrent a) (hty a) (hasserted a), ?_⟩
  have hopen := FnBuilder.ended_of_open ha.isOpen
  unfold FnBuilder.ended at hopen ⊢
  rw [hblocks, hcurrent]
  exact hopen

theorem straight_forM {l : List β} {g : β → Build PUnit} (h : ∀ v, Straight B retTy (g v)) :
    Straight B retTy (l.forM g) := by
  induction l with
  | nil => exact straight_pure _
  | cons v l ih => exact (h v).bind fun _ => ih

theorem lowers_terminate (t : Terminator) :
    Lowers B retTy (terminate t) {} fun _ ended => ended = true := by
  intro a b v ha hrun
  cases hrun
  exact ⟨lands_close t ha.isOpen, FnBuilder.ended_close ha.isOpen.lt t⟩

theorem Lowers.map_result {γ : Type} {v : γ} {R : γ → Bool → Prop} (hx : Lowers B retTy x r P)
    (h : ∀ w ended, P w ended → R v ended) :
    Lowers B retTy (x >>= fun _ => Pure.pure v) r R := by
  intro a c w ha hrun
  obtain ⟨u, b, hxrun, hpure⟩ := run_bind_eq_ok.mp hrun
  obtain ⟨rfl, rfl⟩ := run_pure_eq_ok.mp hpure
  have hlands := hx ha hxrun
  exact ⟨hlands.1, h _ _ hlands.2⟩

end

end Napitia.Lower
