import Napitia.Lib.Verdict
import Napitia.Lower.Decision

/-!
# What a builder becomes

A block under construction only ever gains instructions, and a terminated one
stays as it is. Lowering a construct grows the block it starts in and the blocks
it opens itself, and leaves every other block alone. What a builder holds is
therefore found again in every function it is finished into.
-/
namespace Napitia.Lower
open Nir StateT

/-- What may become of a block: more instructions while it has no terminator. -/
structure PendingBlock.Precedes (p q : PendingBlock) : Prop where
  id : q.id = p.id
  instructions : p.instructions <+: q.instructions
  closed : ∀ t, p.terminator = some t → q = p

theorem PendingBlock.Precedes.refl (p : PendingBlock) : p.Precedes p :=
  ⟨rfl, List.prefix_rfl, fun _ _ => rfl⟩

theorem PendingBlock.Precedes.trans {p q r : PendingBlock} (hpq : p.Precedes q)
    (hqr : q.Precedes r) : p.Precedes r := by
  refine ⟨hqr.id.trans hpq.id, hpq.instructions.trans hqr.instructions, fun t ht => ?_⟩
  have hq := hpq.closed t ht
  subst hq
  exact hqr.closed t ht

namespace FnBuilder

/-- Everything one builder holds is still there in the other. -/
structure Below (a b : FnBuilder) : Prop where
  nextValue : a.nextValue ≤ b.nextValue
  block : ∀ {i : ℕ} {p : PendingBlock}, a.blocks[i]? = some p →
    ∃ q, b.blocks[i]? = some q ∧ p.Precedes q
  sources : ∀ {id : ValueId}, id.index < a.nextValue →
    b.payloadSources.lookup id = a.payloadSources.lookup id

/-- One builder grows into another in the block it is at. -/
structure Grows (a b : FnBuilder) : Prop extends Below a b where
  kept : ∀ {i : ℕ} {p : PendingBlock}, i ≠ a.current.index → a.blocks[i]? = some p →
    b.blocks[i]? = some p

/-- The instruction stands in one of the builder's blocks. -/
def Holds (fb : FnBuilder) (instruction : Instruction) : Prop :=
  ∃ (i : ℕ) (p : PendingBlock), fb.blocks[i]? = some p ∧ instruction ∈ p.instructions

/-- Blocks are numbered by position, and a payload is read out of an earlier value
by an instruction of its own. -/
structure Formed (fb : FnBuilder) : Prop where
  ids : ∀ {i : ℕ} {p : PendingBlock}, fb.blocks[i]? = some p → p.id = ⟨i⟩
  sources : ∀ {id : ValueId} {source : PayloadSource},
    fb.payloadSources.lookup id = some source → source.base.index < id.index
  reads : ∀ {id : ValueId} {source : PayloadSource},
    fb.payloadSources.lookup id = some source → ∃ ty, fb.Holds
      (.value id ty (.variantPayload source.base source.variant source.case source.index))

/-- The block the builder is at is open and holds this code. -/
def Stands (fb : FnBuilder) (code : List Instruction) : Prop :=
  fb.blocks[fb.current.index]? = some ⟨fb.current, code, none⟩

/-- Every block of the builder is found again in the function. -/
def Within (fb : FnBuilder) (f : Function) : Prop :=
  ∀ {i : ℕ} {p : PendingBlock}, fb.blocks[i]? = some p → ∃ b, f.findBlock p.id = some b ∧
    p.instructions <+: b.instructions ∧
    ∀ t, p.terminator = some t → b.instructions = p.instructions ∧ b.terminator = t

/-- What the function goes on with from where the builder is. -/
def Continues (fb : FnBuilder) (f : Function) (rest : List Instruction) (t : Terminator) : Prop :=
  ∃ code b, fb.Stands code ∧ f.findBlock fb.current = some b ∧ b.instructions = code ++ rest ∧
    b.terminator = t

section
variable {a b c : FnBuilder} {f : Function} {code rest : List Instruction} {t : Terminator}

theorem Below.refl (a : FnBuilder) : a.Below a :=
  ⟨le_rfl, fun h => ⟨_, h, .refl _⟩, fun _ => rfl⟩

theorem Below.trans (hab : a.Below b) (hbc : b.Below c) : a.Below c := by
  refine ⟨hab.nextValue.trans hbc.nextValue, fun {i p} h => ?_, fun {id} hid => ?_⟩
  · obtain ⟨q, hq, hpq⟩ := hab.block h
    obtain ⟨r, hr, hqr⟩ := hbc.block hq
    exact ⟨r, hr, hpq.trans hqr⟩
  · have hb := hab.nextValue
    rw [hbc.sources (by omega), hab.sources hid]

theorem Grows.trans (hab : a.Grows b) (hbc : b.Grows c)
    (hcurrent : b.current = a.current ∨ a.blocks.length ≤ b.current.index) : a.Grows c := by
  refine ⟨hab.toBelow.trans hbc.toBelow, fun {i p} hi h => ?_⟩
  have hlt : i < a.blocks.length := (List.getElem?_eq_some_iff.mp h).choose
  have hne : i ≠ b.current.index := by
    rcases hcurrent with hsame | hnew
    · rw [hsame]
      exact hi
    · omega
  exact hbc.kept hne (hab.kept hi h)

theorem Within.of_below (h : a.Below b) (hb : b.Within f) : a.Within f := by
  intro i p hp
  obtain ⟨q, hq, hpq⟩ := h.block hp
  obtain ⟨block, hblock, hprefix, hclosed⟩ := hb hq
  rw [hpq.id] at hblock
  refine ⟨block, hblock, hpq.instructions.trans hprefix, fun t ht => ?_⟩
  have heq := hpq.closed t ht
  subst heq
  exact hclosed t ht

theorem Stands.current_lt (hs : a.Stands code) : a.current.index < a.blocks.length :=
  (List.getElem?_eq_some_iff.mp hs).choose

/-- A straight piece of lowering: code added where the builder is. -/
structure Emits (a : FnBuilder) (is : List Instruction) (b : FnBuilder) : Prop where
  grows : a.Grows b
  current : b.current = a.current
  stands : ∀ {code : List Instruction}, a.Stands code → b.Stands (code ++ is)

theorem Emits.refl (a : FnBuilder) : a.Emits [] a :=
  ⟨⟨.refl a, fun _ h => h⟩, rfl, fun h => by simpa using h⟩

theorem Emits.trans {is js : List Instruction} (hab : a.Emits is b) (hbc : b.Emits js c) :
    a.Emits (is ++ js) c := by
  refine ⟨hab.grows.trans hbc.grows (.inl hab.current), hbc.current.trans hab.current, ?_⟩
  intro code hs
  rw [← List.append_assoc]
  exact hbc.stands (hab.stands hs)

theorem Continues.emits {is : List Instruction} (h : a.Continues f rest t) (he : a.Emits is b)
    (hb : b.Within f) : ∃ rest', rest = is ++ rest' ∧ b.Continues f rest' t := by
  obtain ⟨code, block, hs, hblock, hcode, ht⟩ := h
  have hs' := he.stands hs
  obtain ⟨block', hblock', ⟨rest', hrest'⟩, -⟩ := hb hs'
  rw [he.current, hblock] at hblock'
  cases hblock'
  have heq : code ++ rest = code ++ (is ++ rest') := by
    rw [← hcode, ← hrest', List.append_assoc]
  exact ⟨rest', List.append_cancel_left heq,
    ⟨code ++ is, block, hs', by rw [he.current, hblock], hrest'.symm, ht⟩⟩

theorem Continues.closed {t' : Terminator} (h : a.Continues f rest t)
    (hclosed : ∀ {code : List Instruction}, a.Stands code →
      b.blocks[a.current.index]? = some ⟨a.current, code, some t'⟩)
    (hb : b.Within f) : rest = [] ∧ t = t' := by
  obtain ⟨code, block, hs, hblock, hcode, ht⟩ := h
  obtain ⟨block', hblock', -, hterm⟩ := hb (hclosed hs)
  rw [hblock] at hblock'
  cases hblock'
  obtain ⟨hinstr, hterm⟩ := hterm t' rfl
  rw [hcode] at hinstr
  exact ⟨by simpa using hinstr, ht.symm.trans hterm⟩

end

/-! ### The steps of a builder -/

section
variable {fb : FnBuilder}

/-- The builder with one more instruction where it is. -/
def emit (fb : FnBuilder) (i : Instruction) : FnBuilder :=
  fb.onCurrent fun b => { b with instructions := b.instructions ++ [i] }

/-- The builder with its current block ended. -/
def close (fb : FnBuilder) (t : Terminator) : FnBuilder :=
  fb.onCurrent fun b => { b with terminator := some t }

/-- The builder with one more block, which it is not at. -/
def opened (fb : FnBuilder) : FnBuilder :=
  { fb with blocks := fb.blocks ++ [⟨⟨fb.blocks.length⟩, [], none⟩] }

/-- The builder turned to another block. -/
def movedTo (fb : FnBuilder) (b : BlockId) : FnBuilder := { fb with current := b }

/-- The builder with the instruction that defines its next value. -/
def define (fb : FnBuilder) (ty : Ty) (kind : ValueKind) : FnBuilder :=
  { fb with nextValue := fb.nextValue + 1 }.emit (.value ⟨fb.nextValue⟩ ty kind)

theorem run_pushInstruction (fb : FnBuilder) (i : Instruction) :
    (pushInstruction i).run fb = .ok (⟨⟩, fb.emit i) := rfl

theorem run_pushValue (fb : FnBuilder) (ty : Ty) (kind : ValueKind) :
    (pushValue ty kind).run fb = .ok (⟨fb.nextValue⟩, fb.define ty kind) := rfl

theorem run_newBlock (fb : FnBuilder) :
    newBlock.run fb = .ok (⟨fb.blocks.length⟩, fb.opened) := rfl

theorem run_terminate (fb : FnBuilder) (t : Terminator) :
    (terminate t).run fb = .ok (⟨⟩, fb.close t) := rfl

theorem run_switchTo (fb : FnBuilder) (id : BlockId) :
    (switchTo id).run fb = .ok (⟨⟩, fb.movedTo id) := rfl

theorem blocks_onCurrent (fb : FnBuilder) (f : PendingBlock → PendingBlock) (i : ℕ) :
    (fb.onCurrent f).blocks[i]? =
      if fb.current.index = i then fb.blocks[i]?.map f else fb.blocks[i]? := by
  unfold onCurrent
  rw [List.getElem?_modify]
  split <;> simp

theorem length_onCurrent (fb : FnBuilder) (f : PendingBlock → PendingBlock) :
    (fb.onCurrent f).blocks.length = fb.blocks.length := by
  simp [onCurrent]

theorem grows_onCurrent {f : PendingBlock → PendingBlock}
    (hf : ∀ code, fb.Stands code →
      PendingBlock.Precedes ⟨fb.current, code, none⟩ (f ⟨fb.current, code, none⟩))
    {code : List Instruction} (hs : fb.Stands code) : fb.Grows (fb.onCurrent f) := by
  refine ⟨⟨le_rfl, fun {i p} h => ?_, fun _ => rfl⟩, fun {i p} hi h => ?_⟩
  · rw [blocks_onCurrent]
    by_cases hi : fb.current.index = i
    · subst hi
      rw [hs] at h
      cases h
      exact ⟨_, by rw [if_pos rfl, hs]; rfl, hf code hs⟩
    · exact ⟨p, by rw [if_neg hi, h], .refl p⟩
  · rw [blocks_onCurrent, if_neg (Ne.symm hi), h]

theorem Holds.onCurrent {f : PendingBlock → PendingBlock} {instruction : Instruction}
    (hf : ∀ b : PendingBlock, b.instructions ⊆ (f b).instructions) (h : fb.Holds instruction) :
    (fb.onCurrent f).Holds instruction := by
  obtain ⟨i, p, hp, hmem⟩ := h
  by_cases hi : fb.current.index = i
  · exact ⟨i, f p, by rw [blocks_onCurrent, if_pos hi, hp]; rfl, hf p hmem⟩
  · exact ⟨i, p, by rw [blocks_onCurrent, if_neg hi, hp], hmem⟩

theorem Formed.onCurrent {f : PendingBlock → PendingBlock} (hf : ∀ b, (f b).id = b.id)
    (hkeep : ∀ b : PendingBlock, b.instructions ⊆ (f b).instructions) (h : fb.Formed) :
    (fb.onCurrent f).Formed := by
  refine ⟨fun {i p} hp => ?_, h.sources, fun hs => ?_⟩
  · rw [blocks_onCurrent] at hp
    split at hp
    · obtain ⟨q, hq, rfl⟩ := Option.map_eq_some_iff.mp hp
      rw [hf, h.ids hq]
    · exact h.ids hp
  · obtain ⟨ty, hholds⟩ := h.reads hs
    exact ⟨ty, hholds.onCurrent hkeep⟩

theorem emits_emit {code : List Instruction} (hs : fb.Stands code) (i : Instruction) :
    fb.Emits [i] (fb.emit i) := by
  refine ⟨grows_onCurrent (fun code _ => ⟨rfl, List.prefix_append _ _, by simp⟩) hs, rfl, ?_⟩
  intro code' hs'
  have hblock := blocks_onCurrent fb (fun b => { b with instructions := b.instructions ++ [i] })
    fb.current.index
  rw [if_pos rfl, hs'] at hblock
  exact hblock

theorem Formed.emit (h : fb.Formed) (i : Instruction) : (fb.emit i).Formed :=
  h.onCurrent (fun _ => rfl) fun _ => List.subset_append_left _ _

theorem emits_define {code : List Instruction} (hs : fb.Stands code) (ty : Ty)
    (kind : ValueKind) :
    fb.Emits [.value ⟨fb.nextValue⟩ ty kind] (fb.define ty kind) := by
  have hs' : ({ fb with nextValue := fb.nextValue + 1 } : FnBuilder).Stands code := hs
  have he := emits_emit hs' (.value ⟨fb.nextValue⟩ ty kind)
  have hgrows := he.grows
  refine ⟨⟨⟨?_, hgrows.block, fun {id} hid => hgrows.sources ?_⟩, hgrows.kept⟩, he.current,
    he.stands⟩
  · exact Nat.le_succ _
  · exact Nat.lt_succ_of_lt hid

theorem Formed.define (h : fb.Formed) (ty : Ty) (kind : ValueKind) : (fb.define ty kind).Formed := by
  have hnext : ({ fb with nextValue := fb.nextValue + 1 } : FnBuilder).Formed :=
    ⟨h.ids, h.sources, h.reads⟩
  exact hnext.emit _

theorem grows_opened (fb : FnBuilder) : fb.Grows fb.opened := by
  have hkept : ∀ {i : ℕ} {p : PendingBlock}, fb.blocks[i]? = some p →
      fb.opened.blocks[i]? = some p := by
    intro i p h
    have hlt : i < fb.blocks.length := (List.getElem?_eq_some_iff.mp h).choose
    exact (List.getElem?_append_left hlt).trans h
  exact ⟨⟨le_rfl, fun h => ⟨_, hkept h, .refl _⟩, fun _ => rfl⟩, fun _ h => hkept h⟩

theorem emits_opened (fb : FnBuilder) : fb.Emits [] fb.opened := by
  refine ⟨grows_opened fb, rfl, fun {code} hs => ?_⟩
  rw [List.append_nil]
  exact (List.getElem?_append_left hs.current_lt).trans hs

theorem block_opened (fb : FnBuilder) :
    fb.opened.blocks[fb.blocks.length]? = some ⟨⟨fb.blocks.length⟩, [], none⟩ :=
  (List.getElem?_append_right le_rfl).trans (by simp)

theorem length_opened (fb : FnBuilder) : fb.opened.blocks.length = fb.blocks.length + 1 := by
  simp [opened]

theorem Formed.opened (h : fb.Formed) : fb.opened.Formed := by
  refine ⟨fun {i p} hp => ?_, h.sources, fun hs => ?_⟩
  · by_cases hi : i < fb.blocks.length
    · exact h.ids ((List.getElem?_append_left hi).symm.trans hp)
    · have hlt : i < fb.opened.blocks.length := (List.getElem?_eq_some_iff.mp hp).choose
      have heq : i = fb.blocks.length := by
        rw [length_opened] at hlt
        omega
      subst heq
      rw [block_opened] at hp
      cases hp
      rfl
  · obtain ⟨ty, i, p, hp, hmem⟩ := h.reads hs
    have hlt : i < fb.blocks.length := (List.getElem?_eq_some_iff.mp hp).choose
    exact ⟨ty, i, p, (List.getElem?_append_left hlt).trans hp, hmem⟩

theorem grows_close {code : List Instruction} (hs : fb.Stands code) (t : Terminator) :
    fb.Grows (fb.close t) :=
  grows_onCurrent (fun _ _ => ⟨rfl, List.prefix_rfl, by simp⟩) hs

theorem block_close {code : List Instruction} (hs : fb.Stands code) (t : Terminator) :
    (fb.close t).blocks[fb.current.index]? = some ⟨fb.current, code, some t⟩ := by
  have hblock := blocks_onCurrent fb (fun b => { b with terminator := some t }) fb.current.index
  rw [if_pos rfl, hs] at hblock
  exact hblock

theorem block_close_ne (t : Terminator) {i : ℕ} (hi : fb.current.index ≠ i) :
    (fb.close t).blocks[i]? = fb.blocks[i]? := by
  have hblock := blocks_onCurrent fb (fun b => { b with terminator := some t }) i
  rwa [if_neg hi] at hblock

theorem Formed.close (h : fb.Formed) (t : Terminator) : (fb.close t).Formed :=
  h.onCurrent (fun _ => rfl) fun _ => List.Subset.refl _

theorem Below.of_movedTo {b : BlockId} {c : FnBuilder} (h : (fb.movedTo b).Below c) :
    fb.Below c := ⟨h.nextValue, h.block, h.sources⟩

theorem Formed.movedTo (h : fb.Formed) (b : BlockId) : (fb.movedTo b).Formed :=
  ⟨h.ids, h.sources, h.reads⟩

theorem stands_movedTo {b : BlockId} (h : fb.blocks[b.index]? = some ⟨b, [], none⟩) :
    (fb.movedTo b).Stands [] := h

end

end FnBuilder

end Napitia.Lower
