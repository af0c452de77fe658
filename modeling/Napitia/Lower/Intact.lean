import Napitia.Lower.Functions

/-!
# Builders that are intact

Blocks are numbered by their place, every block that is jumped to has been opened, and
every id that was given out is the result of one instruction. Each piece of lowering keeps
this. What a piece is told of blocks stays true, as blocks are only ever added; so a block
is passed on by a bound on the blocks there are.
-/
namespace Napitia.Lower
open Nir StateT
open Hir (ExprId)
open Hir.Body
open Resourceck (LocalPlace CleanupAction)

/-- The blocks that a terminator goes to. -/
def targets : Terminator → List BlockId
  | .ret _ | .raise _ => []
  | .branch target => [target]
  | .condBranch _ thenBlock elseBlock => [thenBlock, elseBlock]
  | .switch _ _ cases => cases
  | .invoke _ _ _ _ _ okTarget errTargets => okTarget :: errTargets.map (·.target)

/-- The value an instruction defines. -/
def definedBy : Instruction → Option ValueId
  | .value result _ _ => some result
  | _ => none

def valuesDefined (blocks : List (List Instruction)) : List ValueId :=
  blocks.flatMap fun instructions => instructions.filterMap definedBy

/-- The ids from one to another. -/
def idsFrom (first next : ℕ) : List ValueId := (List.range' first (next - first)).map ValueId.mk

/-- A builder whose ids before the first are those of parameters. -/
structure Intact (first : ℕ) (fb : FnBuilder) : Prop where
  ids : ∀ {i : ℕ} {block : PendingBlock}, fb.blocks[i]? = some block → block.id = ⟨i⟩
  current : fb.current.index < fb.blocks.length
  begins : first ≤ fb.nextValue
  defined : (valuesDefined (fb.blocks.map (·.instructions))).Perm (idsFrom first fb.nextValue)
  targets : ∀ block ∈ fb.blocks, ∀ t, block.terminator = some t →
    ∀ id ∈ targets t, id.index < fb.blocks.length
  loops : ∀ ctx ∈ fb.loopStack,
    ctx.breakTarget.index < fb.blocks.length ∧ ctx.continueTarget.index < fb.blocks.length

/-- Where there are so many blocks, a piece keeps the builder intact, and what it results
in is told by the blocks there are in the end. -/
def Builds {α : Type} (x : Build α) (n : ℕ) (P : ℕ → α → Prop) : Prop :=
  ∀ ⦃first : ℕ⦄ ⦃a b : FnBuilder⦄ ⦃v : α⦄, Intact first a → n ≤ a.blocks.length →
    x.run a = .ok (v, b) →
      Intact first b ∧ a.blocks.length ≤ b.blocks.length ∧ P b.blocks.length v

/-- A piece that needs to be told nothing, and tells nothing. -/
def Sound {α : Type} (x : Build α) : Prop := Builds x 0 fun _ _ => True

section
variable {α β : Type} {x y : Build α} {f : α → Build β} {n m : ℕ} {P P' : ℕ → α → Prop}
  {Q : ℕ → β → Prop} {first : ℕ} {fb : FnBuilder}

theorem Builds.mono (h : Builds x n P) (hnm : n ≤ m) (hP : ∀ k v, P k v → P' k v) :
    Builds x m P' := by
  intro first a b v ha hm hrun
  obtain ⟨hb, hlen, hv⟩ := h ha (hnm.trans hm) hrun
  exact ⟨hb, hlen, hP _ _ hv⟩

theorem Sound.builds (h : Sound x) : Builds x n fun _ _ => True :=
  h.mono n.zero_le fun _ _ h => h

theorem Builds.bind (hx : Builds x n P) (hf : ∀ k v, n ≤ k → P k v → Builds (f v) k Q) :
    Builds (x >>= f) n Q := by
  intro first a c w ha hn hrun
  obtain ⟨v, b, hxrun, hfrun⟩ := run_bind_eq_ok.mp hrun
  obtain ⟨hb, hlen, hv⟩ := hx ha hn hxrun
  obtain ⟨hc, hlen', hw⟩ := hf _ v (hn.trans hlen) hv hb le_rfl hfrun
  exact ⟨hc, hlen.trans hlen', hw⟩

theorem Sound.before (hx : Sound x) (hf : ∀ v, Builds (f v) n Q) : Builds (x >>= f) n Q :=
  hx.builds.bind fun _ v hk _ => (hf v).mono hk fun _ _ h => h

theorem Sound.bind (hx : Sound x) (hf : ∀ v, Sound (f v)) : Sound (x >>= f) := hx.before hf

theorem builds_pure {v : α} (h : ∀ k, n ≤ k → P k v) : Builds (pure v) n P := by
  intro first a b w ha hn hrun
  obtain ⟨rfl, rfl⟩ := run_pure_eq_ok.mp hrun
  exact ⟨ha, le_rfl, h _ hn⟩

theorem sound_pure (v : α) : Sound (pure v : Build α) := builds_pure fun _ _ => trivial

theorem builds_throw (e : Diagnostic) : Builds (throw e : Build α) n P :=
  fun _ _ _ _ _ _ hrun => absurd hrun run_throw_ne_ok

theorem sound_throw (e : Diagnostic) : Sound (throw e : Build α) := builds_throw e

theorem Builds.ite {p : Prop} [Decidable p] (hx : p → Builds x n P) (hy : ¬ p → Builds y n P) :
    Builds (if p then x else y) n P := by
  split
  · exact hx ‹_›
  · exact hy ‹_›

theorem Sound.ite {p : Prop} [Decidable p] (hx : p → Sound x) (hy : ¬ p → Sound y) :
    Sound (if p then x else y) := Builds.ite hx hy

theorem Builds.guard {p : Prop} [Decidable p] {e : Diagnostic} {g : β → Build α}
    (hx : Builds x n P) : Builds (if p then (throw e : Build β) >>= g else x) n P :=
  fun _ _ _ _ ha hn hrun => hx ha hn (run_guard_eq_ok.mp hrun).2

theorem Reads.sound (hx : Reads x) : Sound x := by
  intro first a b v ha _ hrun
  have hb := hx hrun
  subst hb
  exact ⟨ha, le_rfl, trivial⟩

theorem sound_get : Sound (get : Build FnBuilder) := Reads.get.sound

theorem sound_modify {g : FnBuilder → FnBuilder} (hblocks : ∀ fb, (g fb).blocks = fb.blocks)
    (hcurrent : ∀ fb, (g fb).current = fb.current) (hnext : ∀ fb, (g fb).nextValue = fb.nextValue)
    (hloops : ∀ fb, (g fb).loopStack = fb.loopStack) : Sound (modify g : Build PUnit) := by
  intro first a b v ha _ hrun
  cases hrun
  refine ⟨⟨?_, ?_, ?_, ?_, ?_, ?_⟩, by rw [hblocks], trivial⟩
  · rw [hblocks]
    exact ha.ids
  · rw [hblocks, hcurrent]
    exact ha.current
  · rw [hnext]
    exact ha.begins
  · rw [hblocks, hnext]
    exact ha.defined
  · rw [hblocks]
    exact ha.targets
  · rw [hblocks, hloops]
    exact ha.loops

theorem builds_forM {l : List β} {g : β → Build PUnit} (h : ∀ v ∈ l, Builds (g v) n fun _ _ => True) :
    Builds (l.forM g) n fun _ _ => True := by
  induction l with
  | nil => exact builds_pure fun _ _ => trivial
  | cons v l ih =>
    refine (h v List.mem_cons_self).bind fun k _ hk _ => ?_
    exact (ih fun w hw => h w (List.mem_cons_of_mem _ hw)).mono hk fun _ _ h => h

theorem sound_forM {l : List β} {g : β → Build PUnit} (h : ∀ v ∈ l, Sound (g v)) :
    Sound (l.forM g) := builds_forM h

theorem builds_mapM {l : List α} {g : α → Build β} (hmono : ∀ k k' v, k ≤ k' → Q k v → Q k' v)
    (h : ∀ v ∈ l, Builds (g v) n Q) : Builds (l.mapM g) n fun k vs => ∀ v ∈ vs, Q k v := by
  induction l with
  | nil =>
    rw [List.mapM_nil]
    exact builds_pure fun _ _ v hv => by cases hv
  | cons v l ih =>
    rw [List.mapM_cons]
    refine (h v List.mem_cons_self).bind fun k w hk hw => ?_
    have hrest := ih fun u hu => h u (List.mem_cons_of_mem _ hu)
    refine (hrest.mono hk fun _ _ h => h).bind fun k' ws hk' hws => ?_
    refine builds_pure fun k'' hk'' u hu => ?_
    rcases List.mem_cons.mp hu with rfl | hu
    · exact hmono _ _ _ (hk'.trans hk'') hw
    · exact hmono _ _ _ hk'' (hws u hu)

theorem sound_mapM {l : List α} {g : α → Build β} (h : ∀ v ∈ l, Sound (g v)) :
    Sound (l.mapM g) :=
  (builds_mapM (fun _ _ _ _ h => h) h).mono le_rfl fun _ _ _ => trivial

/-! ### The steps of a builder -/

theorem valuesDefined_onCurrent {g : PendingBlock → PendingBlock} {new : List ValueId}
    (hg : ∀ b : PendingBlock, (g b).instructions.filterMap definedBy =
      b.instructions.filterMap definedBy ++ new)
    (hlt : fb.current.index < fb.blocks.length) :
    (valuesDefined ((fb.onCurrent g).blocks.map (·.instructions))).Perm
      (valuesDefined (fb.blocks.map (·.instructions)) ++ new) := by
  have hsplit := List.take_append_drop fb.current.index fb.blocks
  have hdrop := List.drop_eq_getElem_cons hlt
  have hblocks : (fb.onCurrent g).blocks = fb.blocks.take fb.current.index ++
      g fb.blocks[fb.current.index] :: fb.blocks.drop (fb.current.index + 1) := by
    unfold FnBuilder.onCurrent
    exact List.modify_eq_take_cons_drop hlt
  unfold valuesDefined
  rw [hblocks]
  conv_rhs => rw [← hsplit, hdrop]
  simp only [List.map_append, List.map_cons, List.flatMap_append, List.flatMap_cons, hg,
    List.append_assoc]
  refine List.Perm.append_left _ (List.Perm.append_left _ ?_)
  exact List.perm_append_comm

theorem Intact.onCurrent {g : PendingBlock → PendingBlock} {next : ℕ} {new : List ValueId}
    (h : Intact first fb) (hid : ∀ b, (g b).id = b.id)
    (hg : ∀ b : PendingBlock, (g b).instructions.filterMap definedBy =
      b.instructions.filterMap definedBy ++ new)
    (hnext : fb.nextValue ≤ next)
    (hnew : (idsFrom first fb.nextValue ++ new).Perm (idsFrom first next))
    (htargets : ∀ b t, (g b).terminator = some t → b.terminator = some t ∨
      ∀ id ∈ Lower.targets t, id.index < fb.blocks.length) :
    Intact first { fb.onCurrent g with nextValue := next } where
  ids := by
    intro i block hblock
    have hat := FnBuilder.blocks_onCurrent fb g i
    rw [show ({ fb.onCurrent g with nextValue := next } : FnBuilder).blocks[i]? =
      (fb.onCurrent g).blocks[i]? from rfl, hat] at hblock
    split at hblock
    · obtain ⟨old, hold, rfl⟩ := Option.map_eq_some_iff.mp hblock
      rw [hid]
      exact h.ids hold
    · exact h.ids hblock
  current := by
    change fb.current.index < (fb.onCurrent g).blocks.length
    rw [FnBuilder.length_onCurrent]
    exact h.current
  begins := h.begins.trans hnext
  defined := ((valuesDefined_onCurrent hg h.current).trans (h.defined.append_right _)).trans hnew
  targets := by
    intro block hblock t ht id hmem
    change id.index < (fb.onCurrent g).blocks.length
    rw [FnBuilder.length_onCurrent]
    obtain ⟨i, hi⟩ := List.mem_iff_getElem?.mp hblock
    change (fb.onCurrent g).blocks[i]? = some block at hi
    rw [FnBuilder.blocks_onCurrent] at hi
    split at hi
    · obtain ⟨old, hold, rfl⟩ := Option.map_eq_some_iff.mp hi
      rcases htargets old t ht with hkept | hall
      · exact h.targets old (List.mem_of_getElem? hold) t hkept id hmem
      · exact hall id hmem
    · exact h.targets block (List.mem_of_getElem? hi) t ht id hmem
  loops := by
    intro ctx hctx
    change ctx.breakTarget.index < (fb.onCurrent g).blocks.length ∧
      ctx.continueTarget.index < (fb.onCurrent g).blocks.length
    rw [FnBuilder.length_onCurrent]
    exact h.loops ctx hctx

theorem sound_pushInstruction {i : Instruction} (hi : definedBy i = none) :
    Sound (pushInstruction i) := by
  intro first a b v ha _ hrun
  cases hrun
  have hg : ∀ b : PendingBlock, ({ b with instructions := b.instructions ++ [i] } :
      PendingBlock).instructions.filterMap definedBy = b.instructions.filterMap definedBy ++ [] := by
    simp [hi]
  refine ⟨ha.onCurrent (fun _ => rfl) hg le_rfl (by simp) fun _ _ ht => .inl ht, ?_, trivial⟩
  exact (FnBuilder.length_onCurrent _ _).ge

theorem idsFrom_succ {next : ℕ} (h : first ≤ next) :
    idsFrom first (next + 1) = idsFrom first next ++ [⟨next⟩] := by
  have hlength : next + 1 - first = (next - first) + 1 := by omega
  have hlast : first + (next - first) = next := by omega
  unfold idsFrom
  rw [hlength, List.range'_1_concat, List.map_append, hlast]
  rfl

theorem sound_pushValue (ty : Ty) (kind : ValueKind) : Sound (pushValue ty kind) := by
  intro first a b v ha _ hrun
  cases hrun
  have hg : ∀ b : PendingBlock, ({ b with
      instructions := b.instructions ++ [.value ⟨a.nextValue⟩ ty kind] } :
      PendingBlock).instructions.filterMap definedBy =
        b.instructions.filterMap definedBy ++ [⟨a.nextValue⟩] := by
    intro b
    rw [List.filterMap_append]
    rfl
  refine ⟨ha.onCurrent (fun _ => rfl) hg (Nat.le_succ _) ?_ fun _ _ ht => .inl ht, ?_, trivial⟩
  · rw [idsFrom_succ ha.begins]
  · exact (FnBuilder.length_onCurrent _ _).ge

theorem builds_terminate {t : Terminator} (h : ∀ id ∈ targets t, id.index < n) :
    Builds (terminate t) n fun _ _ => True := by
  intro first a b v ha hn hrun
  cases hrun
  have hg : ∀ b : PendingBlock, ({ b with terminator := some t } :
      PendingBlock).instructions.filterMap definedBy = b.instructions.filterMap definedBy ++ [] := by
    simp
  refine ⟨ha.onCurrent (fun _ => rfl) hg le_rfl (by simp) fun _ t' ht => .inr ?_, ?_, trivial⟩
  · cases ht
    exact fun id hid => (h id hid).trans_le hn
  · exact (FnBuilder.length_onCurrent _ _).ge

theorem sound_terminate {t : Terminator} (h : targets t = []) : Sound (terminate t) :=
  builds_terminate (by simp [h])

theorem builds_newBlock : Builds newBlock n fun k id => id.index < k := by
  intro first a b v ha _ hrun
  cases hrun
  have hlength : (a.blocks ++ [(⟨⟨a.blocks.length⟩, [], none⟩ : PendingBlock)]).length =
      a.blocks.length + 1 := by simp
  refine ⟨⟨?_, ?_, ha.begins, ?_, ?_, ?_⟩, ?_, ?_⟩
  · intro i block hblock
    rcases Nat.lt_or_ge i a.blocks.length with hlt | hge
    · rw [List.getElem?_append_left hlt] at hblock
      exact ha.ids hblock
    · rw [List.getElem?_append_right hge] at hblock
      obtain ⟨hi, rfl⟩ := List.getElem?_eq_some_iff.mp hblock
      have hzero : i = a.blocks.length := by
        simp at hi
        omega
      simp [hzero]
  · rw [hlength]
    exact ha.current.trans (Nat.lt_succ_self _)
  · simpa [valuesDefined] using ha.defined
  · intro block hblock t ht id hid
    rw [hlength]
    rcases List.mem_append.mp hblock with hold | hnew
    · exact (ha.targets block hold t ht id hid).trans (Nat.lt_succ_self _)
    · obtain rfl := List.mem_singleton.mp hnew
      cases ht
  · intro ctx hctx
    rw [hlength]
    obtain ⟨hbreak, hcontinue⟩ := ha.loops ctx hctx
    exact ⟨hbreak.trans (Nat.lt_succ_self _), hcontinue.trans (Nat.lt_succ_self _)⟩
  · rw [hlength]
    exact Nat.le_succ _
  · rw [hlength]
    exact Nat.lt_succ_self _

theorem builds_switchTo {id : BlockId} (h : id.index < n) :
    Builds (switchTo id) n fun _ _ => True := by
  intro first a b v ha hn hrun
  cases hrun
  exact ⟨⟨ha.ids, h.trans_le hn, ha.begins, ha.defined, ha.targets, ha.loops⟩, le_rfl, trivial⟩

end

end Napitia.Lower
