import Mathlib.Data.Finset.Sort
import Mathlib.Data.Finset.Max
import Mathlib.Data.Finset.Card

/-!
# Dependencies first

Nodes are placed one at a time, the least one of those all of whose dependencies are placed
first. How many dependencies a node still waits for is counted down as they are placed. What is
placed in the end does not depend on anything but the nodes, their order and their
dependencies; what is left out waits for a node that is left out too.
-/
namespace Kahn
variable {N : Type} [LinearOrder N]

structure State (N : Type) where
  /-- How many of its dependencies a node still waits for. -/
  remaining : N → ℕ
  ready : Finset N
  order : List N

section
variable (nodes : Finset N) (deps : N → Finset N)

def importersOf (n : N) : Finset N := nodes.filter fun m => n ∈ deps m

def start : State N where
  remaining n := (deps n).card
  ready := nodes.filter fun n => (deps n).card = 0
  order := []

/-- One dependency of a node has been placed; there has to be one that it waits for. -/
def release (s : State N) (importer : N) : Option (State N) :=
  match s.remaining importer with
  | 0 => none
  | left + 1 =>
    some { s with
      remaining := Function.update s.remaining importer left
      ready := if left = 0 then insert importer s.ready else s.ready }

def place (s : State N) (next : N) : Option (State N) :=
  ((importersOf nodes deps next).sort).foldlM release
    { s with ready := s.ready.erase next, order := s.order ++ [next] }

def run : ℕ → State N → Option (List N)
  | fuel, s =>
    if h : s.ready.Nonempty then
      match fuel with
      | 0 => none
      | fuel + 1 => (place nodes deps s (s.ready.min' h)).bind (run fuel)
    else some s.order

/-! ### What a run keeps true -/

/-- The nodes that could be placed behind these. -/
def readyBehind (order : List N) : Finset N :=
  nodes.filter fun n => n ∉ order ∧ deps n ⊆ order.toFinset

/-- Everything a node depends on stands before it. -/
def DependenciesFirst (order : List N) : Prop :=
  ∀ before n after, order = before ++ n :: after → ∀ d ∈ deps n, d ∈ before

structure Inv (s : State N) : Prop where
  nodup : s.order.Nodup
  subset : ∀ n ∈ s.order, n ∈ nodes
  first : DependenciesFirst deps s.order
  remaining : ∀ n ∈ nodes, s.remaining n = (deps n \ s.order.toFinset).card
  ready : s.ready = readyBehind nodes deps s.order

end

variable {nodes : Finset N} {deps : N → Finset N}

theorem mem_readyBehind {order : List N} {n : N} :
    n ∈ readyBehind nodes deps order ↔
      n ∈ nodes ∧ n ∉ order ∧ deps n ⊆ order.toFinset := by
  simp [readyBehind]

theorem inv_start : Inv nodes deps (start nodes deps) := by
  refine ⟨List.nodup_nil, ?_, ?_, ?_, ?_⟩
  · intro n hn
    cases hn
  · intro before n after h
    simp [start] at h
  · intro n _
    simp [start]
  · ext n
    simp [start, readyBehind]

theorem foldlM_release {importers : List N} (hnodup : importers.Nodup) (s : State N)
    (hpos : ∀ n ∈ importers, 0 < s.remaining n) :
    ∃ t, importers.foldlM release s = some t ∧ t.order = s.order ∧
      (∀ n, t.remaining n = if n ∈ importers then s.remaining n - 1 else s.remaining n) ∧
      ∀ n, n ∈ t.ready ↔ n ∈ s.ready ∨ n ∈ importers ∧ s.remaining n = 1 := by
  induction importers generalizing s with
  | nil => exact ⟨s, rfl, rfl, by simp, by simp⟩
  | cons importer importers ih =>
    obtain ⟨hnotin, hnodup⟩ := List.nodup_cons.mp hnodup
    obtain ⟨left, hleft⟩ : ∃ left, s.remaining importer = left + 1 :=
      Nat.exists_eq_add_of_lt (hpos importer List.mem_cons_self) |>.imp fun left h => by omega
    have hrelease : release s importer = some { s with
        remaining := Function.update s.remaining importer left
        ready := if left = 0 then insert importer s.ready else s.ready } := by
      simp [release, hleft]
    have hne : ∀ n ∈ importers, n ≠ importer := fun n hn heq => hnotin (heq ▸ hn)
    obtain ⟨t, hfold, horder, hremaining, hready⟩ := ih hnodup { s with
        remaining := Function.update s.remaining importer left
        ready := if left = 0 then insert importer s.ready else s.ready } (by
      intro n hn
      change 0 < Function.update s.remaining importer left n
      rw [Function.update_of_ne (hne n hn)]
      exact hpos n (List.mem_cons_of_mem _ hn))
    refine ⟨t, ?_, horder, ?_, ?_⟩
    · rw [List.foldlM_cons, hrelease]
      exact hfold
    · intro n
      rw [hremaining]
      by_cases hn : n = importer
      · subst hn
        simp [hnotin, hleft]
      · simp [hn]
    · intro n
      rw [hready]
      by_cases hn : n = importer
      · subst hn
        by_cases hzero : left = 0
        · simp [hnotin, hleft, hzero]
        · simp [hnotin, hleft, hzero]
      · have hready' : n ∈ (if left = 0 then insert importer s.ready else s.ready) ↔
            n ∈ s.ready := by
          split <;> simp [hn]
        simp [hready', hn]

theorem mem_importersOf {n m : N} : m ∈ importersOf nodes deps n ↔ m ∈ nodes ∧ n ∈ deps m := by
  simp [importersOf]

/-- Placing a ready node keeps the invariant, and nothing is counted below zero. -/
theorem Inv.place {s : State N} (h : Inv nodes deps s) {next : N} (hnext : next ∈ s.ready) :
    ∃ t, place nodes deps s next = some t ∧ Inv nodes deps t ∧ t.order = s.order ++ [next] := by
  rw [h.ready, mem_readyBehind] at hnext
  obtain ⟨hnode, hnew, hdeps⟩ := hnext
  have hcount {m : N} (hm : m ∈ nodes) :
      (deps m \ (s.order ++ [next]).toFinset).card =
        if next ∈ deps m then s.remaining m - 1 else s.remaining m := by
    have hsplit : deps m \ (s.order ++ [next]).toFinset =
        (deps m \ s.order.toFinset).erase next := by
      ext x
      simp only [Finset.mem_sdiff, List.mem_toFinset, List.mem_append, List.mem_singleton,
        Finset.mem_erase, not_or]
      exact ⟨fun hx => ⟨hx.2.2, hx.1, hx.2.1⟩, fun hx => ⟨hx.2.1, hx.2.2, hx.1⟩⟩
    rw [hsplit, h.remaining m hm]
    by_cases hin : next ∈ deps m
    · rw [if_pos hin, Finset.card_erase_of_mem (by simp [hin, hnew])]
    · rw [if_neg hin, Finset.erase_eq_of_notMem (by simp [hin])]
  obtain ⟨t, hfold, horder, hremaining, hready⟩ :=
    foldlM_release (Finset.sort_nodup (importersOf nodes deps next) (· ≤ ·))
      { s with ready := s.ready.erase next, order := s.order ++ [next] } (by
        intro m hm
        obtain ⟨hm, hin⟩ := mem_importersOf.mp ((Finset.mem_sort _).mp hm)
        change 0 < s.remaining m
        rw [h.remaining m hm]
        exact Finset.card_pos.mpr ⟨next, by simp [hin, hnew]⟩)
  refine ⟨t, hfold, ⟨?_, ?_, ?_, ?_, ?_⟩, horder⟩
  · rw [horder]
    exact h.nodup.append (List.nodup_singleton next) (by simpa using hnew)
  · rw [horder]
    intro n hn
    rcases List.mem_append.mp hn with hn | hn
    · exact h.subset n hn
    · rwa [List.mem_singleton.mp hn]
  · rw [horder]
    intro before n after heq d hd
    rcases List.append_eq_append_iff.mp heq with ⟨rest, hbefore, hrest⟩ | ⟨rest, hs, hrest⟩
    · cases rest with
      | nil =>
        obtain ⟨rfl, -⟩ := List.cons.inj hrest
        rw [hbefore, List.append_nil]
        simpa using hdeps hd
      | cons r rest => simp at hrest
    · cases rest with
      | nil =>
        obtain ⟨rfl, -⟩ := List.cons.inj hrest
        rw [List.append_nil] at hs
        rw [← hs]
        simpa using hdeps hd
      | cons r rest =>
        obtain ⟨rfl, -⟩ := List.cons.inj hrest
        exact h.first before n rest hs d hd
  · intro m hm
    rw [hremaining, horder, hcount hm]
    by_cases hin : next ∈ deps m
    · simp [mem_importersOf, hm, hin]
    · simp [mem_importersOf, hin]
  · ext m
    rw [hready, mem_readyBehind, horder, Finset.mem_erase, h.ready, mem_readyBehind,
      Finset.mem_sort, mem_importersOf]
    by_cases hin : next ∈ deps m
    · have hwaits : ¬deps m ⊆ s.order.toFinset := fun hsub =>
        hnew (List.mem_toFinset.mp (hsub hin))
      have hunplaced : m ∉ s.order := fun hm => hwaits fun d hd => by
        obtain ⟨before, after, heq⟩ := List.append_of_mem hm
        rw [heq]
        simp [h.first before m after heq d hd]
      have hother : m ≠ next := fun heq => by
        rw [heq] at hwaits
        exact hwaits hdeps
      have hlast : m ∈ nodes → (s.remaining m = 1 ↔ deps m ⊆ (s.order ++ [next]).toFinset) := by
        intro hm
        have hpos : 0 < s.remaining m := by
          rw [h.remaining m hm]
          exact Finset.card_pos.mpr ⟨next, by simp [hin, hnew]⟩
        have hleft := hcount hm
        rw [if_pos hin] at hleft
        rw [← Finset.sdiff_eq_empty_iff_subset, ← Finset.card_eq_zero, hleft]
        omega
      refine ⟨?_, ?_⟩
      · rintro (⟨-, -, -, hsub⟩ | ⟨⟨hm, -⟩, hone⟩)
        · exact absurd hsub hwaits
        · exact ⟨hm, by simp [hunplaced, hother], (hlast hm).mp hone⟩
      · rintro ⟨hm, -, hsub⟩
        exact Or.inr ⟨⟨hm, hin⟩, (hlast hm).mpr hsub⟩
    · have hsub : deps m ⊆ (s.order ++ [next]).toFinset ↔ deps m ⊆ s.order.toFinset := by
        refine ⟨fun hsub d hd => ?_, fun hsub d hd => ?_⟩
        · have hmem := hsub hd
          have hne : d ≠ next := fun heq => hin (heq ▸ hd)
          simpa [hne] using hmem
        · have hmem := List.mem_toFinset.mp (hsub hd)
          simp [hmem]
      rw [hsub]
      simp only [List.mem_append, List.mem_singleton, not_or, hin, and_false, false_and, or_false]
      exact ⟨fun hm => ⟨hm.2.1, ⟨hm.2.2.1, hm.1⟩, hm.2.2.2⟩,
        fun hm => ⟨hm.2.1.2, hm.1, hm.2.1.1, hm.2.2⟩⟩

/-! ### What a run places -/

/-- The nodes placed behind others, read off from what could be placed. -/
def greedy (nodes : Finset N) (deps : N → Finset N) : ℕ → List N → List N
  | 0, order => order
  | n + 1, order =>
    if h : (readyBehind nodes deps order).Nonempty then
      greedy nodes deps n (order ++ [(readyBehind nodes deps order).min' h])
    else order

theorem Inv.length_le {s : State N} (h : Inv nodes deps s) : s.order.length ≤ nodes.card := by
  rw [← List.toFinset_card_of_nodup h.nodup]
  exact Finset.card_le_card fun n hn => h.subset n (List.mem_toFinset.mp hn)

theorem Inv.length_lt {s : State N} (h : Inv nodes deps s) {n : N} (hn : n ∈ s.ready) :
    s.order.length < nodes.card := by
  rw [h.ready, mem_readyBehind] at hn
  rw [← List.toFinset_card_of_nodup h.nodup]
  refine Finset.card_lt_card ⟨fun m hm => h.subset m (List.mem_toFinset.mp hm), fun hsub => ?_⟩
  exact hn.2.1 (List.mem_toFinset.mp (hsub hn.1))

/-- With fuel for every node that is left a run ends, where no node is ready. -/
theorem Inv.run {s : State N} (h : Inv nodes deps s) {fuel : ℕ}
    (hfuel : nodes.card ≤ fuel + s.order.length) :
    ∃ t, run nodes deps fuel s = some t.order ∧ Inv nodes deps t ∧ t.ready = ∅ ∧
      t.order = greedy nodes deps fuel s.order := by
  induction fuel generalizing s with
  | zero =>
    by_cases hready : s.ready.Nonempty
    · have := h.length_lt hready.choose_spec
      omega
    · refine ⟨s, ?_, h, Finset.not_nonempty_iff_eq_empty.mp hready, rfl⟩
      rw [Kahn.run, dif_neg hready]
  | succ fuel ih =>
    by_cases hready : s.ready.Nonempty
    · obtain ⟨t, hplace, ht, horder⟩ := h.place (s.ready.min'_mem hready)
      have hlength : t.order.length = s.order.length + 1 := by simp [horder]
      obtain ⟨u, hrun, hu, hempty, hgreedy⟩ := ih ht (by omega)
      refine ⟨u, ?_, hu, hempty, ?_⟩
      · rw [Kahn.run, dif_pos hready]
        change (Kahn.place nodes deps s (s.ready.min' hready)).bind _ = _
        rw [hplace]
        exact hrun
      · have hready' : (readyBehind nodes deps s.order).Nonempty := h.ready ▸ hready
        have hmin : (readyBehind nodes deps s.order).min' hready' = s.ready.min' hready := by
          simp only [h.ready]
        rw [hgreedy, greedy, dif_pos hready', hmin, horder]
    · refine ⟨s, ?_, h, Finset.not_nonempty_iff_eq_empty.mp hready, ?_⟩
      · rw [Kahn.run, dif_neg hready]
      · rw [greedy, dif_neg (h.ready ▸ hready)]

theorem Inv.waits {s : State N} (h : Inv nodes deps s) (hempty : s.ready = ∅)
    (hdeps : ∀ n ∈ nodes, deps n ⊆ nodes) {n : N} (hn : n ∈ nodes) (hout : n ∉ s.order) :
    ∃ d ∈ deps n, d ∈ nodes ∧ d ∉ s.order := by
  by_contra hall
  have hready : n ∈ s.ready := by
    rw [h.ready, mem_readyBehind]
    refine ⟨hn, hout, fun d hd => ?_⟩
    by_contra hd'
    exact hall ⟨d, hd, hdeps n hn hd, fun hmem => hd' (List.mem_toFinset.mpr hmem)⟩
  rw [hempty] at hready
  cases hready

/-! ### Renamed nodes -/

section
variable {M : Type} [LinearOrder M] {nodes' : Finset M} {deps' : M → Finset M} {f : N → M}

/-- The same nodes and dependencies under other names, in the same order. -/
structure Renames (f : N → M) (nodes : Finset N) (deps : N → Finset N) (nodes' : Finset M)
    (deps' : M → Finset M) : Prop where
  mono : ∀ a ∈ nodes, ∀ b ∈ nodes, a < b → f a < f b
  mem_nodes : ∀ m, m ∈ nodes' ↔ ∃ n ∈ nodes, f n = m
  mem_deps : ∀ n ∈ nodes, ∀ m, m ∈ deps' (f n) ↔ ∃ d ∈ deps n, f d = m
  closed : ∀ n ∈ nodes, deps n ⊆ nodes

namespace Renames

theorem injOn (h : Renames f nodes deps nodes' deps') {a b : N} (ha : a ∈ nodes) (hb : b ∈ nodes)
    (hab : f a = f b) : a = b := by
  rcases lt_trichotomy a b with hlt | heq | hgt
  · exact absurd hab (h.mono a ha b hb hlt).ne
  · exact heq
  · exact absurd hab (h.mono b hb a ha hgt).ne'

theorem card_eq (h : Renames f nodes deps nodes' deps') : nodes'.card = nodes.card := by
  have himage : nodes' = nodes.image f := by
    ext m
    rw [h.mem_nodes, Finset.mem_image]
  rw [himage]
  exact Finset.card_image_of_injOn fun a ha b hb hab => h.injOn ha hb hab

theorem mem_map_iff (h : Renames f nodes deps nodes' deps') {l : List N} (hl : ∀ n ∈ l, n ∈ nodes)
    {n : N} (hn : n ∈ nodes) : f n ∈ l.map f ↔ n ∈ l := by
  refine ⟨fun hmem => ?_, List.mem_map_of_mem⟩
  obtain ⟨m, hm, heq⟩ := List.mem_map.mp hmem
  rwa [← h.injOn (hl m hm) hn heq]

theorem min'_image (h : Renames f nodes deps nodes' deps') {s : Finset N} (hs : s ⊆ nodes)
    (hne : s.Nonempty) (hne' : (s.image f).Nonempty) :
    (s.image f).min' hne' = f (s.min' hne) := by
  refine le_antisymm (Finset.min'_le _ _ (Finset.mem_image_of_mem f (s.min'_mem hne))) ?_
  refine Finset.le_min' _ _ _ fun m hm => ?_
  obtain ⟨n, hn, rfl⟩ := Finset.mem_image.mp hm
  rcases (s.min'_le n hn).lt_or_eq with hlt | heq
  · exact (h.mono _ (hs (s.min'_mem hne)) n (hs hn) hlt).le
  · exact (congrArg f heq).le

theorem sort_image (h : Renames f nodes deps nodes' deps') {s : Finset N} (hs : s ⊆ nodes) :
    (s.image f).sort = s.sort.map f := by
  have hmem {n : N} (hn : n ∈ s.sort) : n ∈ nodes := hs ((Finset.mem_sort _).mp hn)
  have hnodup : (s.sort.map f).Nodup := by
    refine List.Nodup.map_on (fun a ha b hb hab => ?_) (Finset.sort_nodup _ _)
    exact h.injOn (hmem ha) (hmem hb) hab
  refine List.Perm.eq_of_pairwise' (r := (· ≤ ·)) (Finset.pairwise_sort _ _) ?_ ?_
  · refine List.pairwise_map.mpr ((Finset.pairwise_sort s (· ≤ ·)).imp_of_mem ?_)
    intro a b ha hb hle
    rcases hle.lt_or_eq with hlt | rfl
    · exact (h.mono a (hmem ha) b (hmem hb) hlt).le
    · exact le_rfl
  · refine (List.perm_ext_iff_of_nodup (Finset.sort_nodup _ _) hnodup).mpr fun m => ?_
    simp

theorem sort_map (h : Renames f nodes deps nodes' deps') {s : Finset N} (hs : s ⊆ nodes)
    {s' : Finset M} (hs' : ∀ m, m ∈ s' ↔ ∃ n ∈ s, f n = m) : s'.sort = s.sort.map f := by
  have himage : s' = s.image f := by
    ext m
    rw [hs', Finset.mem_image]
  rw [himage, h.sort_image hs]

theorem readyBehind_map (h : Renames f nodes deps nodes' deps') {order : List N}
    (horder : ∀ n ∈ order, n ∈ nodes) :
    readyBehind nodes' deps' (order.map f) = (readyBehind nodes deps order).image f := by
  ext m
  rw [mem_readyBehind, Finset.mem_image]
  refine ⟨?_, ?_⟩
  · rintro ⟨hm, hout, hsub⟩
    obtain ⟨n, hn, rfl⟩ := (h.mem_nodes m).mp hm
    refine ⟨n, mem_readyBehind.mpr ⟨hn, fun hmem => hout (List.mem_map_of_mem hmem), ?_⟩, rfl⟩
    intro d hd
    have hmem := hsub ((h.mem_deps n hn _).mpr ⟨d, hd, rfl⟩)
    exact List.mem_toFinset.mpr ((h.mem_map_iff horder (h.closed n hn hd)).mp
      (List.mem_toFinset.mp hmem))
  · rintro ⟨n, hn, rfl⟩
    obtain ⟨hn, hout, hsub⟩ := mem_readyBehind.mp hn
    refine ⟨(h.mem_nodes _).mpr ⟨n, hn, rfl⟩,
      fun hmem => hout ((h.mem_map_iff horder hn).mp hmem), ?_⟩
    intro m hm
    obtain ⟨d, hd, rfl⟩ := (h.mem_deps n hn m).mp hm
    exact List.mem_toFinset.mpr (List.mem_map_of_mem (List.mem_toFinset.mp (hsub hd)))

theorem greedy_map (h : Renames f nodes deps nodes' deps') (fuel : ℕ) {order : List N}
    (horder : ∀ n ∈ order, n ∈ nodes) :
    greedy nodes' deps' fuel (order.map f) = (greedy nodes deps fuel order).map f := by
  induction fuel generalizing order with
  | zero => rfl
  | succ fuel ih =>
    have hready := h.readyBehind_map horder
    have hsub : readyBehind nodes deps order ⊆ nodes := fun n hn => (mem_readyBehind.mp hn).1
    by_cases hne : (readyBehind nodes deps order).Nonempty
    · have hne' : (readyBehind nodes' deps' (order.map f)).Nonempty := hready ▸ hne.image f
      have hmin : (readyBehind nodes' deps' (order.map f)).min' hne' =
          f ((readyBehind nodes deps order).min' hne) := by
        simp only [hready]
        exact h.min'_image hsub hne (hne.image f)
      rw [greedy, dif_pos hne', greedy, dif_pos hne, hmin, ← ih]
      · simp
      · intro n hn
        rcases List.mem_append.mp hn with hn | hn
        · exact horder n hn
        · rw [List.mem_singleton.mp hn]
          exact hsub (Finset.min'_mem _ hne)
    · have hne' : ¬(readyBehind nodes' deps' (order.map f)).Nonempty := by
        rw [hready]
        simpa using hne
      rw [greedy, dif_neg hne', greedy, dif_neg hne]

end Renames

end

end Kahn
