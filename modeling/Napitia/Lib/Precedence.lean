import Mathlib.Data.Nat.Basic
import Mathlib.Data.List.Basic

/-!
# Operator precedence

Trees of operators over operands, the sequences they flatten to, and the trees that a table
of levels and associativities allows. A sequence has at most one tree that the table allows,
and it has one when any two operators of a level that does not associate have a looser one
between them.
-/
namespace Precedence
variable {ω α : Type*}

inductive Assoc where
  | left | right | none
  deriving DecidableEq

/-- How tightly an operator binds, and to which side a level groups. -/
structure Table (ω : Type*) where
  level : ω → ℕ
  assoc : ℕ → Assoc

inductive Tree (ω α : Type*) where
  | leaf (operand : α)
  | node (op : ω) (left right : Tree ω α)

/-- The leftmost operand. -/
def Tree.first : Tree ω α → α
  | .leaf a => a
  | .node _ l _ => l.first

/-- What follows the leftmost operand, read from left to right. -/
def Tree.rest : Tree ω α → List (ω × α)
  | .leaf _ => []
  | .node o l r => l.rest ++ (o, r.first) :: r.rest

def Tree.ops (t : Tree ω α) : List ω := t.rest.map Prod.fst

@[simp] theorem Tree.ops_leaf (a : α) : (Tree.leaf a : Tree ω α).ops = [] := rfl

@[simp] theorem Tree.ops_node (o : ω) (l r : Tree ω α) :
    (Tree.node o l r).ops = l.ops ++ o :: r.ops := by
  simp [ops, rest]

namespace Table
variable (T : Table ω)

/-- An operator may stand on that side of a looser one, and of one of its own level where the
level groups to that side. -/
def Under (side : Assoc) (outer inner : ω) : Prop :=
  T.level outer < T.level inner ∨
    T.level outer = T.level inner ∧ T.assoc (T.level outer) = side

/-- Two operators of one level that does not associate have a looser one between them. -/
def Separated (os : List ω) : Prop :=
  ∀ xs o ys p zs, os = xs ++ o :: (ys ++ p :: zs) → T.level o = T.level p →
    T.assoc (T.level o) = .none → ∃ q ∈ ys, T.level q < T.level o

end Table

/-- Every operator binds as the table says. -/
def Tree.Allowed (T : Table ω) : Tree ω α → Prop
  | .leaf _ => True
  | .node o l r => l.Allowed T ∧ r.Allowed T ∧ (∀ p ∈ l.ops, T.Under .left o p) ∧
      ∀ p ∈ r.ops, T.Under .right o p

section
variable {T : Table ω} {o p : ω}

theorem Table.Under.le {side : Assoc} (h : T.Under side o p) : T.level o ≤ T.level p := by
  obtain h | ⟨h, -⟩ := h <;> omega

theorem Table.Under.lt {side : Assoc} (h : T.Under side o p)
    (hside : T.assoc (T.level o) ≠ side) : T.level o < T.level p := by
  obtain h | ⟨-, h⟩ := h
  · exact h
  · exact absurd h hside

theorem Table.Under.not_both (hl : T.Under .left o p) (hr : T.Under .right p o) : False := by
  have hlevel : T.level o = T.level p := Nat.le_antisymm hl.le hr.le
  obtain h | ⟨-, hleft⟩ := hl
  · omega
  · obtain h | ⟨-, hright⟩ := hr
    · omega
    · rw [hlevel] at hleft
      exact absurd (hleft.symm.trans hright) (by decide)

theorem Table.Separated.tail {os : List ω} (h : T.Separated (o :: os)) : T.Separated os := by
  intro xs p ys q zs hos
  exact h (o :: xs) p ys q zs (by rw [hos]; rfl)

theorem Table.Separated.middle (xs zs : List ω) {ys : List ω}
    (h : T.Separated (xs ++ ys ++ zs)) : T.Separated ys := by
  intro as p bs q cs hys
  refine h (xs ++ as) p bs q (cs ++ zs) ?_
  rw [hys]
  simp

theorem Tree.Allowed.mem_le {l r : Tree ω α} (h : (Tree.node o l r).Allowed T)
    (hp : p ∈ (Tree.node o l r).ops) : T.level o ≤ T.level p := by
  obtain ⟨-, -, hl, hr⟩ := h
  rw [Tree.ops_node, List.mem_append, List.mem_cons] at hp
  obtain hp | rfl | hp := hp
  · exact (hl p hp).le
  · exact le_refl _
  · exact (hr p hp).le

/-- The root of an allowed tree does not stand after the root of another one: each would be
on a side that the other does not group to. -/
theorem Table.Under.not_shifted {l r : Tree ω α} {a b : α} {xs ys zs : List (ω × α)}
    (hl : ∀ q ∈ l.ops, T.Under .left o q) (hr : ∀ q ∈ r.ops, T.Under .right p q)
    (hleft : l.rest = zs ++ (p, b) :: xs) (hright : r.rest = xs ++ (o, a) :: ys) : False := by
  have hpl : p ∈ l.ops := by
    rw [Tree.ops, hleft]
    simp
  have hor : o ∈ r.ops := by
    rw [Tree.ops, hright]
    simp
  exact (hl p hpl).not_both (hr o hor)

/-- The table allows one tree of a sequence at most: the roots of two of them stand at the
same place, or each would have the other on a side that it does not group to. -/
theorem Tree.Allowed.unique {t u : Tree ω α} (ht : t.Allowed T) (hu : u.Allowed T)
    (hfirst : t.first = u.first) (hrest : t.rest = u.rest) : t = u := by
  induction t generalizing u with
  | leaf a =>
    cases u with
    | leaf b =>
      change a = b at hfirst
      rw [hfirst]
    | node p l' r' =>
      have hlen := congrArg List.length hrest
      simp [Tree.rest] at hlen
  | node o l r ihl ihr =>
    cases u with
    | leaf b =>
      have hlen := congrArg List.length hrest
      simp [Tree.rest] at hlen
    | node p l' r' =>
      obtain ⟨hl, hr, hol, hor⟩ := ht
      obtain ⟨hl', hr', hpl, hpr⟩ := hu
      rw [Tree.rest, Tree.rest, List.append_eq_append_iff] at hrest
      obtain ⟨xs, hxs, hys⟩ | ⟨xs, hxs, hys⟩ := hrest
      · cases xs with
        | nil =>
          rw [List.append_nil] at hxs
          obtain ⟨hhead, htail⟩ := List.cons.inj hys
          obtain ⟨hop, hfst⟩ := Prod.mk.inj hhead
          rw [hop, ihl hl hl' hfirst hxs.symm, ihr hr hr' hfst htail]
        | cons x xs =>
          obtain ⟨hx, htail⟩ := List.cons.inj hys
          rw [← hx] at hxs
          exact (Table.Under.not_shifted hpl hor hxs htail).elim
      · cases xs with
        | nil =>
          rw [List.append_nil] at hxs
          obtain ⟨hhead, htail⟩ := List.cons.inj hys
          obtain ⟨hop, hfst⟩ := Prod.mk.inj hhead
          rw [hop, ihl hl hl' hfirst hxs, ihr hr hr' hfst.symm htail.symm]
        | cons x xs =>
          obtain ⟨hx, htail⟩ := List.cons.inj hys
          rw [← hx] at hxs
          exact (Table.Under.not_shifted hol hpr hxs htail).elim

/-- The operator at the root of the tree that the table allows: the loosest one, the last of
its level where that groups to the left and the first where it groups to the right. -/
theorem Table.Separated.exists_root {xs : List (ω × α)} (h : T.Separated (xs.map Prod.fst))
    (hne : xs ≠ []) : ∃ ys o b zs, xs = ys ++ (o, b) :: zs ∧
      (∀ p ∈ ys.map Prod.fst, T.Under .left o p) ∧ ∀ p ∈ zs.map Prod.fst, T.Under .right o p := by
  induction xs with
  | nil => exact absurd rfl hne
  | cons x xs ih =>
    obtain ⟨p, a⟩ := x
    by_cases hxs : xs = []
    · subst hxs
      exact ⟨[], p, a, [], rfl, by simp, by simp⟩
    · obtain ⟨ys, o, b, zs, hsplit, hys, hzs⟩ := ih h.tail hxs
      by_cases hleft : T.Under .left o p
      · refine ⟨(p, a) :: ys, o, b, zs, by rw [hsplit]; rfl, ?_, hzs⟩
        intro q hq
        rw [List.map_cons, List.mem_cons] at hq
        obtain rfl | hq := hq
        · exact hleft
        · exact hys q hq
      · refine ⟨[], p, a, xs, rfl, by simp, ?_⟩
        have hle : T.level p ≤ T.level o := by
          by_contra hlt
          exact hleft (Or.inl (by omega))
        have hright : T.level p = T.level o → T.assoc (T.level p) = .right := by
          intro heq
          cases hassoc : T.assoc (T.level p) with
          | right => rfl
          | left => exact absurd (Or.inr ⟨heq.symm, by rw [← heq]; exact hassoc⟩) hleft
          | none =>
            obtain ⟨q, hq, hlt⟩ := h [] p (ys.map Prod.fst) o (zs.map Prod.fst)
              (by simp [hsplit]) heq hassoc
            have := (hys q hq).le
            omega
        intro q hq
        have hoq : T.level o ≤ T.level q := by
          rw [hsplit, List.map_append, List.map_cons, List.mem_append, List.mem_cons] at hq
          obtain hq | rfl | hq := hq
          · exact (hys q hq).le
          · exact le_refl _
          · exact (hzs q hq).le
        by_cases heq : T.level p = T.level q
        · exact Or.inr ⟨heq, hright (by omega)⟩
        · exact Or.inl (by omega)

theorem Table.Separated.exists_tree {xs : List (ω × α)} (a : α)
    (h : T.Separated (xs.map Prod.fst)) :
    ∃ t : Tree ω α, t.Allowed T ∧ t.first = a ∧ t.rest = xs := by
  induction hlen : xs.length using Nat.strong_induction_on generalizing a xs with
  | _ n ih =>
    by_cases hxs : xs = []
    · subst hxs
      exact ⟨.leaf a, trivial, rfl, rfl⟩
    · obtain ⟨ys, o, b, zs, hsplit, hys, hzs⟩ := h.exists_root hxs
      subst hsplit
      rw [List.map_append, List.map_cons] at h
      have hsy : T.Separated (ys.map Prod.fst) := by
        refine Table.Separated.middle [] (o :: zs.map Prod.fst) ?_
        simpa using h
      have hsz : T.Separated (zs.map Prod.fst) := by
        refine Table.Separated.middle (ys.map Prod.fst ++ [o]) [] ?_
        simpa using h
      rw [List.length_append, List.length_cons] at hlen
      obtain ⟨l, hl, hlfirst, hlrest⟩ := ih ys.length (by omega) a hsy rfl
      obtain ⟨r, hr, hrfirst, hrrest⟩ := ih zs.length (by omega) b hsz rfl
      refine ⟨.node o l r, ⟨hl, hr, ?_, ?_⟩, hlfirst, ?_⟩
      · intro p hp
        exact hys p (by rw [← hlrest]; exact hp)
      · intro p hp
        exact hzs p (by rw [← hrrest]; exact hp)
      · rw [Tree.rest, hlrest, hrfirst, hrrest]

end

end Precedence
