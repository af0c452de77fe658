import Mathlib.Data.List.Basic
import Mathlib.Algebra.GroupWithZero.Nat
import Mathlib.Algebra.Order.BigOperators.Group.List

/-!
# Offsets into a sequence

The elements of a sequence take up room, each at least one unit; an offset counts units from
the front. Not every offset stands between two elements, and a table of offsets in rising
order is searched for the last one that a given offset has reached.
-/
namespace Offsets

section
variable {α : Type} (size : α → ℕ)

/-- The room that a sequence takes up. -/
def extent (xs : List α) : ℕ := (xs.map size).sum

@[simp] theorem extent_nil : extent size [] = 0 := rfl

@[simp] theorem extent_cons (x : α) (xs : List α) :
    extent size (x :: xs) = size x + extent size xs := by
  simp [extent]

@[simp] theorem extent_append (xs ys : List α) :
    extent size (xs ++ ys) = extent size xs + extent size ys := by
  simp [extent]

/-- The two sides of an offset that stands between two elements or at an end. -/
def cut : List α → ℕ → Option (List α × List α)
  | xs, 0 => some ([], xs)
  | [], _ + 1 => none
  | x :: xs, n + 1 =>
    if size x ≤ n + 1 then (cut xs (n + 1 - size x)).map fun sides => (x :: sides.1, sides.2)
    else none

variable {size}

theorem extent_eq_zero (hsize : ∀ x, 0 < size x) {xs : List α} (h : extent size xs = 0) :
    xs = [] := by
  cases xs with
  | nil => rfl
  | cons x xs =>
    have hx := hsize x
    rw [extent_cons] at h
    omega

theorem cut_eq_some (hsize : ∀ x, 0 < size x) {xs a b : List α} {n : ℕ} :
    cut size xs n = some (a, b) ↔ xs = a ++ b ∧ extent size a = n := by
  induction xs generalizing n a with
  | nil =>
    cases n with
    | zero =>
      rw [cut]
      refine ⟨?_, ?_⟩
      · rintro ⟨⟩
        exact ⟨rfl, rfl⟩
      · rintro ⟨happend, -⟩
        obtain ⟨rfl, rfl⟩ := List.append_eq_nil_iff.mp happend.symm
        rfl
    | succ n =>
      refine ⟨(fun h => by cases h), ?_⟩
      rintro ⟨happend, hextent⟩
      obtain ⟨rfl, rfl⟩ := List.append_eq_nil_iff.mp happend.symm
      cases hextent
  | cons x xs ih =>
    cases n with
    | zero =>
      rw [cut]
      refine ⟨?_, ?_⟩
      · rintro ⟨⟩
        exact ⟨rfl, rfl⟩
      · rintro ⟨happend, hextent⟩
        obtain rfl := extent_eq_zero hsize hextent
        rw [happend]
        rfl
    | succ n =>
      rw [cut]
      by_cases hfits : size x ≤ n + 1
      · rw [if_pos hfits, Option.map_eq_some_iff]
        refine ⟨?_, ?_⟩
        · rintro ⟨⟨a', b'⟩, hcut, heq⟩
          cases heq
          obtain ⟨rfl, hextent⟩ := ih.mp hcut
          refine ⟨rfl, ?_⟩
          rw [extent_cons, hextent]
          omega
        · rintro ⟨happend, hextent⟩
          cases a with
          | nil => cases hextent
          | cons y a =>
            obtain ⟨rfl, rfl⟩ := List.cons.inj happend
            rw [extent_cons] at hextent
            exact ⟨(a, b), ih.mpr ⟨rfl, by omega⟩, rfl⟩
      · rw [if_neg hfits]
        refine ⟨(fun h => by cases h), ?_⟩
        rintro ⟨happend, hextent⟩
        cases a with
        | nil => cases hextent
        | cons y a =>
          obtain ⟨rfl, rfl⟩ := List.cons.inj happend
          rw [extent_cons] at hextent
          omega

theorem cut_prefix (hsize : ∀ x, 0 < size x) {a b a' b' : List α} (h : a ++ b = a' ++ b')
    (hle : extent size a ≤ extent size a') : ∃ between, a' = a ++ between := by
  rcases List.append_eq_append_iff.mp h with ⟨between, rfl, -⟩ | ⟨between, rfl, -⟩
  · exact ⟨between, rfl⟩
  · rw [extent_append] at hle
    have hempty : between = [] := extent_eq_zero hsize (by omega)
    subst hempty
    exact ⟨[], by simp⟩

end

section
variable {table : List ℕ}

theorem getElem_le_iff (h : table.Pairwise (· < ·)) (offset : ℕ) {i : ℕ} (hi : i < table.length) :
    table[i] ≤ offset ↔ i < table.countP (· ≤ offset) := by
  induction table generalizing i with
  | nil => exact absurd hi (Nat.not_lt_zero i)
  | cons entry table ih =>
    obtain ⟨hfirst, hrest⟩ := List.pairwise_cons.mp h
    by_cases hle : entry ≤ offset
    · rw [List.countP_cons_of_pos (by simpa using hle)]
      cases i with
      | zero => simpa using hle
      | succ i =>
        rw [List.getElem_cons_succ, ih hrest]
        omega
    · have hnone : table.countP (· ≤ offset) = 0 := by
        refine List.countP_eq_zero.mpr ?_
        intro later hlater
        have := hfirst later hlater
        simp only [decide_eq_true_eq]
        omega
      rw [List.countP_cons_of_neg (by simpa using hle), hnone]
      cases i with
      | zero => simpa using hle
      | succ i =>
        have hi : i < table.length := Nat.lt_of_succ_lt_succ hi
        have hlater : entry < table[i] := hfirst _ (List.getElem_mem _)
        rw [List.getElem_cons_succ]
        omega

/-- The index of an entry equal to the offset, or the index one would be put in at. -/
def binarySearch (table : List ℕ) (offset : ℕ) : Except ℕ ℕ :=
  match table.idxOf? offset with
  | some i => .ok i
  | none => .error (table.countP (· < offset))

theorem binarySearch_eq (h : table.Pairwise (· < ·)) (offset : ℕ) :
    (∃ i, binarySearch table offset = .ok i ∧ table.countP (· ≤ offset) = i + 1) ∨
      binarySearch table offset = .error (table.countP (· ≤ offset)) := by
  unfold binarySearch
  cases hfound : table.idxOf? offset with
  | some i =>
    refine Or.inl ⟨i, rfl, ?_⟩
    obtain ⟨hi, hentry⟩ : ∃ hi : i < table.length, table[i] = offset := by
      obtain ⟨hi, hentry, -⟩ := List.findIdx?_eq_some_iff_getElem.mp hfound
      exact ⟨hi, by simpa using hentry⟩
    have hreached : i < table.countP (· ≤ offset) := (getElem_le_iff h offset hi).mp hentry.le
    have hlast : ¬i + 1 < table.countP (· ≤ offset) := by
      intro hmore
      have hlt : i + 1 < table.length := hmore.trans_le List.countP_le_length
      have hle := (getElem_le_iff h offset hlt).mpr hmore
      have := List.pairwise_iff_getElem.mp h i (i + 1) hi hlt (Nat.lt_succ_self i)
      omega
    omega
  | none =>
    refine Or.inr ?_
    have habsent : offset ∉ table := by simpa using hfound
    refine congrArg Except.error (List.countP_congr ?_)
    intro entry hentry
    have hne : entry ≠ offset := fun heq => habsent (heq ▸ hentry)
    simp only [decide_eq_true_eq]
    omega

end

end Offsets
