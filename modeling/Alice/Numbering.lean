import Mathlib.Algebra.BigOperators.Group.List.Basic
import Mathlib.Algebra.GroupWithZero.Nat
import Mathlib.Data.List.GetD

/-! # Numbering the elements of lists of lists

Numbers in the concatenation and pairs of coordinates are inverse to one
another and have the same order, also if some lists are empty. -/

namespace Numbering

/-- The number of the element at place `j` of list `i`. -/
def number (lengths : List ℕ) (i j : ℕ) : ℕ :=
  (lengths.take i).sum + j

/-- The coordinates of an element, by counting through the lists. -/
def locate : List ℕ → ℕ → Option (ℕ × ℕ)
  | [], _ => none
  | length :: rest, n =>
      if n < length then
        some (0, n)
      else
        (locate rest (n - length)).map fun place => (place.1 + 1, place.2)

def Holds (lengths : List ℕ) (i j : ℕ) : Prop :=
  j < lengths.getD i 0

section

variable {lengths : List ℕ} {length i j k l n : ℕ}

@[simp]
theorem number_cons_succ : number (length :: lengths) (i + 1) j = length + number lengths i j := by
  simp [number, Nat.add_assoc]

@[simp]
theorem number_zero : number lengths 0 j = j := by
  simp [number]

theorem locate_number (holds : Holds lengths i j) :
    locate lengths (number lengths i j) = some (i, j) := by
  induction lengths generalizing i with
  | nil => exact absurd holds (Nat.not_lt_zero j)
  | cons length rest ih =>
    cases i with
    | zero =>
      rw [number_zero, locate]
      exact if_pos holds
    | succ i =>
      rw [number_cons_succ, locate, if_neg (by omega), Nat.add_sub_cancel_left, ih holds]
      rfl

theorem exists_locate (inside : n < lengths.sum) :
    ∃ i j, locate lengths n = some (i, j) ∧ Holds lengths i j ∧ number lengths i j = n := by
  induction lengths generalizing n with
  | nil => exact absurd inside (Nat.not_lt_zero n)
  | cons length rest ih =>
    rw [locate]
    by_cases here : n < length
    · exact ⟨0, n, if_pos here, here, number_zero⟩
    · rw [List.sum_cons] at inside
      obtain ⟨i, j, located, holds, isNumber⟩ := @ih (n - length) (by omega)
      refine ⟨i + 1, j, ?_, holds, ?_⟩
      · rw [if_neg here, located]
        rfl
      · rw [number_cons_succ, isNumber]
        omega

theorem number_le_sum_take (le : l ≤ lengths.getD k 0) (before : k < i) :
    number lengths k l ≤ (lengths.take i).sum := by
  induction lengths generalizing i k with
  | nil =>
    obtain rfl := Nat.le_zero.1 le
    simp [number]
  | cons length rest ih =>
    obtain ⟨i, rfl⟩ := Nat.exists_eq_succ_of_ne_zero (by omega : i ≠ 0)
    cases k with
    | zero =>
      rw [number_zero]
      exact Nat.le_add_right_of_le le
    | succ k =>
      rw [number_cons_succ]
      exact Nat.add_le_add_left (ih le (Nat.lt_of_succ_lt_succ before)) length

/-- The order of the numbers is the lexicographic one of the coordinates.  The
second ones may be those of the end of a list. -/
theorem number_lt_number_iff (holds : Holds lengths i j) (le : l ≤ lengths.getD k 0) :
    number lengths i j < number lengths k l ↔ i < k ∨ i = k ∧ j < l := by
  rcases Nat.lt_trichotomy i k with before | rfl | behind
  · have earlier := number_le_sum_take (Nat.succ_le_of_lt holds) before
    simp only [number] at earlier ⊢
    omega
  · simp [number]
  · have earlier := number_le_sum_take le behind
    simp only [number] at earlier ⊢
    omega

end

theorem getElem?_flatten_number {α : Type*} {lists : List (List α)} {list : List α} {i j : ℕ}
    (isList : lists[i]? = some list) (inside : j < list.length) :
    lists.flatten[number (lists.map List.length) i j]? = list[j]? := by
  induction lists generalizing i with
  | nil => cases isList
  | cons first rest ih =>
    cases i with
    | zero =>
      obtain rfl := Option.some.inj isList
      rw [number_zero, List.flatten_cons, List.getElem?_append_left inside]
    | succ i =>
      rw [List.map_cons, number_cons_succ, List.flatten_cons,
        List.getElem?_append_right (Nat.le_add_right _ _), Nat.add_sub_cancel_left]
      exact ih isList

end Numbering
