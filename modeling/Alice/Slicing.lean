import Mathlib.Data.List.Basic

/-! # Cutting a range into consecutive slices

A policy says how long the next slice is.  If it never returns zero nor more
than what remains, the loop ends and its slices cover the range. -/

namespace Slicing

structure Slice where
  start : ℕ
  count : ℕ
  /-- Nothing remains after this slice. -/
  last : Bool
  deriving DecidableEq, Repr

def Slice.stop (slice : Slice) : ℕ :=
  slice.start + slice.count

/-- The loop, with a bound on the number of its rounds. -/
def cutFrom (size : ℕ → ℕ → ℕ) : ℕ → ℕ → ℕ → List Slice
  | 0, _, _ => []
  | fuel + 1, start, remaining =>
      if remaining = 0 then
        []
      else
        let count := size start remaining
        ⟨start, count, remaining == count⟩ :: cutFrom size fuel (start + count) (remaining - count)

def cut (size : ℕ → ℕ → ℕ) (start total : ℕ) : List Slice :=
  cutFrom size total start total

def endOf (slices : List Slice) : ℕ :=
  (slices.getLast?.map Slice.stop).getD 0

/-- The policy always makes progress and stays in the range. -/
def Progresses (size : ℕ → ℕ → ℕ) : Prop :=
  ∀ start remaining, 0 < remaining → 0 < size start remaining ∧ size start remaining ≤ remaining

/-- The slices are nonempty and lead from `start` to `stop`; exactly the last
one is marked. -/
inductive Consecutive (stop : ℕ) : ℕ → List Slice → Prop
  | nil : Consecutive stop stop []
  | cons {start count : ℕ} {rest : List Slice} (positive : 0 < count)
      (tail : Consecutive stop (start + count) rest) :
      Consecutive stop start (⟨start, count, rest.isEmpty⟩ :: rest)

variable {start fuel remaining : ℕ} {slices : List Slice} {size : ℕ → ℕ → ℕ}

theorem Consecutive.le {stop : ℕ} (consecutive : Consecutive stop start slices) : start ≤ stop := by
  induction consecutive with
  | nil => exact Nat.le_refl stop
  | cons _ _ ih => omega

theorem Consecutive.head_eq {stop : ℕ} {slice : Slice} {rest : List Slice}
    (consecutive : Consecutive stop start (slice :: rest)) :
    slice = ⟨start, slice.count, rest.isEmpty⟩ ∧ Consecutive stop (start + slice.count) rest := by
  cases consecutive with
  | cons _ tail => exact ⟨rfl, tail⟩

section

variable {stop : ℕ} (consecutive : Consecutive stop start slices)
include consecutive

theorem Consecutive.eq_nil_iff : slices = [] ↔ start = stop := by
  cases consecutive with
  | nil => simp
  | cons positive tail =>
    have below := tail.le
    simp only [reduceCtorEq, false_iff]
    omega

theorem Consecutive.endOf_eq (nonempty : start < stop) : endOf slices = stop := by
  induction consecutive with
  | nil => exact False.elim (Nat.lt_irrefl _ nonempty)
  | @cons start count rest positive tail ih =>
    cases rest with
    | nil =>
      have stopEq := tail.eq_nil_iff.1 rfl
      simp [endOf, Slice.stop, stopEq]
    | cons next rest =>
      have notAtStop : start + count ≠ stop := by
        intro atStop
        exact List.cons_ne_nil next rest (tail.eq_nil_iff.2 atStop)
      have before : start + count < stop := Nat.lt_of_le_of_ne tail.le notAtStop
      have tailEnd := ih before
      simpa only [endOf, List.getLast?_cons_cons] using tailEnd

theorem Consecutive.bounds : ∀ slice ∈ slices,
      start ≤ slice.start ∧ 0 < slice.count ∧ slice.stop ≤ stop := by
  induction consecutive with
  | nil => exact fun _ member => absurd member List.not_mem_nil
  | @cons start count rest positive tail ih =>
    rw [List.forall_mem_cons]
    refine ⟨⟨Nat.le_refl _, positive, tail.le⟩, ?_⟩
    intro slice member
    obtain ⟨behind, positive, inside⟩ := ih slice member
    exact ⟨by omega, positive, inside⟩

theorem Consecutive.pairwise : slices.Pairwise fun slice later => slice.stop ≤ later.start := by
  induction consecutive with
  | nil => exact .nil
  | cons _ tail ih => exact .cons (fun later member => (tail.bounds later member).1) ih

end

theorem Consecutive.last_of_concat {stop : ℕ} {front : List Slice} {slice : Slice}
    (consecutive : Consecutive stop start (front ++ [slice])) : slice.last = true := by
  induction front generalizing start with
  | nil => exact congrArg Slice.last consecutive.head_eq.1
  | cons _ _ ih => exact ih consecutive.head_eq.2

/-- The marked slice is the one at the end of the range. -/
theorem Consecutive.last_iff {stop : ℕ} (consecutive : Consecutive stop start slices) :
    ∀ slice ∈ slices, slice.last = true ↔ slice.stop = stop := by
  induction consecutive with
  | nil => exact fun _ member => absurd member List.not_mem_nil
  | @cons start count rest positive tail ih =>
    rw [List.forall_mem_cons]
    refine ⟨?_, ih⟩
    rw [List.isEmpty_iff]
    exact tail.eq_nil_iff

theorem Consecutive.exists_mem {stop : ℕ} (consecutive : Consecutive stop start slices)
    {position : ℕ} (behind : start ≤ position) (before : position < stop) :
    ∃ slice ∈ slices, slice.start ≤ position ∧ position < slice.stop := by
  induction consecutive with
  | nil => omega
  | @cons start count rest positive tail ih =>
    by_cases here : position < start + count
    · exact ⟨_, List.mem_cons_self, behind, here⟩
    · obtain ⟨slice, member, inside⟩ := ih (Nat.le_of_not_lt here)
      exact ⟨slice, List.mem_cons_of_mem _ member, inside⟩

theorem cutFrom_consecutive (progresses : Progresses size) (enough : remaining ≤ fuel) :
    Consecutive (start + remaining) start (cutFrom size fuel start remaining) := by
  induction fuel generalizing start remaining with
  | zero =>
    have none : remaining = 0 := Nat.le_zero.1 enough
    subst none
    exact .nil
  | succ fuel ih =>
    rw [cutFrom]
    by_cases none : remaining = 0
    · subst none
      exact .nil
    · rw [if_neg none]
      obtain ⟨positive, inside⟩ := progresses start remaining (Nat.pos_of_ne_zero none)
      have stopEq : start + size start remaining + (remaining - size start remaining) =
            start + remaining := by
        omega
      have fits : remaining - size start remaining ≤ fuel := by omega
      have tail : Consecutive (start + remaining) (start + size start remaining)
            (cutFrom size fuel (start + size start remaining)
              (remaining - size start remaining)) := stopEq ▸ ih fits
      have lastEq : (remaining == size start remaining) =
            (cutFrom size fuel (start + size start remaining)
              (remaining - size start remaining)).isEmpty := by
        rw [Bool.eq_iff_iff, List.isEmpty_iff, tail.eq_nil_iff, beq_iff_eq]
        omega
      simp only [lastEq]
      exact .cons positive tail

/-- More rounds than there are bytes change nothing. -/
theorem cutFrom_of_le (progresses : Progresses size) {more : ℕ} (enough : remaining ≤ fuel)
    (le : fuel ≤ more) : cutFrom size more start remaining = cutFrom size fuel start remaining := by
  induction fuel generalizing more start remaining with
  | zero =>
    obtain rfl := Nat.le_zero.1 enough
    cases more <;> rfl
  | succ fuel ih =>
    obtain ⟨more, rfl⟩ := Nat.exists_eq_add_of_lt le
    rw [cutFrom, cutFrom]
    by_cases none : remaining = 0
    · rw [if_pos none, if_pos none]
    · obtain ⟨positive, inside⟩ := progresses start remaining (Nat.pos_of_ne_zero none)
      simp only
      rw [ih (by omega) (by omega)]

/-- A property of what is left to cut, kept from one slice to the next, gives
one of the slices. -/
theorem forall_mem_cutFrom
    {size : ℕ → ℕ → ℕ} {Left : ℕ → ℕ → Prop} {Good : Slice → Prop}
    (step : ∀ start remaining, Left start remaining → 0 < remaining →
      Good ⟨start, size start remaining, remaining == size start remaining⟩ ∧
        (size start remaining < remaining → Left (start + size start remaining)
            (remaining - size start remaining)))
    {fuel start remaining : ℕ} (first : Left start remaining) :
    ∀ slice ∈ cutFrom size fuel start remaining, Good slice := by
  induction fuel generalizing start remaining with
  | zero => exact fun _ member => absurd member List.not_mem_nil
  | succ fuel ih =>
    rw [cutFrom]
    by_cases none : remaining = 0
    · rw [if_pos none]
      exact fun _ member => absurd member List.not_mem_nil
    · obtain ⟨good, next⟩ := step start remaining first (Nat.pos_of_ne_zero none)
      rw [if_neg none, List.forall_mem_cons]
      refine ⟨good, ?_⟩
      by_cases less : size start remaining < remaining
      · exact ih (next less)
      · rw [Nat.sub_eq_zero_of_le (Nat.le_of_not_lt less)]
        cases fuel <;> exact fun _ member => absurd member List.not_mem_nil

/-- Slices of `part` bytes, the last one apart: there are not more than fill
the range. -/
theorem length_cutFrom_le {part : ℕ}
    (parts : ∀ start remaining, size start remaining = min part remaining) {bound : ℕ}
    (fits : remaining ≤ bound * part) : (cutFrom size fuel start remaining).length ≤ bound := by
  induction fuel generalizing start remaining bound with
  | zero => exact Nat.zero_le _
  | succ fuel ih =>
    rw [cutFrom]
    by_cases none : remaining = 0
    · rw [if_pos none]
      exact Nat.zero_le _
    · rw [if_neg none]
      cases bound with
      | zero => omega
      | succ bound =>
        rw [Nat.succ_mul] at fits
        refine Nat.succ_le_succ (ih ?_)
        rw [parts]
        omega

theorem cut_consecutive (progresses : Progresses size) (start total : ℕ) :
    Consecutive (start + total) start (cut size start total) :=
  cutFrom_consecutive progresses (Nat.le_refl total)

end Slicing
