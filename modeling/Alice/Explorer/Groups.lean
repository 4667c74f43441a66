import Alice.Explorer.Ordering

/-! # The groups that are reported

The outer and the inner loop over the exit codes move the same index on: the
inner one stops at the end of a run of failing states, and the outer goes on
behind it. -/

namespace Alice

namespace AcrossPhase

variable {count : ℕ} {outputs : ℕ → ℤ}

/-- A run of failing states that is part of no longer one. -/
structure MaximalRun (count : ℕ) (outputs : ℕ → ℤ) (run : ℕ × ℕ) : Prop where
  le : run.1 ≤ run.2
  failing : ∀ k, run.1 ≤ k → k ≤ run.2 → Failing count outputs k
  first : ∀ l, l + 1 = run.1 → outputs l = 0
  last : ¬ Failing count outputs (run.2 + 1)

theorem MaximalRun.eq_of_meets {run run' : ℕ × ℕ} (maximal : MaximalRun count outputs run)
    (maximal' : MaximalRun count outputs run') (starts : run.1 ≤ run'.2) (ends : run'.1 ≤ run.2) :
    run = run' := by
  have firstLe : ∀ {run run'}, MaximalRun count outputs run →
      MaximalRun count outputs run' → run'.1 ≤ run.2 → run.1 ≤ run'.2 → run.1 ≤ run'.1 := by
    intro run run' maximal maximal' ends starts
    by_contra later
    have passes := maximal.first (run.1 - 1) (by omega)
    have fails := maximal'.failing (run.1 - 1) (by omega) (by omega)
    exact fails.2 passes
  have lastLe : ∀ {run run'}, MaximalRun count outputs run →
      MaximalRun count outputs run' → run'.1 ≤ run.2 → run.2 ≤ run'.2 → run'.2 ≤ run.2 := by
    intro run run' maximal maximal' ends starts
    by_contra later
    exact maximal.last (maximal'.failing (run.2 + 1) (by omega) (by omega))
  have sameFirst : run.1 = run'.1 := Nat.le_antisymm (firstLe maximal maximal' ends starts)
      (firstLe maximal' maximal starts ends)
  have sameLast : run.2 = run'.2 := by
    rcases Nat.le_total run.2 run'.2 with before | after
    · exact Nat.le_antisymm before (lastLe maximal maximal' ends before)
    · exact Nat.le_antisymm (lastLe maximal' maximal starts after) after
  exact Prod.ext sameFirst sameLast

/-- The operations named for a run: its first one, and the one behind it if
there is one. -/
def patchOf (count : ℕ) (run : ℕ × ℕ) : ℕ × ℕ :=
  (run.1, min (run.2 + 1) (count - 1))

/-- The pairs are those of all maximal runs before a bound, in order. -/
def ReportsRuns (count : ℕ) (outputs : ℕ → ℤ) (bound : ℕ) (patches : List (ℕ × ℕ)) : Prop :=
  ∃ runs : List (ℕ × ℕ),
    runs.Pairwise (fun before after => before.2 < after.1) ∧
    (∀ run, run ∈ runs ↔ MaximalRun count outputs run ∧ run.2 < bound) ∧
    patches = runs.map (patchOf count)

/-- What has been printed at the head of the outer loop. -/
structure Printed (count : ℕ) (outputs : ℕ → ℤ) (phase : AcrossPhase) : Prop where
  /-- No run is cut by the index. -/
  between : Failing count outputs phase.i → ∀ l, l + 1 = phase.i → outputs l = 0
  reports : ReportsRuns count outputs phase.i phase.patches
  warned : phase.warned = true ↔ ∃ last, last + 1 = count ∧ last < phase.i ∧ outputs last ≠ 0

theorem printed_start : Printed count outputs start where
  between _ l equal := absurd equal (Nat.succ_ne_zero l)
  reports := ⟨[], List.Pairwise.nil, by simp [start], rfl⟩
  warned := by simp [start]

variable {phase : AcrossPhase}

theorem Printed.step_of_passing (printed : Printed count outputs phase)
    (passes : outputs phase.i = 0) : Printed count outputs (phase.step count outputs) := by
  obtain ⟨runs, inOrder, mem_iff, isPatches⟩ := printed.reports
  rw [AcrossPhase.step_of_passing passes]
  refine ⟨?_, ⟨runs, inOrder, ?_, isPatches⟩, ?_⟩
  · intro _ l equal
    exact Nat.succ.inj equal ▸ passes
  · intro run
    rw [mem_iff]
    refine and_congr_right fun maximal => ⟨Nat.lt_succ_of_lt, fun before => ?_⟩
    have notHere : run.2 ≠ phase.i := fun equal =>
      (maximal.failing run.2 maximal.le le_rfl).2 (equal ▸ passes)
    exact lt_of_le_of_ne (Nat.lt_succ_iff.1 before) notHere
  · rw [printed.warned]
    constructor
    · rintro ⟨last, isLast, before, fails⟩
      exact ⟨last, isLast, Nat.lt_succ_of_lt before, fails⟩
    · rintro ⟨last, isLast, before, fails⟩
      have notHere : last ≠ phase.i := fun equal => fails (equal ▸ passes)
      exact ⟨last, isLast, lt_of_le_of_ne (Nat.lt_succ_iff.1 before) notHere, fails⟩

theorem Printed.step_of_failing (printed : Printed count outputs phase)
    (fails : Failing count outputs phase.i) : Printed count outputs (phase.step count outputs) := by
  obtain ⟨runs, inOrder, mem_iff, isPatches⟩ := printed.reports
  obtain ⟨last, middle, extended, ended, failing, equation⟩ := AcrossPhase.step_of_failing fails
  have startsBefore : phase.i ≤ last := extended.le
  have inside : last < count := (failing last startsBefore le_rfl).1
  have maximal : MaximalRun count outputs (phase.i, last) :=
    ⟨startsBefore, failing, printed.between fails, ended⟩
  rw [equation]
  refine ⟨fun next => absurd next ended, ⟨runs ++ [(phase.i, last)], ?_, ?_, ?_⟩, ?_⟩
  · refine List.pairwise_append.2
      ⟨inOrder, List.pairwise_singleton _ _, fun run member run' isNew => ?_⟩
    obtain rfl := List.mem_singleton.1 isNew
    exact ((mem_iff run).1 member).2
  · intro run
    rw [List.mem_append, mem_iff, List.mem_singleton]
    constructor
    · rintro (⟨isMaximal, before⟩ | rfl)
      · exact ⟨isMaximal, by simp only; omega⟩
      · exact ⟨maximal, Nat.lt_succ_self last⟩
    · rintro ⟨isMaximal, before⟩
      simp only at before
      by_cases early : run.2 < phase.i
      · exact Or.inl ⟨isMaximal, early⟩
      · -- The run reaches the index, so it is the one just found.
        have starts : run.1 ≤ last := by
          have := isMaximal.le
          omega
        exact Or.inr (isMaximal.eq_of_meets maximal starts (not_lt.1 early))
  · have isPatch : (if count ≤ last + 1 then count - 1 else last + 1) =
        min (last + 1) (count - 1) := by
      split_ifs <;> omega
    rw [isPatches, isPatch, List.map_append]
    rfl
  · rw [Bool.or_eq_true, printed.warned, decide_eq_true_eq]
    constructor
    · rintro (⟨before, isLast, early, failsLast⟩ | atEnd)
      · exact ⟨before, isLast, by simp only; omega, failsLast⟩
      · exact ⟨last, by omega, Nat.lt_succ_self last, (failing last startsBefore le_rfl).2⟩
    · rintro ⟨final, isLast, before, -⟩
      exact Or.inr (isLast ▸ before)

theorem Printed.step (printed : Printed count outputs phase) (inside : phase.i < count) :
    Printed count outputs (phase.step count outputs) := by
  by_cases passes : outputs phase.i = 0
  · exact printed.step_of_passing passes
  · exact printed.step_of_failing ⟨inside, passes⟩

end AcrossPhase

open AcrossPhase

/-- The loop ends by its own test.  It has printed one pair for every maximal
run of failing states, in their order, and the warning if the last state
fails. -/
theorem acrossSyscall_reports_runs (count : ℕ) (outputs : ℕ → ℤ) :
    count ≤ (acrossSyscall count outputs).i ∧
      ReportsRuns count outputs count (acrossSyscall count outputs).patches ∧
      ((acrossSyscall count outputs).warned = true ↔
        ∃ last, last + 1 = count ∧ outputs last ≠ 0) := by
  obtain ⟨printed, ended⟩ := run_invariant (Printed count outputs)
      (fun _ inside printed => printed.step inside) count
      AcrossPhase.start (Nat.le_add_left count 0) printed_start
  obtain ⟨runs, inOrder, mem_iff, isPatches⟩ := printed.reports
  refine ⟨ended, ⟨runs, inOrder, ?_, isPatches⟩, ?_⟩
  · intro run
    rw [mem_iff]
    refine and_congr_right fun maximal => ?_
    have inside := (maximal.failing run.2 maximal.le le_rfl).1
    exact iff_of_true (inside.trans_le ended) inside
  · refine printed.warned.trans ?_
    constructor
    · rintro ⟨last, isLast, -, fails⟩
      exact ⟨last, isLast, fails⟩
    · rintro ⟨last, isLast, fails⟩
      exact ⟨last, isLast, by omega, fails⟩

end Alice
