import Alice.Checked
import Alice.Explorer.Atomicity

/-! # `default_checks`: across-syscall atomicity and ordering

The first phase reports each run of failing states as a group of operations
and fills `atomic_patch_middle`, by which the second passes over operations.
The inner loop enters its index before it moves it on, so the last index of a
run is entered only if it is also the first. -/

namespace Alice

/-! ## The across-syscall loop -/

/-- The variables of the loop, the pairs it has printed, and whether it has
printed the warning. -/
structure AcrossPhase where
  i : ℕ
  atomicPatchMiddle : Finset ℕ
  patches : List (ℕ × ℕ)
  warned : Bool
  deriving DecidableEq

namespace AcrossPhase

/-- The inner loop.  `remaining` is `mops_len() - 1 - i`. -/
def extendPatch (outputs : ℕ → ℤ) : (remaining i : ℕ) → Finset ℕ → ℕ × Finset ℕ
  | 0, i, middle => (i, middle)
  | remaining + 1, i, middle =>
      if outputs (i + 1) ≠ 0 then
        extendPatch outputs remaining (i + 1) (insert i middle)
      else
        (i, middle)

/-- The body of the outer loop, where `count` is `mops_len()`. -/
def step (count : ℕ) (outputs : ℕ → ℤ) (phase : AcrossPhase) : AcrossPhase :=
  if outputs phase.i ≠ 0 then
    let extended := extendPatch outputs (count - 1 - phase.i) phase.i
      (insert phase.i phase.atomicPatchMiddle)
    let patchEnd := extended.1 + 1
    { i := extended.1 + 1
      atomicPatchMiddle := extended.2
      patches := phase.patches ++ [(phase.i, if count ≤ patchEnd then count - 1 else patchEnd)]
      warned := phase.warned || decide (count ≤ patchEnd) }
  else
    { phase with i := phase.i + 1 }

def run (count : ℕ) (outputs : ℕ → ℤ) : ℕ → AcrossPhase → AcrossPhase
  | 0, phase => phase
  | fuel + 1, phase =>
      if phase.i < count then
        run count outputs fuel (step count outputs phase)
      else
        phase

def start : AcrossPhase :=
  ⟨0, ∅, [], false⟩

end AcrossPhase

/-- The loop over the exit codes of the first phase.  Every round moves the
index on, so `count` rounds are enough. -/
def acrossSyscall (count : ℕ) (outputs : ℕ → ℤ) : AcrossPhase :=
  AcrossPhase.run count outputs count AcrossPhase.start

/-! ## The ordering phase -/

/-- What the loops of the ordering phase do to the replayer. -/
inductive OrderingCall where
  /-- `dops_omit((i, k))`. -/
  | dopsOmit (i k : ℕ)
  /-- End at the last disk operation of `j` and enqueue `(i, j)` if this is
  legal. -/
  | check (i j last : ℕ)
  /-- `dops_include((i, k))`. -/
  | dopsInclude (i k : ℕ)
  deriving DecidableEq, Repr

namespace Replayer

/-- `dops_len(i)` for an operation that exists. -/
def dopsCount (replayer : Replayer) (i : ℕ) : ℕ :=
  match replayer.microOps[i]? with
  | some state => state.diskOps.length
  | none => 0

end Replayer

/-- The loop over `j`, for the omitted operation `i`. -/
def orderingEnds (replayer : Replayer) (patch : Finset ℕ) (i : ℕ) : List OrderingCall :=
  (List.range' (i + 1) (replayer.microOps.length - (i + 1))).flatMap fun j =>
    if replayer.dopsCount j = 0 ∨ j ∈ patch then
      []
    else
      [.check i j (replayer.dopsCount j - 1)]

/-- What the ordering phase does, in this order.  The numbers of disk
operations that the loops look at do not change. -/
def orderingCalls (replayer : Replayer) (patch : Finset ℕ) : List OrderingCall :=
  (List.range replayer.microOps.length).flatMap fun i =>
    if replayer.dopsCount i = 0 ∨ AtomicityPhase.Skipped patch i then
      []
    else
      (List.range (replayer.dopsCount i)).map (OrderingCall.dopsOmit i) ++
        orderingEnds replayer patch i ++
          (List.range (replayer.dopsCount i)).map (OrderingCall.dopsInclude i)

/-- The replayer, and the pairs given to `check_later`. -/
structure OrderingPhase where
  replayer : Replayer
  queue : List (ℕ × ℕ)

namespace OrderingPhase

def runCall (env : ExplorerEnv) (phase : OrderingPhase) :
    OrderingCall → Except PyError OrderingPhase
  | .dopsOmit i k =>
      (phase.replayer.dopsOmit i k).map fun replayer =>
        { phase with replayer := replayer }
  | .check i j last => do
      let ended := phase.replayer.dopsEndAt j last
      if ← ended.isLegal then
        let _ ← ended.constructCrashedDir env.replayEnv none
        pure ⟨ended, phase.queue ++ [(i, j)]⟩
      else
        pure { phase with replayer := ended }
  | .dopsInclude i k =>
      (phase.replayer.dopsInclude i k).map fun replayer =>
        { phase with replayer := replayer }

/-- The loops of the ordering phase, from the replayer that `load(0)`
brings back. -/
def enqueue (env : ExplorerEnv) (replayer : Replayer) (patch : Finset ℕ) :
    Except PyError OrderingPhase :=
  (orderingCalls replayer patch).foldlM (runCall env) ⟨replayer, []⟩

end OrderingPhase

/-! ## Runs of failing states -/

namespace AcrossPhase

variable {count : ℕ} {outputs : ℕ → ℤ}

/-- What the inner loop finds: the run goes on to `last` and no further, and
every index but the last has been entered. -/
structure Extended (outputs : ℕ → ℤ) (remaining i : ℕ) (middle : Finset ℕ)
    (found : ℕ × Finset ℕ) : Prop where
  le : i ≤ found.1
  bounded : found.1 ≤ i + remaining
  failing : ∀ k, i < k → k ≤ found.1 → outputs k ≠ 0
  maximal : found.1 = i + remaining ∨ outputs (found.1 + 1) = 0
  mem_iff : ∀ k, k ∈ found.2 ↔ k ∈ middle ∨ i ≤ k ∧ k < found.1

theorem extended_extendPatch (outputs : ℕ → ℤ) (remaining i : ℕ) (middle : Finset ℕ) :
    Extended outputs remaining i middle (extendPatch outputs remaining i middle) := by
  induction remaining generalizing i middle with
  | zero =>
    refine ⟨le_rfl, le_rfl, ?_, Or.inl rfl, ?_⟩
    · intro k after before
      exact absurd before (not_le.2 after)
    · intro k
      constructor
      · exact Or.inl
      · rintro (member | ⟨after, before⟩)
        · exact member
        · exact absurd before (not_lt.2 after)
  | succ remaining ih =>
    by_cases fails : outputs (i + 1) ≠ 0
    · rw [extendPatch, if_pos fails]
      have rest := ih (i + 1) (insert i middle)
      have later := rest.le
      have inside := rest.bounded
      refine ⟨by omega, by omega, ?_, ?_, ?_⟩
      · intro k after before
        rcases Nat.lt_or_eq_of_le (Nat.succ_le_of_lt after) with
          further | equal
        · exact rest.failing k further before
        · exact equal ▸ fails
      · rcases rest.maximal with ends | passes
        · exact Or.inl (by omega)
        · exact Or.inr passes
      · intro k
        rw [rest.mem_iff, Finset.mem_insert]
        constructor
        · rintro ((equal | member) | between)
          · exact Or.inr (by omega)
          · exact Or.inl member
          · exact Or.inr (by omega)
        · rintro (member | between)
          · exact Or.inl (Or.inr member)
          · by_cases equal : k = i
            · exact Or.inl (Or.inl equal)
            · exact Or.inr (by omega)
    · rw [extendPatch, if_neg fails]
      refine ⟨le_rfl, by omega, ?_, Or.inr (not_not.1 fails), ?_⟩
      · intro k after before
        exact absurd before (not_le.2 after)
      · intro k
        constructor
        · exact Or.inl
        · rintro (member | ⟨after, before⟩)
          · exact member
          · exact absurd before (not_lt.2 after)

def Failing (count : ℕ) (outputs : ℕ → ℤ) (k : ℕ) : Prop :=
  k < count ∧ outputs k ≠ 0

/-- A failing index that has a failing neighbour above, or none below. -/
def Entered (count : ℕ) (outputs : ℕ → ℤ) (k : ℕ) : Prop :=
  Failing count outputs k ∧ (Failing count outputs (k + 1) ∨ ∀ l, l + 1 = k → outputs l = 0)

/-- What holds at the head of the outer loop. -/
structure Invariant (count : ℕ) (outputs : ℕ → ℤ) (phase : AcrossPhase) : Prop where
  /-- No run is cut by the index. -/
  between : Failing count outputs phase.i → ∀ l, l + 1 = phase.i → outputs l = 0
  mem_iff : ∀ k, k ∈ phase.atomicPatchMiddle ↔ k < phase.i ∧ Entered count outputs k
  /-- A reported group holds failing indices and the index after them. -/
  patch : ∀ reported ∈ phase.patches, ∀ k, reported.1 ≤ k → k ≤ reported.2 →
    Failing count outputs k ∨ ∃ l, l + 1 = k ∧ Failing count outputs l

theorem invariant_start : Invariant count outputs start where
  between _ l equal := absurd equal (Nat.succ_ne_zero l)
  mem_iff k := by simp [start]
  patch := by simp [start]

variable {phase : AcrossPhase}

theorem step_of_passing (passes : outputs phase.i = 0) :
    step count outputs phase = { phase with i := phase.i + 1 } := by
  rw [step, if_neg (not_not.2 passes)]

/-- One round over a failing run: `last` is the end of the run. -/
theorem step_of_failing (fails : Failing count outputs phase.i) : ∃ last middle,
      Extended outputs (count - 1 - phase.i) phase.i
        (insert phase.i phase.atomicPatchMiddle) (last, middle) ∧
      ¬ Failing count outputs (last + 1) ∧ (∀ k, phase.i ≤ k → k ≤ last → Failing count outputs k) ∧
      step count outputs phase = ⟨last + 1, middle, phase.patches ++ [(phase.i,
            if count ≤ last + 1 then count - 1 else last + 1)],
          phase.warned || decide (count ≤ last + 1)⟩ := by
  have extended := extended_extendPatch outputs (count - 1 - phase.i) phase.i
    (insert phase.i phase.atomicPatchMiddle)
  have inside := fails.1
  have bounded := extended.bounded
  refine ⟨_, _, extended, ?_, ?_, ?_⟩
  · rintro ⟨before, failsNext⟩
    rcases extended.maximal with ends | passes
    · omega
    · exact failsNext passes
  · intro k after before
    refine ⟨by omega, ?_⟩
    rcases Nat.lt_or_eq_of_le after with later | equal
    · exact extended.failing k later before
    · exact equal ▸ fails.2
  · rw [step, if_pos fails.2]

section

variable (invariant : Invariant count outputs phase)
include invariant

theorem Invariant.step_of_passing (passes : outputs phase.i = 0)
    : Invariant count outputs (phase.step count outputs) := by
  rw [AcrossPhase.step_of_passing passes]
  refine ⟨?_, ?_, invariant.patch⟩
  · intro _ l equal
    exact Nat.succ.inj equal ▸ passes
  · intro k
    rw [invariant.mem_iff]
    constructor
    · intro entered
      exact ⟨Nat.lt_succ_of_lt entered.1, entered.2⟩
    · intro entered
      have different : k ≠ phase.i := fun equal => entered.2.1.2 (equal ▸ passes)
      exact ⟨lt_of_le_of_ne (Nat.lt_succ_iff.1 entered.1) different, entered.2⟩

theorem Invariant.mem_iff_of_extended {remaining last : ℕ} {middle : Finset ℕ}
    (extended : Extended outputs remaining phase.i
      (insert phase.i phase.atomicPatchMiddle) (last, middle))
    (ended : ¬ Failing count outputs (last + 1))
    (failing : ∀ k, phase.i ≤ k → k ≤ last → Failing count outputs k) (k : ℕ) :
    k ∈ middle ↔ k < last + 1 ∧ Entered count outputs k := by
  have startsBefore : phase.i ≤ last := extended.le
  have entering : k ∈ middle ↔ (k = phase.i ∨ k ∈ phase.atomicPatchMiddle) ∨
        phase.i ≤ k ∧ k < last := by
    rw [extended.mem_iff, Finset.mem_insert]
  rw [entering, invariant.mem_iff]
  constructor
  · rintro ((equal | ⟨before, entered⟩) | ⟨after, before⟩)
    · subst equal
      have fails := failing phase.i le_rfl startsBefore
      exact ⟨Nat.lt_succ_of_le startsBefore, fails, Or.inr (invariant.between fails)⟩
    · exact ⟨by omega, entered⟩
    · exact ⟨by omega, failing k after before.le, Or.inl (failing (k + 1) (by omega) before)⟩
  · rintro ⟨before, fails, neighbours⟩
    by_cases early : k < phase.i
    · exact Or.inl (Or.inr ⟨early, fails, neighbours⟩)
    by_cases first : k = phase.i
    · exact Or.inl (Or.inl first)
    by_cases inner : k < last
    · exact Or.inr ⟨not_lt.1 early, inner⟩
    have isLast : k = last := by omega
    subst isLast
    rcases neighbours with next | alone
    · exact absurd next ended
    · exact absurd (alone (k - 1) (by omega)) (failing (k - 1) (by omega) (by omega)).2

theorem Invariant.step_of_failing (fails : Failing count outputs phase.i) :
    Invariant count outputs (phase.step count outputs) := by
  rcases AcrossPhase.step_of_failing fails with
    ⟨last, middle, extended, ended, failing, equation⟩
  have startsBefore : phase.i ≤ last := extended.le
  rw [equation]
  refine ⟨fun next => absurd next ended, invariant.mem_iff_of_extended extended ended failing, ?_⟩
  intro reported member k after before
  rcases List.mem_append.1 member with earlier | new
  · exact invariant.patch reported earlier k after before
  · rw [List.mem_singleton] at new
    subst new
    by_cases inRun : k ≤ last
    · exact Or.inl (failing k after inRun)
    · have next : last + 1 = k := by
        split_ifs at before <;> omega
      exact Or.inr ⟨last, next, failing last startsBefore le_rfl⟩

theorem Invariant.step (inside : phase.i < count) :
    Invariant count outputs (phase.step count outputs) := by
  by_cases passes : outputs phase.i = 0
  · exact invariant.step_of_passing passes
  · exact invariant.step_of_failing ⟨inside, passes⟩

end

theorem step_i_lt (inside : phase.i < count) : phase.i < (phase.step count outputs).i := by
  by_cases passes : outputs phase.i = 0
  · rw [step_of_passing passes]
    exact Nat.lt_succ_self _
  · rcases step_of_failing ⟨inside, passes⟩ with
      ⟨last, middle, extended, -, -, equation⟩
    rw [equation]
    exact Nat.lt_succ_of_le extended.le

/-- The rule for the outer loop: it ends by its own test, with whatever its
rounds preserve. -/
theorem run_invariant (motive : AcrossPhase → Prop)
    (preserved : ∀ phase, phase.i < count → motive phase → motive (phase.step count outputs)) :
    ∀ (fuel : ℕ) (phase : AcrossPhase), count ≤ phase.i + fuel → motive phase →
        motive (run count outputs fuel phase) ∧ count ≤ (run count outputs fuel phase).i := by
  intro fuel
  induction fuel with
  | zero =>
    intro phase enough holds
    exact ⟨holds, enough⟩
  | succ fuel ih =>
    intro phase enough holds
    by_cases inside : phase.i < count
    · rw [run, if_pos inside]
      have moved : phase.i < (phase.step count outputs).i := step_i_lt inside
      exact ih _ (by omega) (preserved phase inside holds)
    · rw [run, if_neg inside]
      exact ⟨holds, not_lt.1 inside⟩

end AcrossPhase

theorem acrossSyscall_invariant (count : ℕ) (outputs : ℕ → ℤ) :
    AcrossPhase.Invariant count outputs (acrossSyscall count outputs) ∧
      count ≤ (acrossSyscall count outputs).i :=
  AcrossPhase.run_invariant (AcrossPhase.Invariant count outputs)
    (fun _ inside invariant => invariant.step inside) count
    AcrossPhase.start (Nat.le_add_left count 0) AcrossPhase.invariant_start

theorem mem_atomicPatchMiddle_iff (count : ℕ) (outputs : ℕ → ℤ) (k : ℕ) :
    k ∈ (acrossSyscall count outputs).atomicPatchMiddle ↔ AcrossPhase.Entered count outputs k := by
  rcases acrossSyscall_invariant count outputs with ⟨invariant, ended⟩
  rw [invariant.mem_iff]
  constructor
  · exact And.right
  · intro entered
    exact ⟨entered.1.1.trans_le ended, entered⟩

/-! ## What the ordering phase looks at -/

open AcrossPhase

theorem mem_orderingEnds_iff {replayer : Replayer} {patch : Finset ℕ} {i : ℕ}
    {call : OrderingCall} : call ∈ orderingEnds replayer patch i ↔
      ∃ j, i < j ∧ j < replayer.microOps.length ∧ replayer.dopsCount j ≠ 0 ∧ j ∉ patch ∧
          call = .check i j (replayer.dopsCount j - 1) := by
  rw [orderingEnds, List.mem_flatMap]
  constructor
  · rintro ⟨j, inRange, member⟩
    rw [List.mem_range'_1] at inRange
    by_cases passed : replayer.dopsCount j = 0 ∨ j ∈ patch
    · rw [if_pos passed] at member
      cases member
    · rw [if_neg passed, List.mem_singleton] at member
      rw [not_or] at passed
      exact ⟨j, by omega, by omega, passed.1, passed.2, member⟩
  · rintro ⟨j, after, inside, some, notIn, equal⟩
    refine ⟨j, List.mem_range'_1.2 (by omega), ?_⟩
    rw [if_neg (not_or.2 ⟨some, notIn⟩), List.mem_singleton]
    exact equal

/-- The end point of a check is not in the patch, and an omitted operation
neither is nor follows one that is. -/
theorem of_mem_orderingCalls {replayer : Replayer} {patch : Finset ℕ} {call : OrderingCall}
    (member : call ∈ orderingCalls replayer patch) :
    (∃ i k, ¬ AtomicityPhase.Skipped patch i ∧ call = .dopsOmit i k) ∨
      (∃ i j last, j < replayer.microOps.length ∧ j ∉ patch ∧ call = .check i j last) ∨
        ∃ i k, call = .dopsInclude i k := by
  rw [orderingCalls, List.mem_flatMap] at member
  rcases member with ⟨i, -, member⟩
  by_cases passed : replayer.dopsCount i = 0 ∨ AtomicityPhase.Skipped patch i
  · rw [if_pos passed] at member
    cases member
  · rw [if_neg passed, List.mem_append, List.mem_append, List.mem_map,
      mem_orderingEnds_iff, List.mem_map] at member
    rw [not_or] at passed
    rcases member with
      (⟨k, -, equal⟩ | ⟨j, -, inside, -, notIn, equal⟩) | ⟨k, -, equal⟩
    · exact Or.inl ⟨i, k, passed.2, equal.symm⟩
    · exact Or.inr (Or.inl ⟨i, j, _, inside, notIn, equal⟩)
    · exact Or.inr (Or.inr ⟨i, k, equal.symm⟩)

/-- A call does not end at a state that failed in the first phase, and does
not omit an operation of a reported group. -/
def OrderingCall.Avoids (outputs : ℕ → ℤ) (patches : List (ℕ × ℕ)) : OrderingCall → Prop
  | .dopsOmit i _ => ∀ patch ∈ patches, ¬ (patch.1 ≤ i ∧ i ≤ patch.2)
  | .check _ j _ => outputs j = 0
  | .dopsInclude _ _ => True

/-- No two neighbouring states fail. -/
def NoAdjacentFailures (count : ℕ) (outputs : ℕ → ℤ) : Prop :=
  ∀ k, k + 1 < count → outputs k = 0 ∨ outputs (k + 1) = 0

theorem NoAdjacentFailures.entered_iff {count : ℕ} {outputs : ℕ → ℤ}
    (separate : NoAdjacentFailures count outputs) (k : ℕ) :
    Entered count outputs k ↔ Failing count outputs k := by
  constructor
  · exact And.left
  · intro fails
    refine ⟨fails, Or.inr ?_⟩
    intro l equal
    subst equal
    exact (separate l fails.1).resolve_right fails.2

/-- In a longest run of failing states that has two members the last one is
not entered. -/
theorem exists_failing_not_entered {count : ℕ} {outputs : ℕ → ℤ} {k : ℕ}
    (fails : Failing count outputs k) (failsNext : Failing count outputs (k + 1)) :
    ∃ last, Failing count outputs last ∧ ¬ Entered count outputs last := by
  have extended := extended_extendPatch outputs (count - 1 - (k + 1)) (k + 1) ∅
  generalize extendPatch outputs (count - 1 - (k + 1)) (k + 1) ∅ = found at extended
  have after := extended.le
  have bounded := extended.bounded
  have inside := failsNext.1
  have failing : ∀ l, k ≤ l → l ≤ found.1 → outputs l ≠ 0 := by
    intro l late before
    by_cases first : l = k
    · exact first ▸ fails.2
    by_cases second : l = k + 1
    · exact second ▸ failsNext.2
    exact extended.failing l (by omega) before
  refine ⟨found.1, ⟨by omega, failing found.1 (by omega) le_rfl⟩, ?_⟩
  rintro ⟨-, next | alone⟩
  · rcases extended.maximal with ends | passes
    · have beyond := next.1
      omega
    · exact next.2 passes
  · exact failing (found.1 - 1) (by omega) (by omega) (alone (found.1 - 1) (by omega))

/-- After the across-syscall loop `atomic_patch_middle` is the set of failing
indices, and the ordering phase keeps away from states that failed and from
reported groups, exactly if no two neighbouring states fail. -/
theorem acrossSyscall_exact_iff
    (replayer : Replayer) (outputs : ℕ → ℤ) :
    ((∀ k,
        k ∈ (acrossSyscall replayer.microOps.length outputs
            ).atomicPatchMiddle ↔
          k < replayer.microOps.length ∧ outputs k ≠ 0) ∧
      ∀ call ∈ orderingCalls replayer
          (acrossSyscall replayer.microOps.length outputs
            ).atomicPatchMiddle,
        call.Avoids outputs
          (acrossSyscall replayer.microOps.length outputs).patches) ↔
      NoAdjacentFailures replayer.microOps.length outputs := by
  constructor
  · rintro ⟨exact, -⟩ k inside
    by_contra both
    rw [not_or] at both
    rcases exists_failing_not_entered
        ⟨(Nat.lt_succ_self k).trans inside, both.1⟩ ⟨inside, both.2⟩ with
      ⟨last, fails, notEntered⟩
    apply notEntered
    rw [← mem_atomicPatchMiddle_iff]
    exact (exact last).2 fails
  · intro separate
    have exact : ∀ k, k ∈ (acrossSyscall replayer.microOps.length outputs ).atomicPatchMiddle ↔
          Failing replayer.microOps.length outputs k := by
      intro k
      rw [mem_atomicPatchMiddle_iff, separate.entered_iff]
    refine ⟨exact, ?_⟩
    intro call member
    rcases of_mem_orderingCalls member with
      ⟨i, k, kept, equal⟩ | ⟨i, j, last, inside, notIn, equal⟩ | ⟨i, k, equal⟩
    · subst equal
      intro patch reported inside
      apply kept
      rcases (acrossSyscall_invariant _ outputs).1.patch patch reported i
          inside.1 inside.2 with fails | ⟨l, next, fails⟩
      · exact Or.inl ((exact i).2 fails)
      · subst next
        exact Or.inr ⟨Nat.succ_pos l, (exact l).2 fails⟩
    · subst equal
      by_contra fails
      exact notIn ((exact j).2 ⟨inside, fails⟩)
    · subst equal
      trivial

/-- Four bytes of a file are overwritten one by one. -/
def fourWrites : List MicroOp :=
  (List.range 4).map fun i => ⟨.write ⟨7, i, 1, "dump", i⟩, .pwrite⟩

def fourWritesEnv : ExplorerEnv where
  names := .asWritten
  ceilDiv := .unrounded
  replayEnv := ⟨fun _ => some [65, 66, 67, 68], fun _ _ => 0⟩

/-- The states after the second and the third write fail, so the writes from
the second to the fourth are reported.  The state in which the third write is
the last and the first is missing is enqueued all the same, and the fourth
write is omitted. -/
theorem fourWrites_not_avoided :
    ∃ replayer phase,
      Replayer.setFs .asWritten (CheckMode.count1.fs .unrounded)
        (logSnapshot [1, 2, 3, 4]) fourWrites 3 0 = .ok replayer ∧
      (acrossSyscall 4 fun k => if k = 1 ∨ k = 2 then 1 else 0) =
        ⟨4, {1}, [(1, 3)], false⟩ ∧
      OrderingPhase.enqueue fourWritesEnv replayer {1} = .ok phase ∧
      (0, 2) ∈ phase.queue ∧
      .dopsOmit 3 0 ∈ orderingCalls replayer {1} := by
  refine ⟨_, _, rfl, by decide, rfl, by decide, by decide⟩

end Alice
