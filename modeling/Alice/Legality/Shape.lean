import Alice.Legality.Suite

/-! # Legal sets of disk operations

A set is accepted by `test_combo_validity` exactly when an operation brings
all earlier barriers and a `sync` everything it flushes.  The covering `sync`
that cuts a scan off is a barrier and flushes at least as much. -/

namespace Alice

open BackwardGraph Relation

def LegalShape (ops : List TracedOp) (combo : Finset ℕ) : Prop :=
  (∀ x ∈ combo, ∀ b < x, BarrierAt ops b → b ∈ combo) ∧
    ∀ s ∈ combo, ∀ j, Flushes ops s j → j ∈ combo

variable {ops : List TracedOp} {s : ℕ} {point : SyncPoint}

theorem closedUnder_hiddenEdge_iff {names : Names} {deps : List (Finset ℕ)}
    (returned : getDeps names ops = .ok deps) {combo : Finset ℕ}
    (known : ∀ x ∈ combo, x < ops.length) : ClosedUnder (HiddenEdge deps) {x | x ∈ combo} ↔
      LegalShape ops combo := by
  constructor
  · intro closed
    constructor
    · intro x member b below barrier
      exact closed.mem_of_transGen member (transGen_barrier returned barrier below (known x member))
    · intro s member j flushes
      exact closed s member j ((hiddenEdge_iff returned (known s member) j).2 (Or.inr flushes))
  · rintro ⟨barriers, flushed⟩ x member y edge
    rcases (hiddenEdge_iff returned (known x member) y).1 edge with
      last | flushes
    · exact barriers x member y last.1.1 last.1.2
    · exact flushed x member y flushes

theorem comboValidity_iff {names : Names} {deps : List (Finset ℕ)}
    (returned : getDeps names ops = .ok deps) (combo : Finset ℕ) :
    comboValidity names ops combo = .ok true ↔
      (∀ x ∈ combo, x < ops.length) ∧ LegalShape ops combo := by
  obtain ⟨suite, suiteEq, sameLength, exact⟩ := testSuiteOf_exactAt returned
  have onSuite : comboValidity names ops combo = suite.testComboValidity combo := by
    rw [comboValidity, suiteEq]
    rfl
  rw [onSuite]
  by_cases known : ∀ x ∈ combo, x < ops.length
  · have closed : suite.testComboValidity combo = .ok true ↔
          ClosedUnder (HiddenEdge deps) {x | x ∈ combo} :=
      ALCTestSuite.testComboValidity_iff_closedUnder (sameLength ▸ exact) (sameLength ▸ known)
    rw [closed, closedUnder_hiddenEdge_iff returned known]
    exact (and_iff_right known).symm
  · refine iff_of_false ?_ fun legal => known legal.1
    rw [ALCTestSuite.testComboValidity, if_neg (sameLength ▸ known)]
    simp

theorem barrierAt_of_syncPointAt (pointEq : syncPointAt ops s = some point) : BarrierAt ops s := by
  unfold syncPointAt at pointEq
  split at pointEq
  · rename_i inode offset count syscall lookup
    exact ⟨_, lookup, rfl⟩
  · simp at pointEq

theorem barrierAt_of_flushes {j : ℕ} (flushes : Flushes ops s j) :
    BarrierAt ops s := by
  obtain ⟨point, pointEq, _⟩ := flushes
  exact barrierAt_of_syncPointAt pointEq

theorem exists_syncPointAt_of_covers {t : ℕ} (covered : HoldsAt ops t (Covers point)) :
    ∃ wider, syncPointAt ops t = some wider ∧ ∀ op, Targets point op → Targets wider op := by
  obtain ⟨⟨op, syscall⟩, lookup, covers⟩ := covered
  cases op with
  | sync inode offset count =>
    obtain ⟨sameInode, lower, upper⟩ := covers
    refine ⟨⟨inode, offset, count, syscall⟩, by simp [syncPointAt, lookup], ?_⟩
    intro op targeted
    cases op with
    | write op =>
      obtain ⟨same, starts, ends⟩ := targeted
      exact ⟨same.trans sameInode.symm, by simp only; omega, by simp only; omega⟩
    | truncate | createDirEntry | deleteDirEntry => exact Eq.trans targeted sameInode.symm
    | sync | stdout => exact targeted
  | _ => exact False.elim covers

/-- In a legal set a `sync` brings every earlier operation it targets, whether
or not its scan got that far. -/
theorem LegalShape.mem_of_targets {combo : Finset ℕ} (legal : LegalShape ops combo) {j : ℕ}
    (pointEq : syncPointAt ops s = some point) (member : s ∈ combo) (below : j < s)
    (targeted : HoldsAt ops j (Targets point)) : j ∈ combo := by
  induction s using Nat.strong_induction_on generalizing point with
  | h s ih =>
    by_cases exposed : Exposed ops point s j
    · exact legal.2 s member j ⟨point, pointEq, ⟨below, exposed⟩, targeted⟩
    · simp only [Exposed, not_forall, not_not] at exposed
      obtain ⟨t, after, before, covered⟩ := exposed
      obtain ⟨wider, widerEq, stronger⟩ := exists_syncPointAt_of_covers covered
      have kept : t ∈ combo := legal.1 s member t before (barrierAt_of_syncPointAt widerEq)
      obtain ⟨traced, lookup, targets⟩ := targeted
      exact ih t before widerEq kept after ⟨traced, lookup, stronger traced.op targets⟩

/-- Accepted sets are the sets of the legal shape, and operations after the
last barrier can be dropped from them freely. -/
theorem accepted_iff_legalShape
    (names : Names) (ops : List TracedOp) (deps : List (Finset ℕ))
    (returned : getDeps names ops = .ok deps) :
    (∀ combo : Finset ℕ, (∀ x ∈ combo, x < ops.length) →
      (comboValidity names ops combo = .ok true ↔ LegalShape ops combo)) ∧
    ∀ combo dropped : Finset ℕ,
      comboValidity names ops combo = .ok true →
      (∀ x ∈ dropped, ∀ b, x ≤ b → ¬ BarrierAt ops b) →
      comboValidity names ops (combo \ dropped) = .ok true := by
  constructor
  · intro combo known
    rw [comboValidity_iff returned]
    exact and_iff_right known
  · intro combo dropped accepted late
    obtain ⟨known, barriers, flushed⟩ := (comboValidity_iff returned combo).1 accepted
    refine (comboValidity_iff returned _).2 ⟨?_, ?_, ?_⟩
    · intro x member
      exact known x (Finset.mem_sdiff.1 member).1
    · intro x member b below barrier
      have inCombo := (Finset.mem_sdiff.1 member).1
      refine Finset.mem_sdiff.2 ⟨barriers x inCombo b below barrier, ?_⟩
      intro isDropped
      exact late b isDropped b (Nat.le_refl b) barrier
    · intro s member j flushes
      have inCombo := (Finset.mem_sdiff.1 member).1
      refine Finset.mem_sdiff.2 ⟨flushed s inCombo j flushes, ?_⟩
      intro isDropped
      exact late j isDropped s (Nat.le_of_lt flushes.lt) (barrierAt_of_flushes flushes)

theorem accepted_iff_legalShape_outputThenFsync :
    getDeps .asWritten outputThenFsync = .ok [∅, {0}, {0, 1}] ∧
    (∀ combo : Finset ℕ, (∀ x ∈ combo, x < 3) →
      (comboValidity .asWritten outputThenFsync combo = .ok true ↔
        LegalShape outputThenFsync combo)) ∧
    ∀ combo dropped : Finset ℕ,
      comboValidity .asWritten outputThenFsync combo = .ok true →
      (∀ x ∈ dropped, ∀ b, x ≤ b → ¬ BarrierAt outputThenFsync b) →
      comboValidity .asWritten outputThenFsync (combo \ dropped) =
        .ok true := by
  have returned : getDeps .asWritten outputThenFsync = .ok [∅, {0}, {0, 1}] := by
    decide
  exact ⟨returned, accepted_iff_legalShape .asWritten outputThenFsync [∅, {0}, {0, 1}] returned⟩

/-- The accepted sets are those a disk reaches one operation at a time, each
after its `hidden_dependencies`. -/
theorem accepted_iff_reachable (names : Names) (ops : List TracedOp) (deps : List (Finset ℕ))
    (returned : getDeps names ops = .ok deps) (combo : Finset ℕ) :
    comboValidity names ops combo = .ok true ↔
      (∀ x ∈ combo, x < ops.length) ∧ ReflTransGen (Grows (HiddenEdge deps)) ∅ combo := by
  rw [comboValidity_iff returned, reflTransGen_grows_iff (backward_hiddenEdge returned)]
  exact and_congr_right fun known => (closedUnder_hiddenEdge_iff returned known).symm

theorem accepted_iff_reachable_outputThenFsync :
    comboValidity .asWritten outputThenFsync {0, 1} = .ok true ↔
      (∀ x ∈ ({0, 1} : Finset ℕ), x < 3) ∧
        ReflTransGen (Grows (HiddenEdge [∅, {0}, {0, 1}])) ∅ {0, 1} :=
  accepted_iff_reachable .asWritten outputThenFsync _ (by decide) _

end Alice
