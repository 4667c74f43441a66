import Alice.AutoTest.Closure
import Alice.DefaultFs.Flush

/-! # The test suite that `set_fs` builds

Whatever the constructor of the suite enters is already reachable through the
dependencies of `get_deps`.  The invariant is that an operation is dirty only
as long as no `sync` has contained it. -/

namespace Alice

open BackwardGraph Relation

/-- What `set_fs` passes to the test suite for a disk operation. -/
def DiskOp.toSuiteOp : DiskOp → SuiteOp
  | .write op => .write op.inode op.offset op.count
  | .truncate inode _ finalSize _ => .truncate inode finalSize
  | .sync inode offset count => .sync inode offset count
  | .createDirEntry parent _ _ _ _ => .createDirEntry parent
  | .deleteDirEntry parent _ _ _ _ => .deleteDirEntry parent
  | .stdout _ => .write (-1) 0 1

def suiteOps (ops : List TracedOp) : List SuiteOp :=
  ops.map fun traced => traced.op.toSuiteOp

/-- `dependency_tuples`: the dependencies of every operation, each set in
increasing order. -/
def dependencyTuples (deps : List (Finset ℕ)) : List (ℕ × ℕ) :=
  (List.range deps.length).flatMap fun i =>
    ((List.range i).filter fun j => j ∈ hiddenDependencies deps i).map fun j => (i, j)

/-- The part of `set_fs` that works on `all_diskops`. -/
def testSuiteOf (names : Names) (ops : List TracedOp) : Except PyError ALCTestSuite := do
  let suite := ALCTestSuite.construct (suiteOps ops)
  let deps ← getDeps names ops
  suite.addDepsToOps (dependencyTuples deps)

/-- `test_combo_validity` on the suite that `set_fs` builds. -/
def comboValidity (names : Names) (ops : List TracedOp) (combo : Finset ℕ) :
    Except PyError Bool := do
  let suite ← testSuiteOf names ops
  suite.testComboValidity combo

/-- `y` is in `ops[x].hidden_dependencies`. -/
def HiddenEdge (deps : List (Finset ℕ)) (x y : ℕ) : Prop :=
  y ∈ hiddenDependencies deps x

variable {ops : List TracedOp} {op : DiskOp}

theorem Flushes.lt {s j : ℕ} (flushes : Flushes ops s j) : j < s := by
  obtain ⟨point, _, ⟨below, _⟩, _⟩ := flushes
  exact below

theorem exists_lastBarrier {b x : ℕ} (barrier : BarrierAt ops b) (below : b < x)
    : ∃ last, LastBarrier ops x last := by
  induction x with
  | zero => exact absurd below (Nat.not_lt_zero b)
  | succ x ih =>
    by_cases here : BarrierAt ops x
    · exact ⟨x, ⟨Nat.lt_succ_self x, here⟩, fun t after before => by omega⟩
    · have different : b ≠ x := by
        rintro rfl
        exact here barrier
      obtain ⟨last, ⟨before, isBarrier⟩, none⟩ := ih (by omega)
      refine ⟨last, ⟨Nat.lt_succ_of_lt before, isBarrier⟩, ?_⟩
      intro t after bound
      rcases Nat.lt_succ_iff_lt_or_eq.1 bound with less | equal
      · exact none t after less
      · exact equal ▸ here

section

variable {names : Names} {ops : List TracedOp} {deps : List (Finset ℕ)}

variable {x : ℕ}

section

variable (returned : getDeps names ops = .ok deps)
include returned

theorem lt_length_of_hiddenEdge {y : ℕ} (edge : HiddenEdge deps x y) : x < ops.length := by
  by_contra past
  have missing : deps.length ≤ x := by
    rw [getDeps_length returned]
    exact Nat.le_of_not_lt past
  rw [HiddenEdge, hiddenDependencies, List.getD_eq_default _ _ missing] at edge
  exact Finset.notMem_empty y edge

theorem hiddenEdge_iff (bound : x < ops.length) (y : ℕ) :
    HiddenEdge deps x y ↔ LastBarrier ops x y ∨ Flushes ops x y :=
  mem_hiddenDependencies_iff returned bound y

theorem backward_hiddenEdge : Backward (HiddenEdge deps) := by
  intro x y edge
  have bound := lt_length_of_hiddenEdge returned edge
  rcases (hiddenEdge_iff returned bound y).1 edge with barrier | flushes
  · exact barrier.1.1
  · exact flushes.lt

theorem mem_dependencyTuples_iff (x y : ℕ) :
    (x, y) ∈ dependencyTuples deps ↔ HiddenEdge deps x y := by
  simp only [dependencyTuples, List.mem_flatMap, List.mem_range,
    List.mem_map, List.mem_filter, Prod.mk.injEq, decide_eq_true_eq]
  constructor
  · rintro ⟨i, _, j, ⟨_, member⟩, rfl, rfl⟩
    exact member
  · intro edge
    refine ⟨x, ?_, y, ⟨backward_hiddenEdge returned x y edge, edge⟩, rfl, rfl⟩
    rw [getDeps_length returned]
    exact lt_length_of_hiddenEdge returned edge

theorem validTuples_dependencyTuples :
    ALCTestSuite.ValidTuples (suiteOps ops) (dependencyTuples deps) := by
  rintro ⟨x, y⟩ member
  have edge := (mem_dependencyTuples_iff returned x y).1 member
  refine ⟨backward_hiddenEdge returned x y edge, ?_⟩
  rw [suiteOps, List.length_map]
  exact lt_length_of_hiddenEdge returned edge

/-- Every earlier barrier is reachable, through the chain of last
barriers. -/
theorem transGen_barrier {b : ℕ} (barrier : BarrierAt ops b) (below : b < x)
    (bound : x < ops.length) : TransGen (HiddenEdge deps) x b := by
  induction x using Nat.strong_induction_on with
  | h x ih =>
    obtain ⟨last, lastBarrier⟩ := exists_lastBarrier barrier below
    have edge : HiddenEdge deps x last :=
      (hiddenEdge_iff returned bound last).2 (Or.inl lastBarrier)
    rcases Nat.lt_trichotomy last b with before | equal | after
    · exact absurd barrier (lastBarrier.2 b before below)
    · exact equal ▸ TransGen.single edge
    · exact TransGen.head edge (ih last lastBarrier.1.1 after (lt_trans lastBarrier.1.1 bound))

end

end

/-! ## The dirty sets -/

namespace ALCTestSuite

/-- A dirty operation was entered under its inode and no later `sync` of that
inode has contained it. -/
theorem dirty_spec (microOpList : List SuiteOp) {inode : ℤ} {id : ℕ}
    (dirty : id ∈ (globalsAfter microOpList).dirtyWriteOpsInode inode) :
    ∃ op, microOpList[id]? = some op ∧ op.dirtyInode = some inode ∧ ∀ t offset count, id < t →
        microOpList[t]? = some (.sync inode offset count) →
          op.isIncludedInSyncRange offset count = false := by
  induction microOpList using List.reverseRecOn with
  | nil => simp [Globals.reset] at dirty
  | append_singleton earlier last ih =>
    rw [globalsAfter_snoc, Globals.mem_addOperation_dirty_iff, globalsAfter_opList] at dirty
    obtain ⟨old | ⟨entered, equal⟩, survives⟩ := dirty
    · obtain ⟨op, lookup, entered, uncontained⟩ := ih old
      have bound : id < earlier.length := (List.getElem?_eq_some_iff.1 lookup).1
      refine ⟨op, ?_, entered, ?_⟩
      · rw [List.getElem?_append_left bound, lookup]
      · intro t offset count after isSync
        rcases Nat.lt_or_ge t earlier.length with inside | past
        · rw [List.getElem?_append_left inside] at isSync
          exact uncontained t offset count after isSync
        · have atEnd : t = earlier.length := by
            have := (List.getElem?_eq_some_iff.1 isSync).1
            rw [List.length_append, List.length_singleton] at this
            omega
          rw [atEnd, List.getElem?_concat_length, Option.some.injEq] at isSync
          have kept := survives offset count isSync
          simpa [Globals.includedAt, lookup] using kept
    · subst equal
      refine ⟨last, by simp, entered, ?_⟩
      intro t offset count after isSync
      have := (List.getElem?_eq_some_iff.1 isSync).1
      rw [List.length_append, List.length_singleton] at this
      omega

theorem latest_spec (microOpList : List SuiteOp) {id : ℕ}
    (latest : id ∈ (globalsAfter microOpList).latestFsyncOnAnyFile) : ∃ inode offset count,
      microOpList[id]? = some (.sync inode offset count) := by
  induction microOpList using List.reverseRecOn with
  | nil => simp [Globals.reset] at latest
  | append_singleton earlier last ih =>
    rw [globalsAfter_snoc, Globals.addOperation_latest, globalsAfter_opList] at latest
    cases last with
    | sync inode offset count =>
      simp only [Option.mem_some_iff] at latest
      subst latest
      exact ⟨inode, offset, count, by simp⟩
    | write | truncate | createDirEntry | deleteDirEntry =>
      obtain ⟨inode, offset, count, lookup⟩ := ih latest
      refine ⟨inode, offset, count, ?_⟩
      rw [List.getElem?_append_left (List.getElem?_eq_some_iff.1 lookup).1, lookup]

end ALCTestSuite

/-! ## The two calculators agree -/

theorem isIncludedInSyncRange_of_covers {point : SyncPoint} {inode : Inode} {offset count : ℕ}
    (included : op.toSuiteOp.isIncludedInSyncRange point.offset point.count = true)
    (covers : Covers point (.sync inode offset count)) :
    op.toSuiteOp.isIncludedInSyncRange offset count = true := by
  obtain ⟨_, lower, upper⟩ := covers
  cases op with
  | write op | truncate inode initialSize finalSize atomicity | stdout data =>
    simp only [DiskOp.toSuiteOp, SuiteOp.isIncludedInSyncRange,
      Bool.and_eq_true, decide_eq_true_eq] at included ⊢
    omega
  | sync => exact included
  | createDirEntry | deleteDirEntry => rfl

/-- An operation entered under the inode of a `sync` and contained in its
range is one that the `sync` targets. -/
theorem targets_of_included {point : SyncPoint}
    (entered : op.toSuiteOp.dirtyInode = some (point.inode : ℤ))
    (included : op.toSuiteOp.isIncludedInSyncRange point.offset point.count = true) :
    Targets point op := by
  cases op with
  | write op =>
    simp only [DiskOp.toSuiteOp, SuiteOp.dirtyInode, Option.some.injEq, Nat.cast_inj] at entered
    simp only [DiskOp.toSuiteOp, SuiteOp.isIncludedInSyncRange,
      Bool.and_eq_true, decide_eq_true_eq] at included
    exact ⟨entered, included.1, by omega⟩
  | truncate inode initialSize finalSize atomicity
  | createDirEntry parent entry inode mode entryType
  | deleteDirEntry parent entry inode entryType atomicity =>
    simpa [DiskOp.toSuiteOp, SuiteOp.dirtyInode, Targets] using entered
  | sync inode offset count => simp [DiskOp.toSuiteOp, SuiteOp.dirtyInode] at entered
  | stdout data =>
    simp only [DiskOp.toSuiteOp, SuiteOp.dirtyInode, Option.some.injEq] at entered
    omega

theorem suiteOps_getElem? (ops : List TracedOp) (i : ℕ) :
    (suiteOps ops)[i]? = ops[i]?.map fun traced => traced.op.toSuiteOp :=
  List.getElem?_map

theorem toSuiteOp_eq_sync {inode : ℤ} {offset count : ℕ}
    (isSync : op.toSuiteOp = .sync inode offset count) :
    ∃ key : Inode, inode = key ∧ op = .sync key offset count := by
  cases op with
  | sync key start size =>
    simp only [DiskOp.toSuiteOp, SuiteOp.sync.injEq] at isSync
    obtain ⟨same, rfl, rfl⟩ := isSync
    exact ⟨key, same.symm, rfl⟩
  | _ => simp [DiskOp.toSuiteOp] at isSync

/-- A direct edge of the constructor is something the `sync` flushes, or leads
to an earlier barrier. -/
theorem directEdges_cases {x y : ℕ} (edge : y ∈ ALCTestSuite.directEdges (suiteOps ops) x) :
    Flushes ops x y ∨ BarrierAt ops y ∧ y < x := by
  have below := ALCTestSuite.directEdges_lt edge
  unfold ALCTestSuite.directEdges at edge
  rw [suiteOps_getElem?] at edge
  cases lookup : ops[x]? with
  | none => simp [lookup] at edge
  | some traced =>
    have prefixAt : ∀ t < x, ((suiteOps ops).take x)[t]? = (suiteOps ops)[t]? := by
      intro t before
      rw [List.getElem?_take_of_lt before]
    simp only [lookup, Option.map_some] at edge
    rw [Globals.directDependencies, Finset.mem_union, Globals.mem_dirtyInRange_iff,
      Option.mem_toFinset, Globals.updateDirtyWriteCollection_latest] at edge
    rcases edge with ⟨inode, offset, count, isSync, dirty, included⟩ | latest
    · refine Or.inl ?_
      obtain ⟨key, rfl, opEq⟩ := toSuiteOp_eq_sync isSync
      rw [Globals.mem_updateDirtyWriteCollection_iff, isSync] at dirty
      have old := dirty.resolve_right (by simp [SuiteOp.dirtyInode])
      obtain ⟨op, opLookup, entered, uncontained⟩ := ALCTestSuite.dirty_spec _ old
      rw [prefixAt y below, suiteOps_getElem?] at opLookup
      obtain ⟨target, targetLookup, rfl⟩ := Option.map_eq_some_iff.1 opLookup
      have contained : target.op.toSuiteOp.isIncludedInSyncRange offset count = true := by
        simpa [Globals.includedAt, prefixAt y below, suiteOps_getElem?, targetLookup] using included
      let point : SyncPoint := ⟨key, offset, count, traced.syscall⟩
      have pointEq : syncPointAt ops x = some point := by
        obtain ⟨tracedOp, syscall⟩ := traced
        subst opEq
        simp [syncPointAt, lookup, point]
      refine ⟨point, pointEq, ⟨below, ?_⟩, target, targetLookup,
        targets_of_included entered contained⟩
      rintro t after before ⟨middle, middleLookup, covers⟩
      cases middleOp : middle.op with
      | sync inode start size =>
        rw [middleOp] at covers
        have sameInode : inode = key := covers.1
        have middleSync : ((suiteOps ops).take x)[t]? = some (.sync (key : ℤ) start size) := by
          rw [prefixAt t before, suiteOps_getElem?, middleLookup,
            Option.map_some, middleOp, ← sameInode]
          rfl
        have excluded := uncontained t start size after middleSync
        have containedHere : target.op.toSuiteOp.isIncludedInSyncRange
              point.offset point.count = true := contained
        rw [isIncludedInSyncRange_of_covers containedHere covers] at excluded
        exact Bool.noConfusion excluded
      | _ =>
        rw [middleOp] at covers
        exact covers
    · refine Or.inr ⟨?_, below⟩
      obtain ⟨inode, offset, count, latestLookup⟩ := ALCTestSuite.latest_spec _ latest
      rw [prefixAt y below, suiteOps_getElem?] at latestLookup
      obtain ⟨target, targetLookup, isSync⟩ := Option.map_eq_some_iff.1 latestLookup
      obtain ⟨key, _, opEq⟩ := toSuiteOp_eq_sync isSync
      exact ⟨target, targetLookup, by rw [opEq]; rfl⟩

section

variable {names : Names} {ops : List TracedOp} {deps : List (Finset ℕ)}

theorem transGen_of_directEdge (returned : getDeps names ops = .ok deps) {x y : ℕ}
    (edge : y ∈ ALCTestSuite.directEdges (suiteOps ops) x) : TransGen (HiddenEdge deps) x y := by
  have bound : x < ops.length := by
    by_contra past
    have missing : (suiteOps ops)[x]? = none := by simpa [suiteOps] using past
    simp [ALCTestSuite.directEdges, missing] at edge
  rcases directEdges_cases edge with flushes | ⟨barrier, below⟩
  · exact TransGen.single ((hiddenEdge_iff returned bound y).2 (Or.inr flushes))
  · exact transGen_barrier returned barrier below bound

theorem transGen_of_mem_construct_deps (returned : getDeps names ops = .ok deps) {x y : ℕ}
    (member : y ∈ (ALCTestSuite.construct (suiteOps ops)).deps x) :
    TransGen (HiddenEdge deps) x y := by
  by_cases bound : x < (suiteOps ops).length
  · have path := (ALCTestSuite.construct_exactAt (suiteOps ops) x bound y).1 member
    refine TransGen.trans_induction_on path ?_ ?_
    · intro a b edge
      exact transGen_of_directEdge returned edge
    · intro a b c _ _ first second
      exact first.trans second
  · rw [ALCTestSuite.construct_deps_of_le (Nat.le_of_not_lt bound)] at member
    exact absurd member (Finset.notMem_empty y)

/-- In the suite that `set_fs` builds, `deps` is reachability through
`hidden_dependencies`. -/
theorem testSuiteOf_exactAt (returned : getDeps names ops = .ok deps) :
    ∃ suite, testSuiteOf names ops = .ok suite ∧ suite.opList.length = ops.length ∧
      ∀ x < ops.length, ExactAt (HiddenEdge deps) suite.deps x := by
  obtain ⟨suite, suiteEq, sameList, exact⟩ :=
    ALCTestSuite.addDepsToOps_exactAt (validTuples_dependencyTuples returned)
  refine ⟨suite, ?_, ?_, ?_⟩
  · simp only [testSuiteOf, returned]
    exact suiteEq
  · rw [sameList, suiteOps, List.length_map]
  · intro x bound y
    rw [exact x (by rwa [suiteOps, List.length_map]) y]
    constructor
    · intro path
      refine TransGen.trans_induction_on path ?_ ?_
      · rintro a b (added | direct)
        · exact TransGen.single ((mem_dependencyTuples_iff returned a b).1 added)
        · exact transGen_of_directEdge returned direct
      · intro a b c _ _ first second
        exact first.trans second
    · intro path
      refine TransGen.mono (fun a b edge => ?_) x y path
      exact Or.inl ((mem_dependencyTuples_iff returned a b).2 edge)

end

/-- The dependencies of the constructor add nothing to those of `get_deps`:
they lie in their transitive closure, which is what the merged suite holds. -/
theorem calculators_agree
    (names : Names) (ops : List TracedOp) (deps : List (Finset ℕ))
    (returned : getDeps names ops = .ok deps) :
    (∀ x y, y ∈ (ALCTestSuite.construct (suiteOps ops)).deps x →
      TransGen (HiddenEdge deps) x y) ∧
    ∃ suite, testSuiteOf names ops = .ok suite ∧
      ∀ x < ops.length, ∀ y,
        y ∈ suite.deps x ↔ TransGen (HiddenEdge deps) x y := by
  refine ⟨fun x y member =>
    transGen_of_mem_construct_deps returned member, ?_⟩
  obtain ⟨suite, suiteEq, _, exact⟩ := testSuiteOf_exactAt returned
  exact ⟨suite, suiteEq, exact⟩

/-- Terminal output, then a truncation and an `fsync` of its inode. -/
def outputThenFsync : List TracedOp :=
  [⟨.stdout [104, 105], .write⟩, ⟨.truncate 7 4 2 "", .ftruncate⟩, ⟨.sync 7 0 2, .fsync⟩]

theorem calculators_agree_outputThenFsync :
    getDeps .asWritten outputThenFsync = .ok [∅, {0}, {0, 1}] ∧
    (∀ x y,
      y ∈ (ALCTestSuite.construct (suiteOps outputThenFsync)).deps x →
        TransGen (HiddenEdge [∅, {0}, {0, 1}]) x y) ∧
    ∃ suite, testSuiteOf .asWritten outputThenFsync = .ok suite ∧
      ∀ x < 3, ∀ y,
        y ∈ suite.deps x ↔
          TransGen (HiddenEdge [∅, {0}, {0, 1}]) x y := by
  have returned : getDeps .asWritten outputThenFsync = .ok [∅, {0}, {0, 1}] := by
    decide
  exact ⟨returned, calculators_agree .asWritten outputThenFsync [∅, {0}, {0, 1}] returned⟩

end Alice
