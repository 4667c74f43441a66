import Alice.AutoTest.TestSuite

/-! # Dependencies are reachability

The constructor enters what an operation finds, `add_dep` merges further edges
with what the target knows at the time, and a last pass completes every entry.
After it the `deps` are what the direct edges and the added tuples reach. -/

namespace Alice

open BackwardGraph Relation

namespace Globals

/-- Everything the globals name was added before. -/
def Bounded (globals : Globals) : Prop :=
  (∀ inode, ∀ id ∈ globals.dirtyWriteOpsInode inode, id < globals.opList.length) ∧
  ∀ id ∈ globals.latestFsyncOnAnyFile, id < globals.opList.length

theorem bounded_reset : reset.Bounded := by
  simp [Bounded, reset]

section

variable (globals : Globals)
include globals

section

variable (op : SuiteOp)
include op

@[simp]
theorem updateDirtyWriteCollection_opList :
    (globals.updateDirtyWriteCollection op).opList = globals.opList := by
  unfold updateDirtyWriteCollection
  split <;> rfl

@[simp]
theorem updateDirtyWriteCollection_deps :
    (globals.updateDirtyWriteCollection op).deps = globals.deps := by
  unfold updateDirtyWriteCollection
  split <;> rfl

@[simp]
theorem updateDirtyWriteCollection_latest :
    (globals.updateDirtyWriteCollection op).latestFsyncOnAnyFile =
      globals.latestFsyncOnAnyFile := by
  unfold updateDirtyWriteCollection
  split <;> rfl

theorem mem_updateDirtyWriteCollection_iff (inode : ℤ) (id : ℕ) :
    id ∈ (globals.updateDirtyWriteCollection op).dirtyWriteOpsInode inode ↔
      id ∈ globals.dirtyWriteOpsInode inode ∨
        op.dirtyInode = some inode ∧ id = globals.opList.length := by
  unfold updateDirtyWriteCollection
  cases entered : op.dirtyInode with
  | none => simp
  | some key =>
    by_cases same : inode = key
    · subst same
      simp [or_comm]
    · simp [same, Ne.symm same]

@[simp]
theorem addOperation_opList :
    (globals.addOperation op).opList = globals.opList ++ [op] :=
  rfl

theorem addOperation_deps_self :
    (globals.addOperation op).deps globals.opList.length =
      (globals.updateDirtyWriteCollection op).calculateDependencies op := by
  simp [addOperation]

theorem addOperation_deps_of_ne {x : ℕ} (different : x ≠ globals.opList.length) :
    (globals.addOperation op).deps x = globals.deps x := by
  simp [addOperation, different]

theorem addOperation_latest : (globals.addOperation op).latestFsyncOnAnyFile =
      match op with
      | .sync .. => some globals.opList.length
      | _ => globals.latestFsyncOnAnyFile := by
  cases op <;> simp [addOperation, clearDirtyWriteCollection]

theorem mem_addOperation_dirty_iff (inode : ℤ) (id : ℕ) :
    id ∈ (globals.addOperation op).dirtyWriteOpsInode inode ↔
      (id ∈ globals.dirtyWriteOpsInode inode ∨
        op.dirtyInode = some inode ∧ id = globals.opList.length) ∧
      ∀ offset count, op = .sync inode offset count →
        globals.includedAt offset count id = false := by
  rw [← mem_updateDirtyWriteCollection_iff]
  cases op with
  | sync key offset count =>
    by_cases same : inode = key
    · subst same
      simp [addOperation, clearDirtyWriteCollection, dirtyInRange, includedAt]
      tauto
    · simp [addOperation, clearDirtyWriteCollection, same, Ne.symm same]
  | write | truncate | createDirEntry | deleteDirEntry =>
    simp [addOperation, clearDirtyWriteCollection]

end

end

theorem Bounded.addOperation {globals : Globals} (bounded : globals.Bounded) (op : SuiteOp) :
    (globals.addOperation op).Bounded := by
  constructor
  · intro inode id member
    rw [mem_addOperation_dirty_iff] at member
    rw [addOperation_opList, List.length_append, List.length_singleton]
    rcases member.1 with old | ⟨_, equal⟩
    · exact Nat.lt_succ_of_lt (bounded.1 inode id old)
    · omega
  · intro id member
    rw [addOperation_latest] at member
    rw [addOperation_opList, List.length_append, List.length_singleton]
    cases op with
    | sync key offset count =>
      simp only [Option.mem_some_iff] at member
      omega
    | write | truncate | createDirEntry | deleteDirEntry =>
      exact Nat.lt_succ_of_lt (bounded.2 id member)

theorem mem_dirtyInRange_iff (globals : Globals) (op : SuiteOp) (id : ℕ) :
    id ∈ globals.dirtyInRange op ↔ ∃ inode offset count, op = .sync inode offset count ∧
        id ∈ globals.dirtyWriteOpsInode inode ∧ globals.includedAt offset count id = true := by
  cases op <;> simp [dirtyInRange]

theorem Bounded.directDependencies_lt {globals : Globals} (bounded : globals.Bounded)
    (op : SuiteOp) : ∀ id ∈ (globals.updateDirtyWriteCollection op).directDependencies op,
      id < globals.opList.length := by
  intro id member
  rw [directDependencies, Finset.mem_union, mem_dirtyInRange_iff,
    updateDirtyWriteCollection_latest, Option.mem_toFinset] at member
  rcases member with ⟨inode, offset, count, rfl, dirty, _⟩ | latest
  · rw [mem_updateDirtyWriteCollection_iff] at dirty
    rcases dirty with old | ⟨entered, _⟩
    · exact bounded.1 inode id old
    · simp [SuiteOp.dirtyInode] at entered
  · exact bounded.2 id latest

theorem calculateDependencies_eq (globals : Globals) (op : SuiteOp) :
    globals.calculateDependencies op = globals.directDependencies op ∪
        (globals.directDependencies op).biUnion globals.deps := by
  ext id
  unfold calculateDependencies directDependencies
  cases globals.latestFsyncOnAnyFile with
  | none =>
    simp only [Finset.mem_biUnion, Finset.mem_union,
      Finset.mem_singleton, Option.toFinset_none, Finset.union_empty]
    constructor
    · rintro ⟨wop, member, deeper | equal⟩
      · exact Or.inr ⟨wop, member, deeper⟩
      · exact Or.inl (equal ▸ member)
    · rintro (member | ⟨wop, member, deeper⟩)
      · exact ⟨id, member, Or.inr rfl⟩
      · exact ⟨wop, member, Or.inl deeper⟩
  | some latest =>
    simp only [Finset.mem_biUnion, Finset.mem_union, Finset.mem_singleton, Option.toFinset_some]
    constructor
    · rintro ((⟨wop, member, deeper | equal⟩ | deeper) | equal)
      · exact Or.inr ⟨wop, Or.inl member, deeper⟩
      · exact Or.inl (Or.inl (equal ▸ member))
      · exact Or.inr ⟨latest, Or.inr rfl, deeper⟩
      · exact Or.inl (Or.inr equal)
    · rintro ((member | equal) | ⟨wop, member | equal, deeper⟩)
      · exact Or.inl (Or.inl ⟨id, member, Or.inr rfl⟩)
      · exact Or.inr equal
      · exact Or.inl (Or.inl ⟨wop, member, Or.inl deeper⟩)
      · exact Or.inl (Or.inr (equal ▸ deeper))

end Globals

namespace ALCTestSuite

@[simp]
theorem globalsAfter_nil : globalsAfter [] = Globals.reset :=
  rfl

theorem globalsAfter_snoc (microOpList : List SuiteOp) (op : SuiteOp) :
    globalsAfter (microOpList ++ [op]) = (globalsAfter microOpList).addOperation op := by
  simp [globalsAfter]

@[simp]
theorem globalsAfter_opList (microOpList : List SuiteOp) :
    (globalsAfter microOpList).opList = microOpList := by
  induction microOpList using List.reverseRecOn with
  | nil => rfl
  | append_singleton earlier op ih => rw [globalsAfter_snoc, Globals.addOperation_opList, ih]

theorem globalsAfter_bounded (microOpList : List SuiteOp) : (globalsAfter microOpList).Bounded := by
  induction microOpList using List.reverseRecOn with
  | nil => exact Globals.bounded_reset
  | append_singleton earlier op ih =>
    rw [globalsAfter_snoc]
    exact ih.addOperation op

variable {x : ℕ} {microOpList : List SuiteOp} {tuples : List (ℕ × ℕ)}

theorem directEdges_snoc_of_lt (microOpList : List SuiteOp) (op : SuiteOp)
    (bound : x < microOpList.length) :
    directEdges (microOpList ++ [op]) x = directEdges microOpList x := by
  unfold directEdges
  rw [List.getElem?_append_left bound, List.take_append_of_le_length (Nat.le_of_lt bound)]

theorem directEdges_snoc_length (microOpList : List SuiteOp) (op : SuiteOp) :
    directEdges (microOpList ++ [op]) microOpList.length =
      ((globalsAfter microOpList).updateDirtyWriteCollection op ).directDependencies op := by
  simp [directEdges]

theorem directEdges_lt {y : ℕ} (edge : y ∈ directEdges microOpList x) : y < x := by
  unfold directEdges at edge
  cases lookup : microOpList[x]? with
  | none => simp [lookup] at edge
  | some op =>
    simp only [lookup] at edge
    have bound : x < microOpList.length := (List.getElem?_eq_some_iff.1 lookup).1
    have earlier := (globalsAfter_bounded (microOpList.take x)).directDependencies_lt op y edge
    rwa [globalsAfter_opList, List.length_take, Nat.min_eq_left (Nat.le_of_lt bound)] at earlier

theorem backward_directEdges (microOpList : List SuiteOp) :
    Backward fun x y => y ∈ directEdges microOpList x := by
  intro x y edge
  exact directEdges_lt edge

theorem transGen_congr_of_backward {left right : ℕ → ℕ → Prop} (backward : Backward left)
    {bound : ℕ} (same : ∀ x < bound, ∀ y, left x y → right x y) {y : ℕ} (below : x < bound)
    (path : TransGen left x y) :
    TransGen right x y := by
  induction path using TransGen.head_induction_on with
  | single step => exact TransGen.single (same _ below _ step)
  | head step _ ih =>
    exact TransGen.head (same _ below _ step) (ih (lt_trans (backward _ _ step) below))

/-- The constructor alone already enters exactly what is reachable through
its own direct edges. -/
theorem construct_exactAt (microOpList : List SuiteOp) : ∀ x < microOpList.length,
      ExactAt (fun x y => y ∈ directEdges microOpList x) (construct microOpList).deps x := by
  induction microOpList using List.reverseRecOn with
  | nil =>
    intro x bound
    exact absurd bound (Nat.not_lt_zero x)
  | append_singleton earlier op ih =>
    have sameBelow : ∀ x < earlier.length, ∀ y, y ∈ directEdges (earlier ++ [op]) x ↔
            y ∈ directEdges earlier x := by
      intro x bound y
      rw [directEdges_snoc_of_lt earlier op bound]
    have exactBelow : ∀ x < earlier.length, ExactAt (fun x y => y ∈ directEdges (earlier ++ [op]) x)
            (globalsAfter earlier).deps x := by
      intro x bound y
      refine (ih x bound y).trans ⟨?_, ?_⟩
      · exact transGen_congr_of_backward (backward_directEdges earlier)
          (fun z below w => (sameBelow z below w).2) bound
      · exact transGen_congr_of_backward (backward_directEdges (earlier ++ [op]))
          (fun z below w => (sameBelow z below w).1) bound
    intro x bound y
    rw [List.length_append, List.length_singleton] at bound
    change y ∈ (globalsAfter (earlier ++ [op])).deps x ↔ _
    rw [globalsAfter_snoc]
    rcases Nat.lt_succ_iff_lt_or_eq.1 bound with less | equal
    · rw [Globals.addOperation_deps_of_ne _ _ (by simp; omega)]
      exact exactBelow x less y
    · have atEnd := Globals.addOperation_deps_self (globalsAfter earlier) op
      rw [globalsAfter_opList] at atEnd
      rw [equal, atEnd, Globals.calculateDependencies_eq, Globals.updateDirtyWriteCollection_deps,
        ← directEdges_snoc_length]
      refine mem_union_biUnion_iff (fun z edge => edge) (fun z edge => TransGen.single edge) ?_ y
      intro z edge
      exact exactBelow z (directEdges_lt edge)

theorem construct_deps_of_le (past : microOpList.length ≤ x) :
    (construct microOpList).deps x = ∅ := by
  change (globalsAfter microOpList).deps x = ∅
  induction microOpList using List.reverseRecOn with
  | nil => rfl
  | append_singleton earlier op ih =>
    rw [List.length_append, List.length_singleton] at past
    rw [globalsAfter_snoc, Globals.addOperation_deps_of_ne _ _ (by simp; omega)]
    exact ih (by omega)

/-! ## Adding tuples -/

/-- The edges of the constructor together with added tuples. -/
def UnionEdge (microOpList : List SuiteOp) (tuples : List (ℕ × ℕ)) (x y : ℕ) : Prop :=
  (x, y) ∈ tuples ∨ y ∈ directEdges microOpList x

/-- A run of `add_dep` over valid tuples succeeds, keeps what the table held,
enters every tuple, and enters nothing that is unreachable. -/
theorem foldlM_addDep {edge : ℕ → ℕ → Prop} {count : ℕ}
    (valid : ∀ tuple ∈ tuples, tuple.1 < count ∧ tuple.2 < count)
    (isEdge : ∀ tuple ∈ tuples, edge tuple.1 tuple.2) {deps : ℕ → Finset ℕ}
    (sound : ∀ x, ∀ y ∈ deps x, TransGen edge x y) :
    ∃ result, tuples.foldlM (addDep count) deps = .ok result ∧ (∀ x, deps x ⊆ result x) ∧
      (∀ tuple ∈ tuples, tuple.2 ∈ result tuple.1) ∧ ∀ x, ∀ y ∈ result x, TransGen edge x y := by
  induction tuples generalizing deps with
  | nil => exact ⟨deps, rfl, fun x => Finset.Subset.refl _, by simp, sound⟩
  | cons tuple rest ih =>
    have tupleValid := valid tuple List.mem_cons_self
    have tupleEdge := isEdge tuple List.mem_cons_self
    let next := Function.update deps tuple.1 (deps tuple.1 ∪ deps tuple.2 ∪ {tuple.2})
    have grows : ∀ x, deps x ⊆ next x := by
      intro x y member
      by_cases same : x = tuple.1
      · subst same
        simp [next, member]
      · simpa [next, same] using member
    have nextSound : ∀ x, ∀ y ∈ next x, TransGen edge x y := by
      intro x y member
      by_cases same : x = tuple.1
      · subst same
        simp only [next, Function.update_self, Finset.mem_union, Finset.mem_singleton] at member
        rcases member with (own | deeper) | equal
        · exact sound _ y own
        · exact TransGen.head tupleEdge (sound _ y deeper)
        · exact equal ▸ TransGen.single tupleEdge
      · refine sound x y ?_
        simpa [next, same] using member
    obtain ⟨result, resultEq, resultGrows, entered, resultSound⟩ := ih
        (fun other member => valid other (List.mem_cons_of_mem _ member))
        (fun other member => isEdge other (List.mem_cons_of_mem _ member)) nextSound
    refine ⟨result, ?_, ?_, ?_, resultSound⟩
    · rw [List.foldlM_cons, addDep, if_pos tupleValid]
      exact resultEq
    · exact fun x => (grows x).trans (resultGrows x)
    · intro other member
      rcases List.mem_cons.1 member with equal | later
      · subst equal
        exact resultGrows _ (by simp [next])
      · exact entered other later

/-- Tuples that name operations of the list and point to earlier ones. -/
def ValidTuples (microOpList : List SuiteOp) (tuples : List (ℕ × ℕ)) : Prop :=
  ∀ tuple ∈ tuples, tuple.2 < tuple.1 ∧ tuple.1 < microOpList.length

theorem backward_unionEdge (valid : ValidTuples microOpList tuples) :
    Backward (UnionEdge microOpList tuples) := by
  rintro x y (added | direct)
  · exact (valid (x, y) added).1
  · exact directEdges_lt direct

/-- After `add_deps_to_ops` every entry is exactly reachability through the
added tuples and the edges of the constructor. -/
theorem addDepsToOps_exactAt (valid : ValidTuples microOpList tuples) :
    ∃ suite, (construct microOpList).addDepsToOps tuples = .ok suite ∧ suite.opList = microOpList ∧
      ∀ x < microOpList.length, ExactAt (UnionEdge microOpList tuples) suite.deps x := by
  have sorted := List.perm_insertionSort tupleLe tuples
  have constructorSound : ∀ x, ∀ y ∈ (construct microOpList).deps x,
        TransGen (UnionEdge microOpList tuples) x y := by
    intro x y member
    by_cases bound : x < microOpList.length
    · exact TransGen.mono (fun _ _ edge => Or.inr edge) x y
        ((construct_exactAt microOpList x bound y).1 member)
    · rw [construct_deps_of_le (Nat.le_of_not_lt bound)] at member
      exact absurd member (Finset.notMem_empty y)
  have countEq : (construct microOpList).opList.length = microOpList.length := by simp [construct]
  have inRange : ∀ tuple ∈ tuples.insertionSort tupleLe,
      tuple.1 < (construct microOpList).opList.length ∧
        tuple.2 < (construct microOpList).opList.length := by
    intro tuple member
    have bounds := valid tuple (sorted.mem_iff.1 member)
    omega
  have isEdge : ∀ tuple ∈ tuples.insertionSort tupleLe,
      UnionEdge microOpList tuples tuple.1 tuple.2 := by
    intro tuple member
    exact Or.inl (sorted.mem_iff.1 member)
  obtain ⟨merged, mergedEq, grows, entered, sound⟩ := foldlM_addDep inRange isEdge constructorSound
  refine ⟨{ construct microOpList with
      deps := forwardPass merged (construct microOpList).opList.length },
    ?_, by simp [construct], ?_⟩
  · rw [addDepsToOps, mergedEq]
    rfl
  · rw [countEq]
    refine forwardPass_exactAt (backward_unionEdge valid) ?_
    intro x bound
    refine ⟨?_, sound x⟩
    rintro y (added | direct)
    · exact entered (x, y) (sorted.mem_iff.2 added)
    · exact grows x ((construct_exactAt microOpList x bound y).2 (TransGen.single direct))

/-- A set of operation ids is accepted exactly when it is closed under the
edges whose reachability the `deps` are. -/
theorem testComboValidity_iff_closedUnder {edge : ℕ → ℕ → Prop} {suite : ALCTestSuite}
    (exact : ∀ x < suite.opList.length, ExactAt edge suite.deps x) {combo : Finset ℕ}
    (known : ∀ id ∈ combo, id < suite.opList.length) : suite.testComboValidity combo = .ok true ↔
      ClosedUnder edge {x | x ∈ combo} := by
  rw [testComboValidity, if_pos known, ← closedUnder_transGen_iff]
  simp only [Except.ok.injEq, decide_eq_true_eq]
  constructor
  · intro accepted x member y path
    exact accepted x member ((exact x (known x member) y).2 path)
  · intro closed x member y dependency
    exact closed x member y ((exact x (known x member) y).1 dependency)

/-- The `deps` are the reachable operations; so they are transitively closed,
point backward and are irreflexive, and every prefix is accepted. -/
theorem addDepsToOps_reachability
    (microOpList : List SuiteOp) (tuples : List (ℕ × ℕ))
    (valid : ValidTuples microOpList tuples) :
    ∃ suite, (construct microOpList).addDepsToOps tuples = .ok suite ∧
      (∀ x < microOpList.length, ∀ y,
        y ∈ suite.deps x ↔
          TransGen (UnionEdge microOpList tuples) x y) ∧
      (∀ x < microOpList.length, ∀ y ∈ suite.deps x,
        suite.deps y ⊆ suite.deps x) ∧
      (∀ x < microOpList.length, ∀ y ∈ suite.deps x, y < x) ∧
      (∀ x < microOpList.length, x ∉ suite.deps x) ∧
      ∀ bound ≤ microOpList.length,
        suite.testComboValidity (Finset.range bound) = .ok true := by
  obtain ⟨suite, suiteEq, sameList, exact⟩ := addDepsToOps_exactAt valid
  have backward := backward_unionEdge valid
  have earlier : ∀ x < microOpList.length, ∀ y ∈ suite.deps x, y < x := by
    intro x bound y member
    exact lt_of_transGen backward ((exact x bound y).1 member)
  refine ⟨suite, suiteEq, exact, ?_, earlier, ?_, ?_⟩
  · intro x bound y member z deeper
    have yBound : y < microOpList.length := lt_trans (earlier x bound y member) bound
    exact (exact x bound z).2 (((exact x bound y).1 member).trans ((exact y yBound z).1 deeper))
  · intro x bound member
    exact lt_irrefl x (earlier x bound x member)
  · intro bound inRange
    have known : ∀ id ∈ Finset.range bound, id < suite.opList.length := by
      intro id member
      rw [sameList]
      exact lt_of_lt_of_le (Finset.mem_range.1 member) inRange
    have closed : ClosedUnder (UnionEdge microOpList tuples) {x | x ∈ Finset.range bound} := by
      simpa only [Finset.mem_range] using closedUnder_initial_segment backward bound
    exact (testComboValidity_iff_closedUnder (sameList ▸ exact) known).2 closed

/-- A write, its `sync`, and a write to another inode, with one added
tuple. -/
theorem addDepsToOps_reachability_three :
    ValidTuples [.write 7 0 4, .sync 7 0 4, .write 8 0 1] [(2, 0)] ∧
    ∃ suite, (construct [.write 7 0 4, .sync 7 0 4, .write 8 0 1]
        ).addDepsToOps [(2, 0)] = .ok suite ∧
      (∀ x < 3, ∀ y,
        y ∈ suite.deps x ↔
          TransGen (UnionEdge [.write 7 0 4, .sync 7 0 4, .write 8 0 1]
            [(2, 0)]) x y) ∧
      (∀ x < 3, ∀ y ∈ suite.deps x, suite.deps y ⊆ suite.deps x) ∧
      (∀ x < 3, ∀ y ∈ suite.deps x, y < x) ∧
      (∀ x < 3, x ∉ suite.deps x) ∧
      ∀ bound ≤ 3,
        suite.testComboValidity (Finset.range bound) = .ok true := by
  have valid : ValidTuples [.write 7 0 4, .sync 7 0 4, .write 8 0 1] [(2, 0)] := by
    simp [ValidTuples]
  exact ⟨valid, addDepsToOps_reachability [.write 7 0 4, .sync 7 0 4, .write 8 0 1] [(2, 0)] valid⟩

end ALCTestSuite

end Alice
