import Alice.AutoTest.Combos
import Alice.Checked

/-! # `drop_list_of_ops` and `keep_list_of_ops`

An operation is dropped with everything that depends on it, and kept with
everything it depends on.  The order in which a set is passed over is not
known. -/

namespace Alice

open Checked ClosedWalk

namespace ALCTestSuite

variable (suite : ALCTestSuite)

/-! ## The source -/

def lookUp (opIdList : List ℕ) : Except PyError (Finset ℕ) :=
  if ∀ id ∈ opIdList, id < suite.opList.length then
    .ok opIdList.toFinset
  else
    .error .keyError

/-- The loop over `op_set`, in some order. -/
def dropPass (opSet : List ℕ) (dropSet : Finset ℕ) : Finset ℕ :=
  opSet.foldl (fun dropped op =>
      if (suite.deps op ∩ dropped).Nonempty then insert op dropped
      else dropped)
    dropSet

/-- The outer loop, if it is left within a number of rounds. -/
def dropLoop (opSet : List ℕ) : ℕ → (prevlen droplen : ℕ) → Finset ℕ → Option (Finset ℕ)
  | 0, _, _, _ => none
  | rounds + 1, prevlen, droplen, dropSet =>
      if droplen = prevlen then
        some dropSet
      else
        let passed := suite.dropPass opSet dropSet
        dropLoop opSet rounds dropSet.card passed.card passed

/-- `drop_list_of_ops`: the ids that it returns. -/
def dropListOfOps (opSet opIdList : List ℕ) (rounds : ℕ) : Except PyError (Option (Finset ℕ)) := do
  let dropSet ← suite.lookUp opIdList
  pure ((suite.dropLoop opSet rounds dropSet.card 0 dropSet).map (opSet.toFinset \ ·))

/-- `keep_list_of_ops`: the ids that it returns. -/
def keepListOfOps (opIdList : List ℕ) : Except PyError (Finset ℕ) := do
  let keepSet ← suite.lookUp opIdList
  let kept := keepSet ∪ keepSet.biUnion suite.deps
  assertThat (Closed suite.deps kept)
  pure kept

/-! ## Dependents -/

/-- The operations that are in a set or depend on one of its members. -/
def dependents (dropped : Finset ℕ) : Finset ℕ :=
  (Finset.range suite.opList.length).filter fun op =>
    op ∈ dropped ∨ (suite.deps op ∩ dropped).Nonempty

variable {suite} {opSet opIdList : List ℕ} {dropped dropSet : Finset ℕ}

theorem lookUp_eq (known : ∀ id ∈ opIdList, id < suite.opList.length) :
    suite.lookUp opIdList = .ok opIdList.toFinset :=
  if_pos known

theorem mem_dependents_iff {op : ℕ} : op ∈ suite.dependents dropped ↔
      op < suite.opList.length ∧ (op ∈ dropped ∨ ∃ id ∈ suite.deps op, id ∈ dropped) := by
  simp [dependents, Finset.Nonempty]

section

variable (transitive : Transitive suite.deps suite.opList.length)
include transitive

theorem mem_dependents_of_deps {op id : ℕ} (inside : op < suite.opList.length)
    (needed : id ∈ suite.deps op) (dependent : id ∈ suite.dependents dropped) :
    op ∈ suite.dependents dropped := by
  rw [mem_dependents_iff] at dependent ⊢
  refine ⟨inside, Or.inr ?_⟩
  rcases dependent.2 with member | ⟨deeper, inDeps, member⟩
  · exact ⟨id, needed, member⟩
  · exact ⟨deeper, transitive.subset op inside id needed inDeps, member⟩

/-- A pass over some operations enters no more than the dependents, and of
these all that it comes to. -/
theorem dropPass_between (inside : ∀ op ∈ opSet, op < suite.opList.length)
    (below : dropped ⊆ dropSet) (above : dropSet ⊆ suite.dependents dropped) :
    dropSet ⊆ suite.dropPass opSet dropSet ∧
      suite.dropPass opSet dropSet ⊆ suite.dependents dropped ∧
      ∀ op ∈ opSet, (∃ id ∈ suite.deps op, id ∈ dropped) → op ∈ suite.dropPass opSet dropSet := by
  induction opSet generalizing dropSet with
  | nil => exact ⟨Finset.Subset.refl _, above, by simp⟩
  | cons op ops ih =>
    have rest := fun op member => inside op (List.mem_cons_of_mem _ member)
    have isInside := inside op List.mem_cons_self
    rw [dropPass, List.foldl_cons]
    by_cases meets : (suite.deps op ∩ dropSet).Nonempty
    · rw [if_pos meets]
      obtain ⟨id, member⟩ := meets
      have isDependent : op ∈ suite.dependents dropped := mem_dependents_of_deps transitive isInside
        (Finset.mem_inter.1 member).1 (above (Finset.mem_inter.1 member).2)
      obtain ⟨grows, bounded, found⟩ := ih rest (below.trans (Finset.subset_insert op dropSet))
          (Finset.insert_subset isDependent above)
      refine ⟨(Finset.subset_insert op dropSet).trans grows, bounded, ?_⟩
      intro other member needs
      rcases List.mem_cons.1 member with rfl | later
      · exact grows (Finset.mem_insert_self _ _)
      · exact found other later needs
    · rw [if_neg meets]
      obtain ⟨grows, bounded, found⟩ := ih rest below above
      refine ⟨grows, bounded, ?_⟩
      intro other member needs
      rcases List.mem_cons.1 member with rfl | later
      · obtain ⟨id, inDeps, isDropped⟩ := needs
        exact absurd ⟨id, Finset.mem_inter.2 ⟨inDeps, below isDropped⟩⟩ meets
      · exact found other later needs

/-- One pass over all operations finds all dependents, in whatever order. -/
theorem dropPass_eq_dependents (enumerates : ∀ op, op ∈ opSet ↔ op < suite.opList.length)
    (below : dropped ⊆ dropSet) (above : dropSet ⊆ suite.dependents dropped) :
    suite.dropPass opSet dropSet = suite.dependents dropped := by
  obtain ⟨grows, bounded, found⟩ :=
    dropPass_between transitive (fun op member => (enumerates op).1 member) below above
  refine Finset.Subset.antisymm bounded fun op dependent => ?_
  obtain ⟨inside, member | needs⟩ := mem_dependents_iff.1 dependent
  · exact grows (below member)
  · exact found op ((enumerates op).2 inside) needs

/-- The loop is left after two passes at the latest, with all dependents. -/
theorem dropLoop_eq_dependents (enumerates : ∀ op, op ∈ opSet ↔ op < suite.opList.length)
    (known : ∀ op ∈ dropped, op < suite.opList.length) :
    suite.dropLoop opSet 3 dropped.card 0 dropped = some (suite.dependents dropped) := by
  have below : dropped ⊆ suite.dependents dropped := fun op member =>
    mem_dependents_iff.2 ⟨known op member, Or.inl member⟩
  have first : suite.dropPass opSet dropped = suite.dependents dropped :=
    dropPass_eq_dependents transitive enumerates (Finset.Subset.refl _) below
  have second : suite.dropPass opSet (suite.dependents dropped) = suite.dependents dropped :=
    dropPass_eq_dependents transitive enumerates below (Finset.Subset.refl _)
  rw [dropLoop]
  split_ifs with none
  · -- Nothing is dropped, and the loop is not entered.
    obtain rfl := Finset.card_eq_zero.1 none.symm
    congr 1
    ext op
    simp [mem_dependents_iff]
  · rw [dropLoop, first]
    split_ifs with stable
    · rfl
    · rw [dropLoop, second, if_pos rfl]

end

/-! ## Closure operators -/

theorem testComboValidity_accepts_iff {combo : Finset ℕ} :
    suite.testComboValidity combo = .ok true ↔
      combo ⊆ Finset.range suite.opList.length ∧ Closed suite.deps combo := by
  constructor
  · intro accepted
    have known : combo ⊆ Finset.range suite.opList.length := by
      rw [testComboValidity] at accepted
      split_ifs at accepted with known
      exact fun id member => Finset.mem_range.2 (known id member)
    exact ⟨known, (testComboValidity_eq_ok_true_iff known).1 accepted⟩
  · rintro ⟨known, closed⟩
    exact (testComboValidity_eq_ok_true_iff known).2 closed

theorem isGreatest_sdiff_dependents (transitive : Transitive suite.deps suite.opList.length)
    (enumerates : ∀ op, op ∈ opSet ↔ op < suite.opList.length) : IsGreatest
      {combo | suite.testComboValidity combo = .ok true ∧ Disjoint dropped combo}
      (opSet.toFinset \ suite.dependents dropped) := by
  have mem_iff : ∀ op, op ∈ opSet.toFinset \ suite.dependents dropped ↔
      op < suite.opList.length ∧ op ∉ suite.dependents dropped := by
    intro op
    rw [Finset.mem_sdiff, List.mem_toFinset, enumerates]
  refine ⟨⟨testComboValidity_accepts_iff.2 ⟨?_, ?_⟩, ?_⟩, ?_⟩
  · exact fun op member => Finset.mem_range.2 ((mem_iff op).1 member).1
  · intro op member id needed
    obtain ⟨isInside, notDependent⟩ := (mem_iff op).1 member
    have before := transitive.backward op isInside id needed
    exact (mem_iff id).2 ⟨before.trans isInside, fun dependent =>
      notDependent (mem_dependents_of_deps transitive isInside needed dependent)⟩
  · rw [Finset.disjoint_left]
    intro op member notDropped
    obtain ⟨isInside, notDependent⟩ := (mem_iff op).1 notDropped
    exact notDependent (mem_dependents_iff.2 ⟨isInside, Or.inl member⟩)
  · rintro combo ⟨accepted, disjoint⟩ op member
    obtain ⟨known, closed⟩ := testComboValidity_accepts_iff.1 accepted
    refine (mem_iff op).2 ⟨Finset.mem_range.1 (known member), fun dependent => ?_⟩
    rcases (mem_dependents_iff.1 dependent).2 with
      isDropped | ⟨id, needed, isDropped⟩
    · exact Finset.disjoint_left.1 disjoint isDropped member
    · exact Finset.disjoint_left.1 disjoint isDropped (closed op member needed)

section

variable {keepSet : Finset ℕ} (transitive : Transitive suite.deps suite.opList.length)
  (known : ∀ op ∈ keepSet, op < suite.opList.length)
include transitive known

theorem closed_union_deps :
    Closed suite.deps (keepSet ∪ keepSet.biUnion suite.deps) := by
  intro op member id needed
  refine Finset.mem_union_right _ (Finset.mem_biUnion.2 ?_)
  rcases Finset.mem_union.1 member with kept | dependency
  · exact ⟨op, kept, needed⟩
  · obtain ⟨root, kept, inDeps⟩ := Finset.mem_biUnion.1 dependency
    exact ⟨root, kept, transitive.subset root (known root kept) op inDeps needed⟩

theorem isLeast_union_deps : IsLeast
      {combo | suite.testComboValidity combo = .ok true ∧ keepSet ⊆ combo}
      (keepSet ∪ keepSet.biUnion suite.deps) := by
  have closed := closed_union_deps transitive known
  refine ⟨⟨testComboValidity_accepts_iff.2 ⟨?_, closed⟩, Finset.subset_union_left⟩, ?_⟩
  · intro op member
    rw [Finset.mem_range]
    rcases Finset.mem_union.1 member with kept | dependency
    · exact known op kept
    · obtain ⟨root, kept, inDeps⟩ := Finset.mem_biUnion.1 dependency
      exact (transitive.backward root (known root kept) op inDeps).trans (known root kept)
  · rintro combo ⟨accepted, contains⟩ op member
    obtain ⟨-, closedCombo⟩ := testComboValidity_accepts_iff.1 accepted
    rcases Finset.mem_union.1 member with kept | dependency
    · exact contains kept
    · obtain ⟨root, kept, inDeps⟩ := Finset.mem_biUnion.1 dependency
      exact closedCombo root (contains kept) inDeps

end

/-- Dropping returns the largest accepted set without the given operations,
and keeping the smallest accepted set that holds them. -/
theorem drop_and_keep_closures
    (suite : ALCTestSuite)
    (transitive : Transitive suite.deps suite.opList.length)
    (opSet dropIds keepIds : List ℕ)
    (enumerates : ∀ op, op ∈ opSet ↔ op < suite.opList.length)
    (knownDrops : ∀ id ∈ dropIds, id < suite.opList.length)
    (knownKeeps : ∀ id ∈ keepIds, id < suite.opList.length) :
    (∃ rounds remaining,
      suite.dropListOfOps opSet dropIds rounds = .ok (some remaining) ∧
        IsGreatest
          {combo | suite.testComboValidity combo = .ok true ∧
            Disjoint dropIds.toFinset combo} remaining) ∧
      ∃ kept, suite.keepListOfOps keepIds = .ok kept ∧
        IsLeast
          {combo | suite.testComboValidity combo = .ok true ∧ keepIds.toFinset ⊆ combo} kept := by
  constructor
  · have known : ∀ op ∈ dropIds.toFinset, op < suite.opList.length :=
      fun op member => knownDrops op (List.mem_toFinset.1 member)
    refine ⟨3, _, ?_, isGreatest_sdiff_dependents transitive enumerates⟩
    rw [dropListOfOps, lookUp_eq knownDrops, ok_bind,
      dropLoop_eq_dependents transitive enumerates known]
    rfl
  · have known : ∀ op ∈ keepIds.toFinset, op < suite.opList.length :=
      fun op member => knownKeeps op (List.mem_toFinset.1 member)
    refine ⟨_, ?_, isLeast_union_deps transitive known⟩
    have asserted : assertThat (Closed suite.deps
        (keepIds.toFinset ∪ keepIds.toFinset.biUnion suite.deps)) = .ok () :=
      if_pos (closed_union_deps transitive known)
    simp only [keepListOfOps, lookUp_eq knownKeeps, ok_bind, asserted]
    rfl

theorem drop_and_keep_closures_dependentWrites :
    (∃ rounds remaining,
      dependentWrites.dropListOfOps [2, 0, 1] [0] rounds =
          .ok (some remaining) ∧
        IsGreatest
          {combo | dependentWrites.testComboValidity combo = .ok true ∧
            Disjoint [0].toFinset combo} remaining) ∧
      ∃ kept, dependentWrites.keepListOfOps [1] = .ok kept ∧
        IsLeast
          {combo | dependentWrites.testComboValidity combo = .ok true ∧
            [1].toFinset ⊆ combo} kept :=
  drop_and_keep_closures dependentWrites transitive_dependentWrites
    [2, 0, 1] [0] [1]
    (fun op => by simp [dependentWrites]; omega)
    (by decide) (by decide)

end ALCTestSuite

end Alice
