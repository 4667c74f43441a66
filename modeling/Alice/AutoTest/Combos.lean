import Alice.ClosedWalk
import Alice.AutoTest.TestSuite

/-! # `count_combos` and `generate_combos`

Both walk over the end positions and drop operations on the way.  An operation
that is passed over because it depends on a dropped one is not recorded; this
does no harm to the count, but it stays in the collected combinations.

`max_combo_limit` is `None`, and neither `max_combos_tested` nor the depth of
the interpreter's stack is reached. -/

namespace Alice

open ClosedWalk

/-! ## Bit strings -/

abbrev BitString :=
  List Bool

namespace BitString

/-- `BitVector(size = size)`. -/
def zeros (size : ℕ) : BitString :=
  List.replicate size false

/-- `left & right`. -/
def and (left right : BitString) : BitString :=
  List.zipWith (· && ·) left right

/-- `vector[i] = 1`. -/
def setBit (vector : BitString) (i : ℕ) : BitString :=
  vector.set i true

def countBitsSparse (vector : BitString) : ℕ :=
  vector.count true

/-- The bit string of a set of positions. -/
def ofFinset (size : ℕ) (positions : Finset ℕ) : BitString :=
  (List.range size).map fun x => decide (x ∈ positions)

theorem zeros_eq_ofFinset (size : ℕ) : zeros size = ofFinset size ∅ := by
  simp [zeros, ofFinset]

theorem setBit_ofFinset (size i : ℕ) (positions : Finset ℕ) : (ofFinset size positions).setBit i =
      ofFinset size (insert i positions) := by
  apply List.ext_getElem
  · simp [setBit, ofFinset]
  · intro x _ _
    by_cases equal : i = x
    · simp [setBit, ofFinset, equal]
    · simp [setBit, ofFinset, equal, Ne.symm equal]

theorem and_ofFinset (size : ℕ) (left right : Finset ℕ) :
    (ofFinset size left).and (ofFinset size right) = ofFinset size (left ∩ right) := by
  apply List.ext_getElem
  · simp [and, ofFinset]
  · intro x _ _
    simp [and, ofFinset]

theorem countBitsSparse_ofFinset_eq_zero_iff {size : ℕ} {positions : Finset ℕ} :
    (ofFinset size positions).countBitsSparse = 0 ↔ ∀ x < size, x ∉ positions := by
  simp [countBitsSparse, ofFinset, List.count_eq_zero]

theorem countBitsSparse_and_eq_zero_iff {size : ℕ} {left right : Finset ℕ}
    (bounded : ∀ x ∈ left, x < size) :
    ((ofFinset size left).and (ofFinset size right)).countBitsSparse = 0 ↔
      Disjoint left right := by
  rw [and_ofFinset, countBitsSparse_ofFinset_eq_zero_iff, Finset.disjoint_left]
  constructor
  · intro absent x inLeft inRight
    exact absent x (bounded x inLeft) (Finset.mem_inter.2 ⟨inLeft, inRight⟩)
  · intro disjoint x _ member
    exact disjoint (Finset.mem_inter.1 member).1 (Finset.mem_inter.1 member).2

end BitString

namespace ALCTestSuite

/-! ## The source -/

def depsVector (suite : ALCTestSuite) (x : ℕ) : BitString :=
  BitString.ofFinset suite.opList.length (suite.deps x)

/-- The loop over `i` in `count_combos`, where `beyond` are the values that
are still to come.  The call of `count_combos` for the end position `i` counts
one combination and loops over the rest of `beyond`. -/
def countBeyond (suite : ALCTestSuite) : List ℕ → BitString → ℕ
  | [], _ => 0
  | i :: beyond, localDropVector =>
      if ((suite.depsVector i).and localDropVector).countBitsSparse = 0 then
        (1 + suite.countBeyond beyond localDropVector) +
          suite.countBeyond beyond (localDropVector.setBit i)
      else
        suite.countBeyond beyond localDropVector

/-- What `count_combos(0, end, drop_vector)` adds to `total_num_combos`, where
`next` is `end + 1`. -/
def countCombos (suite : ALCTestSuite) (next : ℕ) (dropVector : BitString) : ℕ :=
  (if 0 < next then 1 else 0) +
    suite.countBeyond (positionsFrom suite.opList.length next) dropVector

def countAllCombos (suite : ALCTestSuite) : ℕ :=
  suite.countCombos 0 (BitString.zeros suite.opList.length)

/-- `tuple(op_set_so_far)`: the operations up to the end position that are not
in the drop set, in their order. -/
def opSetSoFar (next : ℕ) (dropSet : Finset ℕ) : List ℕ :=
  (List.range next).filter fun x => x ∉ dropSet

/-- What a call of `generate_combos` adds to `generated_combos` itself. -/
def addedCombo (next : ℕ) (dropSet : Finset ℕ) : List (List ℕ) :=
  if opSetSoFar next dropSet = [] then [] else [opSetSoFar next dropSet]

/-- The loop over `i` in `generate_combos`, where `beyond` are the values that
are still to come. -/
def generateBeyond (suite : ALCTestSuite) : List ℕ → Finset ℕ → List (List ℕ)
  | [], _ => []
  | i :: beyond, localDropSet =>
      if (suite.deps i ∩ localDropSet).card = 0 then
        (addedCombo (i + 1) localDropSet ++
            suite.generateBeyond beyond localDropSet) ++
          suite.generateBeyond beyond (insert i localDropSet)
      else
        suite.generateBeyond beyond localDropSet

/-- The combinations that `generate_combos(0, end, drop_set)` adds, in their
order, where `next` is `end + 1`. -/
def generateCombos (suite : ALCTestSuite) (next : ℕ) (dropSet : Finset ℕ) : List (List ℕ) :=
  addedCombo next dropSet ++ suite.generateBeyond (positionsFrom suite.opList.length next) dropSet

def testValidity (suite : ALCTestSuite) (combo : List ℕ) : Bool :=
  combo.all fun op => decide (suite.deps op ⊆ combo.toFinset)

def combinations {α : Type} : ℕ → List α → List (List α)
  | 0, _ => [[]]
  | _ + 1, [] => []
  | size + 1, op :: rest =>
      (combinations size rest).map (op :: ·) ++ combinations (size + 1) rest

def tryAllCombos (suite : ALCTestSuite) : List (List ℕ) :=
  (List.range' 1 suite.opList.length).flatMap fun size =>
    (combinations size (List.range suite.opList.length)).filter suite.testValidity

/-! ## The recursive calls -/

variable {i : ℕ}

/-! ## Both are the walk over the closed sets -/

variable {suite : ALCTestSuite}

theorem countBeyond_eq_length_visits (transitive : Transitive suite.deps suite.opList.length) :
    ∀ (beyond : List ℕ) (dropped : Finset ℕ), (∀ i ∈ beyond, i < suite.opList.length) →
        suite.countBeyond beyond (BitString.ofFinset suite.opList.length dropped) =
          (visits suite.deps beyond dropped).length := by
  intro beyond
  induction beyond with
  | nil =>
    intro dropped _
    rfl
  | cons i beyond ih =>
    intro dropped inside
    have here : i < suite.opList.length := inside i List.mem_cons_self
    have later : ∀ x ∈ beyond, x < suite.opList.length :=
      fun x member => inside x (List.mem_cons_of_mem i member)
    have bounded : ∀ x ∈ suite.deps i, x < suite.opList.length :=
      fun x needed => (transitive.backward i here x needed).trans here
    have test : ((BitString.ofFinset suite.opList.length (suite.deps i)).and
      (BitString.ofFinset suite.opList.length dropped) ).countBitsSparse = 0 ↔ Disjoint
      (suite.deps i) dropped := BitString.countBitsSparse_and_eq_zero_iff bounded
    by_cases allowed : Disjoint (suite.deps i) dropped
    · rw [countBeyond, depsVector, if_pos (test.2 allowed), visits, if_pos allowed,
        BitString.setBit_ofFinset, ih _ later, ih _ later, List.length_cons, List.length_append]
      omega
    · rw [countBeyond, depsVector, if_neg fun zero => allowed (test.1 zero),
        visits, if_neg allowed, ih _ later]

theorem generateBeyond_eq_visits (suite : ALCTestSuite) : ∀ (beyond : List ℕ) (dropped : Finset ℕ),
      suite.generateBeyond beyond dropped = (visits suite.deps beyond dropped).flatMap fun visit =>
          addedCombo (visit.1 + 1) visit.2 := by
  intro beyond
  induction beyond with
  | nil =>
    intro dropped
    rfl
  | cons i beyond ih =>
    intro dropped
    have test : (suite.deps i ∩ dropped).card = 0 ↔ Disjoint (suite.deps i) dropped := by
      rw [Finset.card_eq_zero, Finset.disjoint_iff_inter_eq_empty]
    by_cases allowed : Disjoint (suite.deps i) dropped
    · rw [generateBeyond, if_pos (test.2 allowed), visits, if_pos allowed,
        ih, ih, List.flatMap_cons, List.flatMap_append, List.append_assoc]
    · rw [generateBeyond, if_neg fun zero => allowed (test.1 zero), visits, if_neg allowed, ih]

theorem countAllCombos_eq_length_allVisits
    (transitive : Transitive suite.deps suite.opList.length) : suite.countAllCombos =
      (allVisits suite.deps suite.opList.length).length := by
  have inside : ∀ i ∈ positionsFrom suite.opList.length 0, i < suite.opList.length := by
    simp [positionsFrom]
  rw [countAllCombos, countCombos, if_neg (lt_irrefl 0), zero_add, BitString.zeros_eq_ofFinset,
    countBeyond_eq_length_visits transitive _ _ inside, allVisits]

/-! ## The count -/

theorem testComboValidity_eq_ok_true_iff {combo : Finset ℕ}
    (known : combo ⊆ Finset.range suite.opList.length) :
    suite.testComboValidity combo = .ok true ↔ Closed suite.deps combo := by
  have inside : ∀ id ∈ combo, id < suite.opList.length :=
    fun id member => Finset.mem_range.1 (known member)
  rw [testComboValidity, if_pos inside]
  simp [Closed]

/-- `count_all_combos` returns the number of non-empty combinations that
`test_validity` accepts. -/
theorem countAllCombos_eq_card
    (suite : ALCTestSuite)
    (transitive : Transitive suite.deps suite.opList.length) :
    suite.countAllCombos =
      ((Finset.range suite.opList.length).powerset.filter fun combo =>
        combo.Nonempty ∧ suite.testComboValidity combo = .ok true).card := by
  rw [countAllCombos_eq_length_allVisits transitive, length_allVisits transitive]
  congr 1
  apply Finset.filter_congr
  intro combo member
  rw [testComboValidity_eq_ok_true_iff (Finset.mem_powerset.1 member)]

/-- Two writes to one file, the second of which depends on the first, and a
write to another file. -/
def dependentWrites : ALCTestSuite where
  opList := [.write 7 0 4, .write 7 4 4, .write 8 0 1]
  deps := fun x => if x = 1 then {0} else ∅

theorem transitive_dependentWrites : Transitive dependentWrites.deps 3 where
  backward := by decide
  subset := by decide

theorem countAllCombos_eq_card_dependentWrites :
    Transitive dependentWrites.deps dependentWrites.opList.length ∧
      5 = ((Finset.range 3).powerset.filter fun combo =>
        combo.Nonempty ∧ dependentWrites.testComboValidity combo = .ok true).card :=
  ⟨transitive_dependentWrites, countAllCombos_eq_card dependentWrites transitive_dependentWrites⟩

/-! ## The combinations -/

theorem mem_combinations_iff {α : Type} (size : ℕ) (combo ops : List α) :
    combo ∈ combinations size ops ↔ combo.Sublist ops ∧ combo.length = size := by
  induction ops generalizing size combo with
  | nil =>
    cases size with
    | zero => simp [combinations]
    | succ size =>
      simp only [combinations, List.not_mem_nil, List.sublist_nil, false_iff, not_and]
      intro empty
      simp [empty]
  | cons op rest ih =>
    cases size with
    | zero =>
      simp only [combinations, List.mem_singleton, List.length_eq_zero_iff]
      constructor
      · intro empty
        exact ⟨empty ▸ List.nil_sublist _, empty⟩
      · intro empty
        exact empty.2
    | succ size =>
      rw [combinations, List.mem_append, List.mem_map, ih, List.sublist_cons_iff]
      constructor
      · rintro (⟨tail, member, equal⟩ | ⟨included, length⟩)
        · rw [ih] at member
          subst equal
          exact ⟨Or.inr ⟨tail, rfl, member.1⟩, congrArg (· + 1) member.2⟩
        · exact ⟨Or.inl included, length⟩
      · rintro ⟨included | ⟨tail, equal, included⟩, length⟩
        · exact Or.inr ⟨included, length⟩
        · subst equal
          exact Or.inl ⟨tail, (ih size tail).2 ⟨included, Nat.succ.inj length⟩, rfl⟩

theorem testValidity_iff {combo : List ℕ} :
    suite.testValidity combo = true ↔ Closed suite.deps combo.toFinset := by
  simp [testValidity, Closed]

theorem mem_tryAllCombos_iff {combo : List ℕ} : combo ∈ suite.tryAllCombos ↔
      combo.Sublist (List.range suite.opList.length) ∧ combo ≠ [] ∧
        Closed suite.deps combo.toFinset := by
  rw [tryAllCombos, List.mem_flatMap]
  simp only [List.mem_filter, mem_combinations_iff, testValidity_iff]
  constructor
  · rintro ⟨size, sizeMember, ⟨included, length⟩, valid⟩
    have positive : 1 ≤ size := (List.mem_range'_1.1 sizeMember).1
    refine ⟨included, ?_, valid⟩
    intro empty
    subst empty
    simp only [List.length_nil] at length
    omega
  · rintro ⟨included, nonempty, valid⟩
    have positive : 0 < combo.length := List.length_pos_iff.2 nonempty
    have bounded : combo.length ≤ suite.opList.length := by simpa using included.length_le
    exact ⟨combo.length, List.mem_range'_1.2 ⟨positive, by omega⟩, ⟨included, rfl⟩, valid⟩

theorem opSetSoFar_sublist {next bound : ℕ} (inside : next ≤ bound) (dropSet : Finset ℕ) :
    (opSetSoFar next dropSet).Sublist (List.range bound) :=
  List.filter_sublist.trans (List.range_sublist.2 inside)

theorem mem_toFinset_opSetSoFar_iff {next x : ℕ} {dropSet : Finset ℕ} :
    x ∈ (opSetSoFar next dropSet).toFinset ↔ x < next ∧ x ∉ dropSet := by
  simp [opSetSoFar]

theorem eq_of_toFinset_eq {left right : List ℕ} {bound : ℕ}
    (leftIncluded : left.Sublist (List.range bound))
    (rightIncluded : right.Sublist (List.range bound)) (same : left.toFinset = right.toFinset) :
    left = right := by
  have sorted : (List.range bound).Pairwise (· < ·) := List.pairwise_lt_range
  apply (sorted.sublist leftIncluded).eq_of_mem_iff (sorted.sublist rightIncluded)
  intro x
  rw [← List.mem_toFinset, same, List.mem_toFinset]

/-- Every visit of the walk adds one combination. -/
theorem generateCombos_eq_map_allVisits (transitive : Transitive suite.deps suite.opList.length) :
    suite.generateCombos 0 ∅ = (allVisits suite.deps suite.opList.length).map fun visit =>
        opSetSoFar (visit.1 + 1) visit.2 := by
  have nothing : addedCombo 0 ∅ = [] := rfl
  have one : ∀ visit ∈ allVisits suite.deps suite.opList.length, addedCombo (visit.1 + 1) visit.2 =
        [opSetSoFar (visit.1 + 1) visit.2] := by
    intro visit member
    have found := visits_found transitive 0 (droppedBelow_empty 0) visit member
    have here : visit.1 ∈ opSetSoFar (visit.1 + 1) visit.2 := by
      rw [← List.mem_toFinset, mem_toFinset_opSetSoFar_iff]
      exact ⟨Nat.lt_succ_self _, fun dropped => lt_irrefl _ (found.2.1.lt visit.1 dropped)⟩
    rw [addedCombo, if_neg (List.ne_nil_of_mem here)]
  rw [generateCombos, nothing, List.nil_append, generateBeyond_eq_visits,
    ← allVisits, List.map_eq_flatMap]
  exact List.flatMap_congr one

/-- Every operation depends on whatever an earlier one depends on. -/
def Nested (suite : ALCTestSuite) : Prop :=
  ∀ j k, j < k → k < suite.opList.length → suite.deps j ⊆ suite.deps k

section

variable (nested : suite.Nested) (transitive : Transitive suite.deps suite.opList.length)
include nested transitive

/-- If dependencies are nested, an operation that is passed over is never
followed by one that is taken. -/
theorem Nested.toFinset_opSetSoFar {visit : ℕ × Finset ℕ}
    (member : visit ∈ allVisits suite.deps suite.opList.length) :
    (opSetSoFar (visit.1 + 1) visit.2).toFinset = reached suite.deps visit := by
  have found := visits_found transitive 0 (droppedBelow_empty 0) visit member
  ext x
  rw [mem_toFinset_opSetSoFar_iff, reached, mem_kept_iff]
  constructor
  · rintro ⟨before, notDropped⟩
    have fewer : suite.deps x ⊆ suite.deps visit.1 := by
      rcases Nat.lt_succ_iff_lt_or_eq.1 before with earlier | equal
      · exact nested x visit.1 earlier found.1
      · rw [equal]
    exact ⟨before, notDropped, Finset.disjoint_of_subset_left fewer found.2.2⟩
  · rintro ⟨before, notDropped, -⟩
    exact ⟨before, notDropped⟩

theorem Nested.mem_generateCombos_iff (combo : List ℕ) :
    combo ∈ suite.generateCombos 0 ∅ ↔ combo ∈ suite.tryAllCombos := by
  have reaches := mem_map_reached_allVisits_iff transitive
  rw [generateCombos_eq_map_allVisits transitive, mem_tryAllCombos_iff, List.mem_map]
  constructor
  · rintro ⟨visit, member, equal⟩
    subst equal
    have found := visits_found transitive 0 (droppedBelow_empty 0) visit member
    rcases (reaches _).1 (List.mem_map_of_mem member) with
      ⟨-, nonempty, closed⟩
    rw [← nested.toFinset_opSetSoFar transitive member] at nonempty closed
    refine ⟨opSetSoFar_sublist found.1 visit.2, ?_, closed⟩
    intro empty
    rw [empty] at nonempty
    simp at nonempty
  · rintro ⟨included, nonempty, closed⟩
    have bounded : combo.toFinset ⊆ Finset.range suite.opList.length := by
      intro x member
      rw [List.mem_toFinset] at member
      simpa using included.subset member
    have visited := (reaches combo.toFinset).2
      ⟨bounded, (List.toFinset_nonempty_iff combo).2 nonempty, closed⟩
    rcases List.mem_map.1 visited with ⟨visit, member, equal⟩
    have found := visits_found transitive 0 (droppedBelow_empty 0) visit member
    refine ⟨visit, member, ?_⟩
    apply eq_of_toFinset_eq (opSetSoFar_sublist found.1 visit.2) included
    rw [nested.toFinset_opSetSoFar transitive member, equal]

theorem Nested.nodup_generateCombos :
    (suite.generateCombos 0 ∅).Nodup := by
  apply List.Nodup.of_map List.toFinset
  have same : (suite.generateCombos 0 ∅).map List.toFinset =
        (allVisits suite.deps suite.opList.length).map (reached suite.deps) := by
    rw [generateCombos_eq_map_allVisits transitive, List.map_map]
    exact List.map_congr_left fun visit member => nested.toFinset_opSetSoFar transitive member
  rw [same]
  exact nodup_map_reached_allVisits transitive

end

/-- Let `j` depend on `i`, and a later `k` not.  The walk visits the set of
`k` with whatever `k` and `i` depend on.  On the way there `i` is dropped and
`j` is passed over, so the combination added for `k` holds `j` without
`i`. -/
theorem exists_invalid_generated (transitive : Transitive suite.deps suite.opList.length)
    {j k : ℕ} (needed : i ∈ suite.deps j) (before : j < k) (inside : k < suite.opList.length)
    (free : i ∉ suite.deps k) : ∃ combo ∈ suite.generateCombos 0 ∅,
      j ∈ combo.toFinset ∧ i ∉ combo.toFinset := by
  have jInside : j < suite.opList.length := before.trans inside
  have iBefore : i < j := transitive.backward j jInside i needed
  have iInside : i < suite.opList.length := iBefore.trans jInside
  have notItself : i ∉ suite.deps i := fun self =>
    lt_irrefl i (transitive.backward i iInside i self)
  let combo := insert k (suite.deps k ∪ suite.deps i)
  have closed : Closed suite.deps combo := by
    intro x member
    rw [Finset.mem_insert, Finset.mem_union] at member
    intro y deeper
    rw [Finset.mem_insert, Finset.mem_union]
    rcases member with equal | ofK | ofI
    · exact Or.inr (Or.inl (equal ▸ deeper))
    · exact Or.inr (Or.inl (transitive.subset k inside x ofK deeper))
    · exact Or.inr (Or.inr (transitive.subset i iInside x ofI deeper))
  have bounded : ∀ x ∈ combo, x ≤ k := by
    intro x member
    rw [Finset.mem_insert, Finset.mem_union] at member
    rcases member with equal | ofK | ofI
    · exact equal.le
    · exact (transitive.backward k inside x ofK).le
    · exact ((transitive.backward i iInside x ofI).trans (iBefore.trans before)).le
  have visited := (mem_map_reached_allVisits_iff transitive combo).2 ⟨fun x member =>
        Finset.mem_range.2 ((bounded x member).trans_lt inside),
      ⟨k, Finset.mem_insert_self k _⟩, closed⟩
  rcases List.mem_map.1 visited with ⟨visit, member, equal⟩
  have found := visits_found transitive 0 (droppedBelow_empty 0) visit member
  have taken : ∀ x, x ∈ combo ↔ x < visit.1 + 1 ∧ x ∉ visit.2 ∧
        Disjoint (suite.deps x) visit.2 := by
    intro x
    rw [← equal, reached, mem_kept_iff]
  have kTaken := (taken k).1 (Finset.mem_insert_self k _)
  have iDropped : i ∈ visit.2 := by
    by_contra notDropped
    have allowed : Disjoint (suite.deps i) visit.2 := by
      apply Finset.disjoint_left.2
      intro x ofI
      exact ((taken x).1 (Finset.mem_insert_of_mem (Finset.mem_union_right _ ofI))).2.1
    have present : i ∈ combo := (taken i).2
      ⟨(iBefore.trans before).trans kTaken.1, notDropped, allowed⟩
    rw [Finset.mem_insert, Finset.mem_union] at present
    rcases present with equal | ofK | ofI
    · exact (iBefore.trans before).ne equal
    · exact free ofK
    · exact notItself ofI
  have jNotDropped : j ∉ visit.2 := fun dropped =>
    Finset.disjoint_left.1 (found.2.1.disjoint j dropped) needed iDropped
  refine ⟨opSetSoFar (visit.1 + 1) visit.2, ?_, ?_, ?_⟩
  · rw [generateCombos_eq_map_allVisits transitive]
    exact List.mem_map_of_mem member
  · exact mem_toFinset_opSetSoFar_iff.2 ⟨before.trans kTaken.1, jNotDropped⟩
  · intro present
    exact (mem_toFinset_opSetSoFar_iff.1 present).2 iDropped

/-- `generate_combos` agrees with the enumeration by brute force exactly when
the dependencies are nested. -/
theorem generateCombos_eq_tryAllCombos_iff
    (suite : ALCTestSuite)
    (transitive : Transitive suite.deps suite.opList.length) :
    ((∀ combo,
        combo ∈ suite.generateCombos 0 ∅ ↔ combo ∈ suite.tryAllCombos) ∧
      (suite.generateCombos 0 ∅).Nodup) ↔
      suite.Nested := by
  constructor
  · rintro ⟨agree, -⟩ j k before inside i needed
    by_contra free
    rcases exists_invalid_generated transitive needed before inside free with
      ⟨combo, generated, present, absent⟩
    have valid := (mem_tryAllCombos_iff.1 ((agree combo).1 generated)).2.2
    exact absent (valid j present needed)
  · intro nested
    exact ⟨nested.mem_generateCombos_iff transitive, nested.nodup_generateCombos transitive⟩

/-- Three operations, each of which depends on all earlier ones. -/
def chain : ALCTestSuite where
  opList := [.write 7 0 4, .sync 7 0 4, .sync 7 0 4]
  deps := Finset.range

theorem transitive_chain : Transitive chain.deps 3 where
  backward := by decide
  subset := by decide

theorem generateCombos_eq_tryAllCombos_chain :
    Transitive chain.deps chain.opList.length ∧
      ((∀ combo,
          combo ∈ chain.generateCombos 0 ∅ ↔ combo ∈ chain.tryAllCombos) ∧
        (chain.generateCombos 0 ∅).Nodup) := by
  have nested : chain.Nested := by
    intro j k before _
    exact Finset.range_subset_range.2 before.le
  exact ⟨transitive_chain, (generateCombos_eq_tryAllCombos_iff chain transitive_chain).2 nested⟩

/-- The suite of three writes, with the second made to depend on the first:
the last two are generated together, without the first. -/
theorem generateCombos_addDepsToOps_invalid :
    ∃ suite,
      (construct [.write 7 0 4, .write 7 4 4, .write 8 0 1]).addDepsToOps
          [(1, 0)] = .ok suite ∧
        Transitive suite.deps suite.opList.length ∧
        [1, 2] ∈ suite.generateCombos 0 ∅ ∧ [1, 2] ∉ suite.tryAllCombos ∧
        [2] ∈ suite.tryAllCombos ∧ [2] ∉ suite.generateCombos 0 ∅ := by
  refine ⟨_, rfl, ⟨?_, ?_⟩, ?_, ?_, ?_, ?_⟩ <;> decide

end ALCTestSuite

end Alice
