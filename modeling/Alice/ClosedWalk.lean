import Mathlib.Data.Finset.Powerset

/-! # Walking over the closed sets of a table of predecessors

The walk takes the positions in order: one that needs a dropped position is
passed over and not recorded, any other is first taken and then dropped.  If
the table is transitive, every closed set is visited exactly once. -/

namespace ClosedWalk

variable {deps : ℕ → Finset ℕ}

/-- The end positions that the walk visits, each with what has been dropped
before it, when the positions of `beyond` are still to come. -/
def visits (deps : ℕ → Finset ℕ) : List ℕ → Finset ℕ → List (ℕ × Finset ℕ)
  | [], _ => []
  | i :: beyond, dropped =>
      if Disjoint (deps i) dropped then
        (i, dropped) :: (visits deps beyond dropped ++ visits deps beyond (insert i dropped))
      else
        visits deps beyond dropped

/-- The positions below `i` that are taken when `dropped` is dropped. -/
def kept (deps : ℕ → Finset ℕ) (dropped : Finset ℕ) (i : ℕ) : Finset ℕ :=
  (Finset.range i).filter fun x => x ∉ dropped ∧ Disjoint (deps x) dropped

def reached (deps : ℕ → Finset ℕ) (visit : ℕ × Finset ℕ) : Finset ℕ :=
  kept deps visit.2 (visit.1 + 1)

def Closed (deps : ℕ → Finset ℕ) (combo : Finset ℕ) : Prop :=
  ∀ x ∈ combo, deps x ⊆ combo

instance (combo : Finset ℕ) : Decidable (Closed deps combo) :=
  inferInstanceAs (Decidable (∀ x ∈ combo, deps x ⊆ combo))

/-- Below `bound`, everything that is needed comes earlier, and the table is
transitive. -/
structure Transitive (deps : ℕ → Finset ℕ) (bound : ℕ) : Prop where
  backward : ∀ x < bound, ∀ y ∈ deps x, y < x
  subset : ∀ x < bound, ∀ y ∈ deps x, deps y ⊆ deps x

/-- What holds of the dropped positions when the walk is at `i`: no dropped
position needs another one. -/
structure DroppedBelow (deps : ℕ → Finset ℕ) (dropped : Finset ℕ) (i : ℕ) : Prop where
  lt : ∀ x ∈ dropped, x < i
  disjoint : ∀ x ∈ dropped, Disjoint (deps x) dropped

theorem droppedBelow_empty (i : ℕ) : DroppedBelow deps ∅ i where
  lt := by simp
  disjoint := by simp

variable {dropped combo : Finset ℕ} {i bound : ℕ}

theorem DroppedBelow.succ (below : DroppedBelow deps dropped i) :
    DroppedBelow deps dropped (i + 1) where
  lt x member := Nat.lt_succ_of_lt (below.lt x member)
  disjoint := below.disjoint

theorem DroppedBelow.drop (transitive : Transitive deps bound) (inside : i < bound)
    (below : DroppedBelow deps dropped i) (allowed : Disjoint (deps i) dropped) :
    DroppedBelow deps (insert i dropped) (i + 1) where
  lt x member := by
    rcases Finset.mem_insert.1 member with equal | earlier
    · exact equal ▸ Nat.lt_succ_self i
    · exact Nat.lt_succ_of_lt (below.lt x earlier)
  disjoint x member := by
    rw [Finset.disjoint_insert_right]
    rcases Finset.mem_insert.1 member with equal | earlier
    · subst equal
      have notItself : x ∉ deps x := fun needed =>
        lt_irrefl x (transitive.backward x inside x needed)
      exact ⟨notItself, allowed⟩
    · have before : x < i := below.lt x earlier
      have notLater : i ∉ deps x := fun needed =>
        absurd (transitive.backward x (before.trans inside) i needed) (not_lt.2 before.le)
      exact ⟨notLater, below.disjoint x earlier⟩

/-! ## What is taken -/

theorem mem_kept_iff {x : ℕ} : x ∈ kept deps dropped i ↔
      x < i ∧ x ∉ dropped ∧ Disjoint (deps x) dropped := by
  simp [kept]

theorem kept_succ_of_blocked (blocked : ¬ Disjoint (deps i) dropped) :
    kept deps dropped (i + 1) = kept deps dropped i := by
  ext x
  simp only [mem_kept_iff, Nat.lt_succ_iff_lt_or_eq]
  constructor
  · rintro ⟨before | equal, notDropped, allowed⟩
    · exact ⟨before, notDropped, allowed⟩
    · exact absurd (equal ▸ allowed) blocked
  · rintro ⟨before, rest⟩
    exact ⟨Or.inl before, rest⟩

theorem kept_succ_of_allowed (below : DroppedBelow deps dropped i)
    (allowed : Disjoint (deps i) dropped) :
    kept deps dropped (i + 1) = insert i (kept deps dropped i) := by
  have notDropped : i ∉ dropped := fun member => lt_irrefl i (below.lt i member)
  ext x
  simp only [mem_kept_iff, Finset.mem_insert, Nat.lt_succ_iff_lt_or_eq]
  constructor
  · rintro ⟨before | equal, rest⟩
    · exact Or.inr ⟨before, rest⟩
    · exact Or.inl equal
  · rintro (equal | ⟨before, rest⟩)
    · subst equal
      exact ⟨Or.inr rfl, notDropped, allowed⟩
    · exact ⟨Or.inl before, rest⟩

theorem kept_drop (transitive : Transitive deps bound) (inside : i < bound) :
    kept deps (insert i dropped) (i + 1) = kept deps dropped i := by
  ext x
  simp only [mem_kept_iff, Finset.mem_insert, not_or, Finset.disjoint_insert_right]
  constructor
  · rintro ⟨before, ⟨different, notDropped⟩, -, allowed⟩
    exact ⟨lt_of_le_of_ne (Nat.lt_succ_iff.1 before) different, notDropped, allowed⟩
  · rintro ⟨before, notDropped, allowed⟩
    have notLater : i ∉ deps x := fun needed =>
      absurd (transitive.backward x (before.trans inside) i needed) (not_lt.2 before.le)
    exact ⟨Nat.lt_succ_of_lt before, ⟨before.ne, notDropped⟩, notLater, allowed⟩

/-- A position that needs nothing dropped finds everything it needs among the
positions taken, because the table is transitive. -/
theorem subset_kept_of_disjoint {x : ℕ} (transitive : Transitive deps bound) (inside : x < bound)
    (reachable : x ≤ i) (allowed : Disjoint (deps x) dropped) : deps x ⊆ kept deps dropped i := by
  intro y needed
  have before : y < x := transitive.backward x inside y needed
  exact mem_kept_iff.2 ⟨lt_of_lt_of_le before reachable, Finset.disjoint_left.1 allowed needed,
      Finset.disjoint_of_subset_left (transitive.subset x inside y needed) allowed⟩

theorem closed_kept (transitive : Transitive deps bound) (inside : i ≤ bound) :
    Closed deps (kept deps dropped i) := by
  intro x member
  rcases mem_kept_iff.1 member with ⟨before, -, allowed⟩
  exact subset_kept_of_disjoint transitive (before.trans_le inside) before.le allowed

theorem disjoint_of_subset_kept {needed : Finset ℕ} (included : needed ⊆ kept deps dropped i) :
    Disjoint needed dropped :=
  Finset.disjoint_left.2 fun _ member => (mem_kept_iff.1 (included member)).2.1

/-! ## The sets still to be visited -/

/-- The closed sets that begin like the walk at `i` and go on beyond. -/
structure Ahead (deps : ℕ → Finset ℕ) (bound : ℕ) (dropped : Finset ℕ) (i : ℕ)
    (combo : Finset ℕ) : Prop where
  bounded : ∀ x ∈ combo, x < bound
  closed : Closed deps combo
  below : ∀ x < i, x ∈ combo ↔ x ∈ kept deps dropped i
  beyond : ∃ x ∈ combo, i ≤ x

theorem not_ahead_of_le (finished : bound ≤ i) : ¬ Ahead deps bound dropped i combo := by
  intro ahead
  rcases ahead.beyond with ⟨x, member, late⟩
  exact absurd (ahead.bounded x member) (not_lt.2 (finished.trans late))

theorem Ahead.of_succ {later : Finset ℕ}
    (agree : ∀ x < i, x ∈ kept deps later (i + 1) ↔ x ∈ kept deps dropped i)
    (ahead : Ahead deps bound later (i + 1) combo) : Ahead deps bound dropped i combo where
  bounded := ahead.bounded
  closed := ahead.closed
  below x before := by rw [ahead.below x (Nat.lt_succ_of_lt before), agree x before]
  beyond := by
    rcases ahead.beyond with ⟨x, member, late⟩
    exact ⟨x, member, (Nat.le_succ i).trans late⟩

theorem Ahead.succ_of_not_mem {later : Finset ℕ}
    (same : kept deps later (i + 1) = kept deps dropped i)
    (ahead : Ahead deps bound dropped i combo) (notTaken : i ∉ combo) :
    Ahead deps bound later (i + 1) combo where
  bounded := ahead.bounded
  closed := ahead.closed
  below x before := by
    rw [same]
    rcases Nat.lt_succ_iff_lt_or_eq.1 before with earlier | equal
    · exact ahead.below x earlier
    · subst equal
      exact iff_of_false notTaken fun member => lt_irrefl x (mem_kept_iff.1 member).1
  beyond := by
    rcases ahead.beyond with ⟨x, member, late⟩
    have different : i ≠ x := fun equal => notTaken (equal ▸ member)
    exact ⟨x, member, lt_of_le_of_ne late different⟩

theorem ahead_of_blocked (transitive : Transitive deps bound) (inside : i < bound)
    (blocked : ¬ Disjoint (deps i) dropped) : Ahead deps bound dropped i combo ↔
      Ahead deps bound dropped (i + 1) combo := by
  have same := kept_succ_of_blocked blocked
  constructor
  · intro ahead
    apply ahead.succ_of_not_mem same
    intro member
    apply blocked
    apply disjoint_of_subset_kept
    intro y needed
    exact (ahead.below y (transitive.backward i inside y needed)).1 (ahead.closed i member needed)
  · intro ahead
    apply ahead.of_succ
    intro x _
    rw [same]

theorem Ahead.taken_cases (droppedBelow : DroppedBelow deps dropped i)
    (allowed : Disjoint (deps i) dropped) (ahead : Ahead deps bound dropped i combo)
    (taken : i ∈ combo) : combo = kept deps dropped (i + 1) ∨
      Ahead deps bound dropped (i + 1) combo := by
  have below : ∀ x < i + 1, (x ∈ combo ↔ x ∈ kept deps dropped (i + 1)) := by
    intro x before
    rw [kept_succ_of_allowed droppedBelow allowed, Finset.mem_insert]
    rcases Nat.lt_succ_iff_lt_or_eq.1 before with earlier | equal
    · simp [ahead.below x earlier, earlier.ne]
    · simp [equal, taken]
  by_cases further : ∃ x ∈ combo, i + 1 ≤ x
  · exact Or.inr ⟨ahead.bounded, ahead.closed, below, further⟩
  · apply Or.inl
    ext x
    constructor
    · intro member
      have before : x < i + 1 := by
        by_contra late
        exact further ⟨x, member, not_lt.1 late⟩
      exact (below x before).1 member
    · intro member
      exact (below x (mem_kept_iff.1 member).1).2 member

section

variable (transitive : Transitive deps bound) (inside : i < bound)
  (droppedBelow : DroppedBelow deps dropped i) (allowed : Disjoint (deps i) dropped)
include transitive inside droppedBelow allowed

theorem ahead_kept_succ :
    Ahead deps bound dropped i (kept deps dropped (i + 1)) := by
  have taking := kept_succ_of_allowed droppedBelow allowed
  refine ⟨?_, closed_kept transitive inside, ?_, i, ?_, le_rfl⟩
  · intro x member
    exact lt_of_lt_of_le (mem_kept_iff.1 member).1 inside
  · intro x before
    rw [taking, Finset.mem_insert]
    simp [before.ne]
  · rw [taking]
    exact Finset.mem_insert_self i _

/-- A set ahead either ends with `i`, or goes on after taking `i`, or goes on
after dropping `i`. -/
theorem ahead_of_allowed :
    Ahead deps bound dropped i combo ↔ combo = kept deps dropped (i + 1) ∨
        Ahead deps bound dropped (i + 1) combo ∨
          Ahead deps bound (insert i dropped) (i + 1) combo := by
  have dropping : kept deps (insert i dropped) (i + 1) =
      kept deps dropped i := kept_drop transitive inside
  constructor
  · intro ahead
    by_cases taken : i ∈ combo
    · rcases ahead.taken_cases droppedBelow allowed taken with ends | goesOn
      · exact Or.inl ends
      · exact Or.inr (Or.inl goesOn)
    · exact Or.inr (Or.inr (ahead.succ_of_not_mem dropping taken))
  · rintro (equal | ahead | ahead)
    · exact equal ▸ ahead_kept_succ transitive inside droppedBelow allowed
    · apply ahead.of_succ
      intro x before
      rw [kept_succ_of_allowed droppedBelow allowed, Finset.mem_insert]
      simp [before.ne]
    · apply ahead.of_succ
      intro x _
      rw [dropping]

end

/-! ## The walk -/

def positionsFrom (bound i : ℕ) : List ℕ :=
  List.range' i (bound - i)

theorem positionsFrom_of_le (finished : bound ≤ i) : positionsFrom bound i = [] := by
  simp [positionsFrom, Nat.sub_eq_zero_of_le finished]

theorem positionsFrom_of_lt (inside : i < bound) :
    positionsFrom bound i = i :: positionsFrom bound (i + 1) := by
  have length : bound - i = (bound - (i + 1)) + 1 := by omega
  rw [positionsFrom, length, List.range'_succ, positionsFrom]

/-- Induction along the positions, from the bound down. -/
theorem positions_induction (bound : ℕ) {motive : ℕ → Prop} (finished : ∀ i, bound ≤ i → motive i)
    (step : ∀ i, i < bound → motive (i + 1) → motive i) (i : ℕ) :
    motive i := by
  by_cases inside : i < bound
  · exact step i inside (positions_induction bound finished step (i + 1))
  · exact finished i (not_lt.1 inside)
termination_by bound - i

theorem visits_of_le (finished : bound ≤ i) (dropped : Finset ℕ) :
    visits deps (positionsFrom bound i) dropped = [] := by
  rw [positionsFrom_of_le finished, visits]

theorem visits_of_blocked (inside : i < bound) (blocked : ¬ Disjoint (deps i) dropped) :
    visits deps (positionsFrom bound i) dropped =
      visits deps (positionsFrom bound (i + 1)) dropped := by
  rw [positionsFrom_of_lt inside, visits, if_neg blocked]

theorem visits_of_allowed (inside : i < bound) (allowed : Disjoint (deps i) dropped) :
    visits deps (positionsFrom bound i) dropped = (i, dropped) ::
        (visits deps (positionsFrom bound (i + 1)) dropped ++
          visits deps (positionsFrom bound (i + 1)) (insert i dropped)) := by
  rw [positionsFrom_of_lt inside, visits, if_pos allowed]

section

variable (transitive : Transitive deps bound)
include transitive

theorem visits_found (i : ℕ) : ∀ {dropped : Finset ℕ}, DroppedBelow deps dropped i →
      ∀ visit ∈ visits deps (positionsFrom bound i) dropped,
        visit.1 < bound ∧ DroppedBelow deps visit.2 visit.1 ∧ Disjoint (deps visit.1) visit.2 := by
  induction i using positions_induction bound with
  | finished i finished =>
    intro dropped _ visit member
    rw [visits_of_le finished] at member
    cases member
  | step i inside ih =>
    intro dropped below visit member
    by_cases allowed : Disjoint (deps i) dropped
    · rw [visits_of_allowed inside allowed, List.mem_cons, List.mem_append] at member
      rcases member with equal | taking | dropping
      · subst equal
        exact ⟨inside, below, allowed⟩
      · exact ih below.succ visit taking
      · exact ih (below.drop transitive inside allowed) visit dropping
    · rw [visits_of_blocked inside allowed] at member
      exact ih below.succ visit member

theorem mem_reached_iff (combo : Finset ℕ) (i : ℕ) :
    ∀ {dropped : Finset ℕ}, DroppedBelow deps dropped i →
      (combo ∈ (visits deps (positionsFrom bound i) dropped).map (reached deps) ↔
        Ahead deps bound dropped i combo) := by
  induction i using positions_induction bound with
  | finished i finished =>
    intro dropped _
    rw [visits_of_le finished]
    simp [not_ahead_of_le finished]
  | step i inside ih =>
    intro dropped below
    by_cases allowed : Disjoint (deps i) dropped
    · rw [visits_of_allowed inside allowed, ahead_of_allowed transitive inside below allowed,
        List.map_cons, List.mem_cons, List.map_append, List.mem_append, ih below.succ,
        ih (below.drop transitive inside allowed)]
      rfl
    · rw [visits_of_blocked inside allowed, ahead_of_blocked transitive inside allowed,
        ih below.succ]

/-- No set is reached twice: the three groups of sets ahead differ in `i` or
beyond it. -/
theorem nodup_reached (i : ℕ) : ∀ {dropped : Finset ℕ}, DroppedBelow deps dropped i →
      ((visits deps (positionsFrom bound i) dropped).map (reached deps)).Nodup := by
  induction i using positions_induction bound with
  | finished i finished =>
    intro dropped _
    rw [visits_of_le finished]
    exact List.nodup_nil
  | step i inside ih =>
    intro dropped below
    by_cases allowed : Disjoint (deps i) dropped
    · have dropBelow := below.drop transitive inside allowed
      have ended : ∀ x ∈ kept deps dropped (i + 1), x < i + 1 :=
        fun x member => (mem_kept_iff.1 member).1
      rw [visits_of_allowed inside allowed, List.map_cons,
        List.map_append, List.nodup_cons, List.nodup_append]
      refine ⟨?_, ih below.succ, ih dropBelow, ?_⟩
      · intro again
        rw [List.mem_append, mem_reached_iff transitive _ _ below.succ,
          mem_reached_iff transitive _ _ dropBelow] at again
        rcases again with ahead | ahead <;>
          rcases ahead.beyond with ⟨x, member, late⟩ <;>
          exact absurd (ended x member) (not_lt.2 late)
      · intro left taking right dropping equal
        subst equal
        have takes := (mem_reached_iff transitive _ _ below.succ).1 taking
        have drops := (mem_reached_iff transitive _ _ dropBelow).1 dropping
        have here : i ∈ left := by
          rw [takes.below i (Nat.lt_succ_self i), kept_succ_of_allowed below allowed]
          exact Finset.mem_insert_self i _
        rw [drops.below i (Nat.lt_succ_self i), mem_kept_iff] at here
        exact here.2.1 (Finset.mem_insert_self i dropped)
    · rw [visits_of_blocked inside allowed]
      exact ih below.succ

/-! ## The whole walk -/

def allVisits (deps : ℕ → Finset ℕ) (bound : ℕ) : List (ℕ × Finset ℕ) :=
  visits deps (positionsFrom bound 0) ∅

theorem mem_map_reached_allVisits_iff (combo : Finset ℕ) :
    combo ∈ (allVisits deps bound).map (reached deps) ↔
      combo ⊆ Finset.range bound ∧ combo.Nonempty ∧ Closed deps combo := by
  rw [allVisits, mem_reached_iff transitive combo 0 (droppedBelow_empty 0)]
  constructor
  · intro ahead
    rcases ahead.beyond with ⟨x, member, -⟩
    exact ⟨fun y inside => Finset.mem_range.2 (ahead.bounded y inside), ⟨x, member⟩, ahead.closed⟩
  · rintro ⟨bounded, ⟨x, member⟩, closed⟩
    exact ⟨fun y inside => Finset.mem_range.1 (bounded inside), closed,
        fun y before => absurd before (Nat.not_lt_zero y), ⟨x, member, Nat.zero_le x⟩⟩

theorem nodup_map_reached_allVisits : ((allVisits deps bound).map (reached deps)).Nodup :=
  nodup_reached transitive 0 (droppedBelow_empty 0)

theorem length_allVisits : (allVisits deps bound).length =
      ((Finset.range bound).powerset.filter fun combo =>
        combo.Nonempty ∧ Closed deps combo).card := by
  have same : ((allVisits deps bound).map (reached deps)).toFinset =
      (Finset.range bound).powerset.filter fun combo =>
        combo.Nonempty ∧ Closed deps combo := by
    ext combo
    rw [List.mem_toFinset, mem_map_reached_allVisits_iff transitive,
      Finset.mem_filter, Finset.mem_powerset]
  rw [← same, List.toFinset_card_of_nodup (nodup_map_reached_allVisits transitive), List.length_map]

end

end ClosedWalk
