import Mathlib.Data.Finset.Max
import Mathlib.Data.Finset.Union

/-! # Graphs whose edges point backward

Every edge leads to a smaller vertex, so one pass in increasing order computes
reachability, even from tables that already hold part of the closure. -/

namespace BackwardGraph

open Relation

variable {edge : ℕ → ℕ → Prop}

def Backward (edge : ℕ → ℕ → Prop) : Prop :=
  ∀ x y, edge x y → y < x

variable {x y : ℕ} {vertices : Set ℕ}

theorem lt_of_transGen (backward : Backward edge) (path : TransGen edge x y) : y < x := by
  induction path with
  | single step => exact backward _ _ step
  | tail _ step ih => exact lt_trans (backward _ _ step) ih

/-! ## Closed sets -/

/-- `vertices` holds the target of every edge that leaves it. -/
def ClosedUnder (edge : ℕ → ℕ → Prop) (vertices : Set ℕ) : Prop :=
  ∀ x ∈ vertices, ∀ y, edge x y → y ∈ vertices

theorem ClosedUnder.mem_of_transGen (closed : ClosedUnder edge vertices) (member : x ∈ vertices)
    (path : TransGen edge x y) : y ∈ vertices := by
  induction path with
  | single step => exact closed _ member _ step
  | tail _ step ih => exact closed _ ih _ step

theorem closedUnder_transGen_iff :
    ClosedUnder (TransGen edge) vertices ↔ ClosedUnder edge vertices := by
  constructor
  · intro closed x member y step
    exact closed x member y (TransGen.single step)
  · intro closed x member y path
    exact closed.mem_of_transGen member path

theorem closedUnder_initial_segment (backward : Backward edge) (bound : ℕ) :
    ClosedUnder edge {x | x < bound} := by
  intro x member y step
  exact lt_trans (backward x y step) member

/-- Below a bound, leaving out the vertices from `low` up to `high` keeps a
set closed exactly if no edge leads from above the gap into it. -/
theorem closedUnder_gap_iff (backward : Backward edge) (low high bound : ℕ) :
    ClosedUnder edge {x | x < bound ∧ ¬ (low ≤ x ∧ x < high)} ↔
      ∀ x y, high ≤ x → x < bound → low ≤ y → y < high → ¬ edge x y := by
  constructor
  · intro closed x y above below inGap short step
    have kept : x < bound ∧ ¬ (low ≤ x ∧ x < high) :=
      ⟨below, fun inside => absurd inside.2 (not_lt.2 above)⟩
    exact (closed x kept y step).2 ⟨inGap, short⟩
  · rintro separate x ⟨below, outside⟩ y step
    have before : y < x := backward x y step
    refine ⟨before.trans below, ?_⟩
    rintro ⟨inGap, short⟩
    have above : high ≤ x := by
      by_contra inside
      exact outside ⟨inGap.trans before.le, not_le.1 inside⟩
    exact separate x y above below inGap short step

/-- A vertex is added whose edges all lead into the set. -/
def Grows (edge : ℕ → ℕ → Prop) (before after : Finset ℕ) : Prop :=
  ∃ x ∉ before, (∀ y, edge x y → y ∈ before) ∧ after = insert x before

theorem Grows.closedUnder {before after : Finset ℕ} (grows : Grows edge before after)
    (closed : ClosedUnder edge {x | x ∈ before}) : ClosedUnder edge {x | x ∈ after} := by
  obtain ⟨added, _, ready, rfl⟩ := grows
  intro x member y step
  refine Finset.mem_insert_of_mem ?_
  rcases Finset.mem_insert.1 member with rfl | earlier
  · exact ready y step
  · exact closed x earlier y step

/-- The sets that grow one vertex at a time are the closed sets. -/
theorem reflTransGen_grows_iff (backward : Backward edge) {vertices : Finset ℕ} :
    ReflTransGen (Grows edge) ∅ vertices ↔ ClosedUnder edge {x | x ∈ vertices} := by
  constructor
  · intro path
    induction path with
    | refl => simp [ClosedUnder]
    | tail _ grows ih => exact grows.closedUnder ih
  · induction vertices using Finset.induction_on_max with
    | empty => exact fun _ => .refl
    | insert last rest below ih =>
      intro closed
      -- no edge leads to the last vertex
      have inRest : ∀ x ∈ insert last rest, ∀ y, edge x y → y ∈ rest := by
        intro x member y step
        refine (Finset.mem_insert.1 (closed x member y step)).resolve_left ?_
        rintro rfl
        rcases Finset.mem_insert.1 member with rfl | earlier
        · exact (backward x x step).false
        · exact lt_asymm (below x earlier) (backward x y step)
      exact (ih fun x member => inRest x (Finset.mem_insert_of_mem member)).tail
        ⟨last, fun member => (below last member).false,
          inRest last (Finset.mem_insert_self last rest), rfl⟩

/-- The least closed set that contains `vertices`. -/
def closureOf (edge : ℕ → ℕ → Prop) (vertices : Set ℕ) : Set ℕ :=
  {y | y ∈ vertices ∨ ∃ x ∈ vertices, TransGen edge x y}

theorem subset_closureOf (vertices : Set ℕ) : vertices ⊆ closureOf edge vertices := by
  intro x member
  exact Or.inl member

theorem closedUnder_closureOf (vertices : Set ℕ) : ClosedUnder edge (closureOf edge vertices) := by
  rintro x (member | ⟨root, rootMember, path⟩) y step
  · exact Or.inr ⟨x, member, TransGen.single step⟩
  · exact Or.inr ⟨root, rootMember, path.tail step⟩

theorem closureOf_subset {larger : Set ℕ} (closed : ClosedUnder edge larger)
    (included : vertices ⊆ larger) : closureOf edge vertices ⊆ larger := by
  rintro y (member | ⟨root, rootMember, path⟩)
  · exact included member
  · exact closed.mem_of_transGen (included rootMember) path

/-! ## Computing the closure in one forward pass -/

/-- The table entry of `x` is exactly the set of vertices reachable from
`x`. -/
def ExactAt (edge : ℕ → ℕ → Prop) (deps : ℕ → Finset ℕ) (x : ℕ) : Prop :=
  ∀ y, y ∈ deps x ↔ TransGen edge x y

/-- The table entry of `x` holds every direct edge of `x` and nothing that
cannot be reached. -/
def Sandwiched (edge : ℕ → ℕ → Prop) (deps : ℕ → Finset ℕ) (x : ℕ) : Prop :=
  (∀ y, edge x y → y ∈ deps x) ∧ ∀ y ∈ deps x, TransGen edge x y

/-- A sandwiched set of vertices together with the exact entries of its
members is everything that can be reached. -/
theorem mem_union_biUnion_iff {deps : ℕ → Finset ℕ} {known : Finset ℕ}
    (direct : ∀ y, edge x y → y ∈ known) (sound : ∀ y ∈ known, TransGen edge x y)
    (exact : ∀ y ∈ known, ExactAt edge deps y) (y : ℕ) :
    y ∈ known ∪ known.biUnion deps ↔ TransGen edge x y := by
  rw [Finset.mem_union, Finset.mem_biUnion]
  constructor
  · rintro (member | ⟨middle, middleMember, member⟩)
    · exact sound y member
    · exact (sound middle middleMember).trans ((exact middle middleMember y).1 member)
  · intro path
    rcases TransGen.head'_iff.1 path with ⟨middle, step, rest⟩
    rcases reflTransGen_iff_eq_or_transGen.1 rest with equal | tail
    · subst equal
      exact Or.inl (direct y step)
    · exact Or.inr ⟨middle, direct middle step, (exact middle (direct middle step) y).2 tail⟩

/-- Extend the entry of `x` by the entries of everything it already holds. -/
def absorb (deps : ℕ → Finset ℕ) (x : ℕ) : ℕ → Finset ℕ :=
  Function.update deps x (deps x ∪ (deps x).biUnion deps)

@[simp]
theorem absorb_self (deps : ℕ → Finset ℕ) (x : ℕ) :
    absorb deps x x = deps x ∪ (deps x).biUnion deps := by
  simp [absorb]

theorem absorb_of_ne (deps : ℕ → Finset ℕ) (different : y ≠ x) : absorb deps x y = deps y := by
  simp [absorb, different]

/-- Absorb at `0`, `1`, …, `count - 1` in this order. -/
def forwardPass (deps : ℕ → Finset ℕ) (count : ℕ) : ℕ → Finset ℕ :=
  (List.range count).foldl absorb deps

theorem forwardPass_succ (deps : ℕ → Finset ℕ) (count : ℕ) :
    forwardPass deps (count + 1) = absorb (forwardPass deps count) count := by
  simp [forwardPass, List.range_succ]

theorem forwardPass_of_le (deps : ℕ → Finset ℕ) {count : ℕ} (late : count ≤ x) :
    forwardPass deps count x = deps x := by
  induction count with
  | zero => rfl
  | succ count ih => rw [forwardPass_succ, absorb_of_ne _ (by omega), ih (by omega)]

/-- One pass over sandwiched entries reaches the fixpoint, because every
vertex is visited after all vertices it can reach. -/
theorem forwardPass_exactAt (backward : Backward edge) {deps : ℕ → Finset ℕ} {count : ℕ}
    (sandwiched : ∀ x < count, Sandwiched edge deps x) :
    ∀ x < count, ExactAt edge (forwardPass deps count) x := by
  induction count with
  | zero =>
    intro x bound
    exact absurd bound (Nat.not_lt_zero x)
  | succ count ih =>
    have earlier : ∀ x < count, ExactAt edge (forwardPass deps count) x := ih fun x bound =>
        sandwiched x (Nat.lt_succ_of_lt bound)
    intro x bound y
    rw [forwardPass_succ]
    rcases Nat.lt_succ_iff_lt_or_eq.1 bound with less | equal
    · rw [absorb_of_ne _ (Nat.ne_of_lt less)]
      exact earlier x less y
    · subst equal
      obtain ⟨direct, sound⟩ := sandwiched x bound
      rw [absorb_self, forwardPass_of_le deps (Nat.le_refl x)]
      refine mem_union_biUnion_iff direct sound ?_ y
      intro middle middleMember
      exact earlier middle (lt_of_transGen backward (sound middle middleMember))

end BackwardGraph
