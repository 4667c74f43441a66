import Alice.Explorer.Ordering
import Alice.Explorer.Reported

/-! # Omitting one operation

The ordering phase omits all disk operations of one operation and moves the
end point.  A state is illegal exactly if some retained disk operation behind
the gap depends on an omitted one, and then stays illegal. -/

namespace Alice

open BackwardGraph Checked MicroOpState

namespace Replayer

/-! ## Positions of disk operations -/

/-- The number of disk operations before the operation `i`. -/
def firstDiskOp (replayer : Replayer) (i : ℕ) : ℕ :=
  (flatOps (replayer.microOps.take i)).length

/-- The position `x` in the list of all disk operations belongs to the
operation `i`. -/
def InOperation (replayer : Replayer) (i x : ℕ) : Prop :=
  replayer.firstDiskOp i ≤ x ∧ x < replayer.firstDiskOp (i + 1)

variable {replayer : Replayer}

theorem firstDiskOp_succ {i : ℕ} {state : MicroOpState}
    (lookup : replayer.microOps[i]? = some state) : replayer.firstDiskOp (i + 1) =
      replayer.firstDiskOp i + state.diskOps.length := by
  simp [firstDiskOp, flatOps, List.take_add_one, lookup]

theorem firstDiskOp_mono (replayer : Replayer) : Monotone replayer.firstDiskOp := by
  apply monotone_nat_of_le_succ
  intro i
  cases lookup : replayer.microOps[i]? with
  | none => simp [firstDiskOp, flatOps, List.take_add_one, lookup]
  | some state =>
    rw [firstDiskOp_succ lookup]
    exact Nat.le_add_right _ _

theorem firstDiskOp_le_length (replayer : Replayer) (i : ℕ) :
    replayer.firstDiskOp i ≤ (flatOps replayer.microOps).length := by
  have split : (flatOps replayer.microOps).length = replayer.firstDiskOp i +
          (flatOps (replayer.microOps.drop i)).length := by
    rw [firstDiskOp, ← List.length_append, flatOps, flatOps, flatOps,
      ← List.flatMap_append, List.take_append_drop]
  omega

theorem exists_inOperation {i j x : ℕ} (after : replayer.firstDiskOp i ≤ x)
    (before : x < replayer.firstDiskOp j) : ∃ k, i ≤ k ∧ k < j ∧ replayer.InOperation k x := by
  induction j with
  | zero =>
    exact absurd before (Nat.not_lt_zero x)
  | succ j ih =>
    by_cases early : x < replayer.firstDiskOp j
    · rcases ih early with ⟨k, late, bound, inside⟩
      exact ⟨k, late, bound.trans (Nat.lt_succ_self j), inside⟩
    · have notPassed : i ≤ j := by
        by_contra passed
        have above := replayer.firstDiskOp_mono (not_le.1 passed)
        exact absurd (lt_of_lt_of_le before above) (not_lt.2 after)
      exact ⟨j, notPassed, Nat.lt_succ_self j, not_lt.1 early, before⟩

/-! ## Omitting -/

/-- The loop of the ordering phase over the disk operations of `i`. -/
def omitAll (replayer : Replayer) (i : ℕ) : Except PyError Replayer :=
  (List.range (replayer.dopsCount i)).foldlM (fun current k => current.dopsOmit i k) replayer

/-- The end point at the last disk operation of `j`. -/
def endingAt (replayer : Replayer) (j : ℕ) : Replayer :=
  replayer.dopsEndAt j ((replayer.dopsCount j - 1 : ℕ) : ℤ)

@[simp]
theorem endingAt_microEnd (replayer : Replayer) (j : ℕ) : (replayer.endingAt j).microEnd = j :=
  rfl

theorem endingAt_diskEnd {j : ℕ} {last : MicroOpState}
    (lookup : replayer.microOps[j]? = some last) : (replayer.endingAt j).diskEnd =
      ((last.diskOps.length - 1 : ℕ) : ℤ) := by
  have counted : replayer.dopsCount j = last.diskOps.length := by rw [dopsCount, lookup]
  rw [← counted]
  rfl

end Replayer

def MicroOpState.omitFirst (state : MicroOpState) (count : ℕ) : MicroOpState :=
  { state with
    diskOps := state.diskOps.mapIdx fun k disk =>
      if k < count then { disk with omitted := true } else disk }

namespace MicroOpState

theorem omitFirst_zero (state : MicroOpState) : state.omitFirst 0 = state := by
  have unchanged : (state.diskOps.mapIdx fun k disk =>
        if k < 0 then { disk with omitted := true } else disk) =
        state.diskOps := by
    apply List.ext_getElem?
    simp
  rw [omitFirst, unchanged]

theorem omitFirst_length (state : MicroOpState) (count : ℕ) :
    (state.omitFirst count).diskOps.length = state.diskOps.length :=
  List.length_mapIdx

theorem omitFirst_getElem? (state : MicroOpState) (count k : ℕ) :
    (state.omitFirst count).diskOps[k]? = state.diskOps[k]?.map fun disk =>
        if k < count then { disk with omitted := true } else disk :=
  List.getElem?_mapIdx

theorem omitFirst_succ (state : MicroOpState) (count : ℕ) : { state.omitFirst count with
      diskOps := (state.omitFirst count).diskOps.modify count
        fun disk => { disk with omitted := true } } =
      state.omitFirst (count + 1) := by
  have sameOps : ((state.omitFirst count).diskOps.modify count
        fun disk => { disk with omitted := true }) = (state.omitFirst (count + 1)).diskOps := by
    apply List.ext_getElem?
    intro k
    rw [List.getElem?_modify, omitFirst_getElem?, omitFirst_getElem?,
      Option.map_eq_map, Option.map_map]
    congr 1
    funext disk
    rcases Nat.lt_trichotomy k count with early | equal | late
    · have different : count ≠ k := Nat.ne_of_gt early
      simp [early, different, Nat.lt_succ_of_lt early]
    · subst equal
      simp
    · have different : count ≠ k := Nat.ne_of_lt late
      have notEarly : ¬ k < count := by omega
      have notNext : ¬ k < count + 1 := by omega
      simp [different, notEarly, notNext]
  rw [sameOps]
  rfl

def omitted (state : MicroOpState) : MicroOpState :=
  state.omitFirst state.diskOps.length

theorem omitted_of_mem {state : MicroOpState} {disk : DiskOpState}
    (member : disk ∈ state.omitted.diskOps) : disk.omitted = true := by
  obtain ⟨k, lookup⟩ := List.mem_iff_getElem?.1 member
  rw [omitted, omitFirst_getElem?] at lookup
  obtain ⟨before, inState, equal⟩ := Option.map_eq_some_iff.1 lookup
  have inside : k < state.diskOps.length := (List.getElem?_eq_some_iff.1 inState).1
  rw [← equal, if_pos inside]

end MicroOpState

namespace Replayer

def setOperation (replayer : Replayer) (i : ℕ) (state : MicroOpState) : Replayer :=
  { replayer with microOps := replayer.microOps.set i state }

@[simp]
theorem setOperation_microOps (replayer : Replayer) (i : ℕ) (state : MicroOpState) :
    (replayer.setOperation i state).microOps = replayer.microOps.set i state :=
  rfl

variable {replayer : Replayer} {i j : ℕ} {state : MicroOpState}

theorem foldlM_dopsOmit (lookup : replayer.microOps[i]? = some state)
    (notStdout : state.isStdout = false) {count : ℕ} (short : count ≤ state.diskOps.length) :
    (List.range count).foldlM (fun current k => current.dopsOmit i k) replayer =
      .ok (replayer.setOperation i (state.omitFirst count)) := by
  induction count with
  | zero =>
    rw [omitFirst_zero, setOperation, set_self lookup]
    rfl
  | succ count ih =>
    have inside : i < replayer.microOps.length := (List.getElem?_eq_some_iff.1 lookup).1
    have here : (replayer.setOperation i (state.omitFirst count)).microOps[i]? =
          some (state.omitFirst count) := List.getElem?_set_self inside
    have inRange : count < (state.omitFirst count).diskOps.length := by
      rw [omitFirst_length]
      exact short
    rw [List.range_succ, List.foldlM_append, ih (Nat.le_of_succ_le short), ok_bind,
      List.foldlM_cons, dopsOmit, here]
    have notOutput : (state.omitFirst count).isStdout = false := notStdout
    simp only [notOutput, Bool.false_eq_true, and_false, if_false]
    rw [setOmitted_eq here inRange, ok_bind, List.foldlM_nil,
      pure_eq_ok_iff, setOperation, setOperation, List.set_set, omitFirst_succ]

/-- Terminal output is left alone; every other operation is omitted as a
whole. -/
theorem omitAll_eq (lookup : replayer.microOps[i]? = some state) : replayer.omitAll i =
      .ok (if state.isStdout = true then
        replayer
      else
        replayer.setOperation i state.omitted) := by
  have counted : replayer.dopsCount i = state.diskOps.length := by rw [dopsCount, lookup]
  rw [omitAll, counted]
  cases isStdout : state.isStdout with
  | false =>
    exact foldlM_dopsOmit lookup isStdout le_rfl
  | true =>
    have unchanged : ∀ ks : List ℕ, (∀ k ∈ ks, k < state.diskOps.length) →
          ks.foldlM (fun current k => current.dopsOmit i k) replayer = .ok replayer := by
      intro ks
      induction ks with
      | nil =>
        intro _
        rfl
      | cons k ks ih =>
        intro inside
        rw [List.foldlM_cons, dopsOmit, lookup]
        simp only [inside k List.mem_cons_self, isStdout, and_self, if_true]
        exact ih fun other member => inside other (List.mem_cons_of_mem k member)
    exact unchanged _ fun k member => List.mem_range.1 member

/-! ## What is retained -/

theorem retainedFrom_of_omitted {disks : List DiskOpState}
    (allOmitted : ∀ disk ∈ disks, disk.omitted = true) (index : ℕ) :
    retainedFrom index disks = [] := by
  induction disks generalizing index with
  | nil => rfl
  | cons disk rest ih =>
    rw [retainedFrom, allOmitted disk List.mem_cons_self, if_pos rfl]
    exact ih (fun other member => allOmitted other (List.mem_cons_of_mem _ member)) (index + 1)

/-- With the end point at the last disk operation of `j`, the loops reach
everything up to there. -/
theorem reached_endingAt {last : MicroOpState} (lookup : replayer.microOps[j]? = some last)
    (someDiskOp : 0 < last.diskOps.length) : Reached (replayer.endingAt j) (List.range (j + 1))
      ((replayer.microOps.take (j + 1)).flatMap MicroOpState.diskOps) := by
  have atEnd := endingAt_diskEnd lookup
  have inRange : (replayer.endingAt j).diskEnd < last.diskOps.length := by
    omega
  have whole : (replayer.endingAt j).till j last = last.diskOps.length := by
    rw [till, if_pos (endingAt_microEnd replayer j), atEnd]
    omega
  obtain ⟨disks, reached⟩ := @exists_reached (replayer.endingAt j) last lookup inRange
  have copy := reached
  rw [List.range_succ] at copy
  obtain ⟨first, second, split, left, right⟩ := copy.append
  obtain ⟨_, firstEq⟩ := left.eq_flatMap le_rfl
  cases right with
  | @cons _ _ state _ lookup' _ tail =>
    cases tail
    have same : state = last := by
      have both := lookup'.symm.trans lookup
      exact Option.some.inj both
    subst same
    have everything : disks = (replayer.microOps.take (j + 1)).flatMap MicroOpState.diskOps := by
      rw [split, firstEq, List.take_add_one, lookup]
      simp only [Option.toList_some, List.flatMap_append, List.flatMap_singleton, List.append_nil]
      rw [endingAt_microEnd, whole, List.take_length]
      rfl
    exact everything ▸ reached

/-- If no disk operation of a `sync` is omitted, the test suite is asked about
the retained operations. -/
theorem SyncsKept.isLegal_endingAt (kept : replayer.SyncsKept) {last : MicroOpState}
    (lookup : replayer.microOps[j]? = some last) (someDiskOp : 0 < last.diskOps.length) :
    (replayer.endingAt j).isLegal = replayer.testSuite.testComboValidity
        (retainedFrom 0 ((replayer.microOps.take (j + 1)).flatMap
          MicroOpState.diskOps)).toFinset := by
  have here : (replayer.endingAt j).microOps[(replayer.endingAt j).microEnd]? =
        some last :=
    lookup
  have notInside : ¬ (last.isSync = true ∧
        (replayer.endingAt j).diskEnd < last.diskOps.length - 1) := by
    rintro ⟨-, short⟩
    rw [endingAt_diskEnd lookup] at short
    omega
  have keptThere : (replayer.endingAt j).SyncsKept := kept
  rw [isLegal, legalIndices, here]
  simp only [if_neg notInside, endingAt_microEnd]
  rw [keptThere.legalMicroLoop (reached_endingAt lookup someDiskOp), ok_bind, List.nil_append]
  rfl

theorem length_flatMap_take (replayer : Replayer) (i : ℕ) :
    ((replayer.microOps.take i).flatMap MicroOpState.diskOps).length = replayer.firstDiskOp i := by
  simp [firstDiskOp, flatOps, List.length_flatMap]

/-- The positions below `bound` that do not belong to the gap. -/
def gapSet (low high bound : ℕ) : Finset ℕ :=
  (Finset.range bound).filter fun x => ¬ (low ≤ x ∧ x < high)

theorem mem_gapSet_iff {low high bound x : ℕ} :
    x ∈ gapSet low high bound ↔ x < bound ∧ ¬ (low ≤ x ∧ x < high) := by
  rw [gapSet, Finset.mem_filter, Finset.mem_range]

/-- Behind the omitted operation `i` everything is retained but its own disk
operations. -/
theorem retained_setOperation (included : AllIncluded replayer.microOps)
    (lookup : replayer.microOps[i]? = some state) (later : i < j) : (retainedFrom 0
        (((replayer.setOperation i state.omitted).microOps.take j).flatMap
          MicroOpState.diskOps)).toFinset =
      gapSet (replayer.firstDiskOp i) (replayer.firstDiskOp (i + 1)) (replayer.firstDiskOp j) := by
  have inside : i < (replayer.microOps.take j).length := by
    have bound := (List.getElem?_eq_some_iff.1 lookup).1
    rw [List.length_take]
    omega
  have lookupTake : (replayer.microOps.take j)[i]? = some state := by
    rw [List.getElem?_take_of_lt later, lookup]
  have cut : (replayer.microOps.take j).take i = replayer.microOps.take i := by
    rw [List.take_take, min_eq_left later.le]
  have split : (replayer.setOperation i state.omitted).microOps.take j =
        replayer.microOps.take i ++ state.omitted :: (replayer.microOps.take j).drop (i + 1) := by
    rw [setOperation_microOps, List.take_set, List.set_eq_take_append_cons_drop, if_pos inside, cut]
  have whole : replayer.microOps.take j = replayer.microOps.take i ++ state ::
          (replayer.microOps.take j).drop (i + 1) := by
    rw [← cut]
    exact eq_take_append_cons_drop lookupTake
  have includedFront : ∀ disk ∈ (replayer.microOps.take i).flatMap MicroOpState.diskOps,
        disk.omitted = false := by
    intro disk member
    obtain ⟨owner, ownerMember, diskMember⟩ := List.mem_flatMap.1 member
    exact included owner (List.mem_of_mem_take ownerMember) disk diskMember
  have includedBack : ∀ disk ∈ ((replayer.microOps.take j).drop (i + 1)).flatMap
          MicroOpState.diskOps, disk.omitted = false := by
    intro disk member
    obtain ⟨owner, ownerMember, diskMember⟩ := List.mem_flatMap.1 member
    exact included owner (List.mem_of_mem_take (List.mem_of_mem_drop ownerMember)) disk diskMember
  have total : replayer.firstDiskOp j = replayer.firstDiskOp (i + 1) +
        (((replayer.microOps.take j).drop (i + 1)).flatMap MicroOpState.diskOps).length := by
    rw [firstDiskOp_succ lookup, ← length_flatMap_take, ← length_flatMap_take]
    conv_lhs => rw [whole]
    rw [List.flatMap_append, List.flatMap_cons, List.length_append,
      List.length_append, Nat.add_assoc]
  have between := firstDiskOp_succ lookup
  rw [split, List.flatMap_append, List.flatMap_cons, retainedFrom_append, retainedFrom_append,
    retainedFrom_of_omitted fun disk => omitted_of_mem, retainedFrom_of_included includedFront,
    retainedFrom_of_included includedBack, length_flatMap_take,
    List.nil_append, MicroOpState.omitted, omitFirst_length]
  ext x
  rw [List.mem_toFinset, List.mem_append, List.mem_range'_1, List.mem_range'_1, mem_gapSet_iff]
  omega

/-! ## A `sync` that is omitted -/

/-- `is_legal` gives up at an omitted `sync`. -/
theorem legalMicroLoop_of_omittedSync (lookup : replayer.microOps[i]? = some state)
    (isSync : state.isSync = true) (allOmitted : ∀ disk ∈ state.diskOps, disk.omitted = true)
    (someDiskOp : 0 < state.diskOps.length) (before : i ≠ replayer.microEnd) {is : List ℕ}
    {disks : List DiskOpState} (reached : Reached replayer is disks) (member : i ∈ is) (index : ℕ)
    (included : List ℕ) : replayer.legalMicroLoop is index included = .ok none := by
  have first : state.diskOps[0] ∈ state.diskOps := List.getElem_mem someDiskOp
  refine legalMicroLoop_of_omitted reached ⟨i, member, state, lookup, isSync,
    state.diskOps[0], ?_, allOmitted _ first⟩ index included
  rw [till, if_neg (Ne.symm before), List.take_length]
  exact first

/-! ## Legal end points -/

/-- A retained disk operation behind `i`, up to `j`, depends on a disk
operation of `i`. -/
def Blocked (replayer : Replayer) (deps : List (Finset ℕ)) (i j : ℕ) : Prop :=
  ∃ x y, replayer.firstDiskOp (i + 1) ≤ x ∧ x < replayer.firstDiskOp (j + 1) ∧
    replayer.InOperation i y ∧ HiddenEdge deps x y

theorem Blocked.mono {deps : List (Finset ℕ)} {k : ℕ} (blocked : replayer.Blocked deps i j)
    (later : j ≤ k) : replayer.Blocked deps i k := by
  obtain ⟨x, y, after, before, inside, edge⟩ := blocked
  have further : replayer.firstDiskOp (j + 1) ≤ replayer.firstDiskOp (k + 1) :=
    replayer.firstDiskOp_mono (Nat.succ_le_succ later)
  exact ⟨x, y, after, before.trans_le further, inside, edge⟩

/-- If the operation `i` has no barriers, the disk operations that block an
end point are `sync`s. -/
theorem blocked_iff_of_barrierFree {replayer : Replayer} {names : Names} {deps : List (Finset ℕ)}
    (returned : getDeps names (flatOps replayer.microOps) = .ok deps) {i : ℕ}
    (barrierFree : ∀ y, replayer.InOperation i y → ¬ BarrierAt (flatOps replayer.microOps) y)
    (j : ℕ) : replayer.Blocked deps i j ↔ ∃ k s y point, i < k ∧ k ≤ j ∧ replayer.InOperation k s ∧
        syncPointAt (flatOps replayer.microOps) s = some point ∧
        replayer.InOperation i y ∧ HiddenEdge deps s y := by
  constructor
  · rintro ⟨x, y, after, before, inside, edge⟩
    obtain ⟨k, late, early, inK⟩ := exists_inOperation after before
    have bound := lt_length_of_hiddenEdge returned edge
    rcases (hiddenEdge_iff returned bound y).1 edge with barrier | flushes
    · exact absurd barrier.1.2 (barrierFree y inside)
    · obtain ⟨point, pointEq, -⟩ := flushes
      exact ⟨k, x, y, point, late, Nat.lt_succ_iff.1 early, inK, pointEq, inside, edge⟩
  · rintro ⟨k, s, y, point, late, early, inK, -, inside, edge⟩
    have after : replayer.firstDiskOp (i + 1) ≤ replayer.firstDiskOp k :=
      replayer.firstDiskOp_mono late
    have before : replayer.firstDiskOp (k + 1) ≤ replayer.firstDiskOp (j + 1) :=
      replayer.firstDiskOp_mono (Nat.succ_le_succ early)
    exact ⟨s, y, after.trans inK.1, inK.2.trans_le before, inside, edge⟩

section

variable {names : Names} {fs : Defaultfs} {microOps : List MicroOp}
  {suite : ALCTestSuite} {deps : List (Finset ℕ)}

theorem Fresh.testComboValidity_gapSet {replayer : Replayer}
    (fresh : Fresh names fs microOps replayer.microOps suite)
    (returned : getDeps names (flatOps replayer.microOps) = .ok deps) (i j : ℕ) : ∃ legal,
      suite.testComboValidity (gapSet (replayer.firstDiskOp i) (replayer.firstDiskOp (i + 1))
            (replayer.firstDiskOp (j + 1))) = .ok legal ∧
        (legal = true ↔ ¬ replayer.Blocked deps i j) := by
  obtain ⟨built, builtEq, sameLength, exact⟩ := testSuiteOf_exactAt returned
  rw [fresh.suiteEq, Except.ok.injEq] at builtEq
  subst builtEq
  have known : ∀ x ∈ gapSet (replayer.firstDiskOp i)
      (replayer.firstDiskOp (i + 1)) (replayer.firstDiskOp (j + 1)), x < suite.opList.length := by
    intro x member
    rw [sameLength]
    exact lt_of_lt_of_le (mem_gapSet_iff.1 member).1 (replayer.firstDiskOp_le_length (j + 1))
  have closed := ALCTestSuite.testComboValidity_iff_closedUnder (sameLength ▸ exact) known
  have members : {x | x ∈ gapSet (replayer.firstDiskOp i)
      (replayer.firstDiskOp (i + 1)) (replayer.firstDiskOp (j + 1))} =
      {x | x < replayer.firstDiskOp (j + 1) ∧ ¬ (replayer.firstDiskOp i ≤ x ∧
          x < replayer.firstDiskOp (i + 1))} := by
    ext x
    exact mem_gapSet_iff
  rw [members, closedUnder_gap_iff (backward_hiddenEdge returned)] at closed
  have returns : ∃ legal, suite.testComboValidity
        (gapSet (replayer.firstDiskOp i) (replayer.firstDiskOp (i + 1))
          (replayer.firstDiskOp (j + 1))) = .ok legal := by
    rw [ALCTestSuite.testComboValidity, if_pos known]
    exact ⟨_, rfl⟩
  obtain ⟨legal, legalEq⟩ := returns
  refine ⟨legal, legalEq, ?_⟩
  rw [legalEq, Except.ok.injEq] at closed
  rw [closed]
  constructor
  · rintro separate ⟨x, y, after, before, inside, edge⟩
    exact separate x y after before inside.1 inside.2 edge
  · intro notBlocked x y after before low high edge
    exact notBlocked ⟨x, y, after, before, ⟨low, high⟩, edge⟩

end

/-- An operation can be left out as a whole: it is not terminal output, and a
`sync` only if it has no disk operations. -/
def Omittable (state : MicroOpState) : Prop :=
  state.isStdout = false ∧ (state.isSync = true → state.diskOps = [])

section

variable {names : Names} {fs : Defaultfs} {microOps : List MicroOp}
  {replayer : Replayer} {deps : List (Finset ℕ)}
  {i : ℕ} {state : MicroOpState}

variable {j : ℕ}

theorem isLegal_of_omittable
    (fresh : Fresh names fs microOps replayer.microOps replayer.testSuite)
    (returned : getDeps names (flatOps replayer.microOps) = .ok deps)
    (lookup : replayer.microOps[i]? = some state) (omittable : Omittable state) (later : i < j)
    (someDiskOp : 0 < replayer.dopsCount j) : ∃ legal,
      ((replayer.setOperation i state.omitted).endingAt j).isLegal = .ok legal ∧
        (legal = true ↔ ¬ replayer.Blocked deps i j) := by
  have kept : (replayer.setOperation i state.omitted).SyncsKept := by
    intro other member isSync disk inside
    rcases List.mem_or_eq_of_mem_set member with old | new
    · exact fresh.allIncluded other old disk inside
    · subst new
      have empty : state.diskOps = [] := omittable.2 isSync
      have none : state.omitted.diskOps = [] := by
        rw [← List.length_eq_zero_iff, MicroOpState.omitted, omitFirst_length, empty]
        rfl
      rw [none] at inside
      cases inside
  cases lookupJ : replayer.microOps[j]? with
  | none =>
    rw [dopsCount, lookupJ] at someDiskOp
    exact absurd someDiskOp (Nat.lt_irrefl 0)
  | some last =>
    have lookupSet : (replayer.setOperation i state.omitted).microOps[j]? =
          some last := by
      rw [setOperation_microOps, List.getElem?_set_ne later.ne, lookupJ]
    have counted : 0 < last.diskOps.length := by
      rw [dopsCount, lookupJ] at someDiskOp
      exact someDiskOp
    rw [kept.isLegal_endingAt lookupSet counted, retained_setOperation fresh.allIncluded lookup
        (Nat.lt_succ_of_lt later)]
    exact fresh.testComboValidity_gapSet returned i j

theorem isLegal_endingAt_of_included
    (fresh : Fresh names fs microOps replayer.microOps replayer.testSuite)
    (someDiskOp : 0 < replayer.dopsCount j) : (replayer.endingAt j).isLegal = .ok true := by
  have kept : replayer.SyncsKept := fun other member _ => fresh.allIncluded other member
  cases lookup : replayer.microOps[j]? with
  | none =>
    rw [dopsCount, lookup] at someDiskOp
    exact absurd someDiskOp (Nat.lt_irrefl 0)
  | some last =>
    rw [dopsCount, lookup] at someDiskOp
    have included : ∀ disk ∈ (replayer.microOps.take (j + 1)).flatMap MicroOpState.diskOps,
          disk.omitted = false := by
      intro disk member
      obtain ⟨owner, ownerMember, inside⟩ := List.mem_flatMap.1 member
      exact fresh.allIncluded owner (List.mem_of_mem_take ownerMember) disk inside
    rw [kept.isLegal_endingAt lookup someDiskOp, retainedFrom_of_included included,
      length_flatMap_take, ← List.range_eq_range', List.toFinset_range]
    exact fresh.accepts_range (replayer.firstDiskOp_le_length (j + 1))

theorem isLegal_of_omittedSync (lookup : replayer.microOps[i]? = some state)
    (isSync : state.isSync = true) (nonempty : 0 < state.diskOps.length) (later : i < j)
    (someDiskOp : 0 < replayer.dopsCount j) :
    ((replayer.setOperation i state.omitted).endingAt j).isLegal = .ok false := by
  cases lookupJ : replayer.microOps[j]? with
  | none =>
    rw [dopsCount, lookupJ] at someDiskOp
    exact absurd someDiskOp (Nat.lt_irrefl 0)
  | some last =>
    rw [dopsCount, lookupJ] at someDiskOp
    have lookupSet : (replayer.setOperation i state.omitted).microOps[j]? =
          some last := by
      rw [setOperation_microOps, List.getElem?_set_ne later.ne, lookupJ]
    have here : ((replayer.setOperation i state.omitted).endingAt j).microOps[i]? =
          some state.omitted := List.getElem?_set_self (List.getElem?_eq_some_iff.1 lookup).1
    have nonemptyOmitted : 0 < state.omitted.diskOps.length := by
      rw [MicroOpState.omitted, omitFirst_length]
      exact nonempty
    have stops := legalMicroLoop_of_omittedSync here isSync
      (fun disk => omitted_of_mem) nonemptyOmitted later.ne (reached_endingAt lookupSet someDiskOp)
      (List.mem_range.2 (Nat.lt_succ_of_lt later)) 0 []
    have atEnd : ((replayer.setOperation i state.omitted).endingAt j).microOps[
          ((replayer.setOperation i state.omitted).endingAt j).microEnd]? =
          some last :=
      lookupSet
    rw [isLegal, legalIndices, atEnd]
    simp only
    split
    · rfl
    · rw [endingAt_microEnd, stops]
      rfl

/-- Operations without barriers can be left out as a whole. -/
theorem Fresh.omittable_of_barrierFree
    (fresh : Fresh names fs microOps replayer.microOps replayer.testSuite)
    (lookup : replayer.microOps[i]? = some state)
    (barrierFree : ∀ disk ∈ state.diskOps, disk.op.isBarrier = false) :
    Omittable state := by
  have inside : i < microOps.length := by
    rw [← fresh.length_eq]
    exact (List.getElem?_eq_some_iff.1 lookup).1
  obtain ⟨ops, opsEq, stateEq⟩ := fresh.lookup (List.getElem?_eq_getElem inside)
  rw [lookup, Option.some.injEq] at stateEq
  subst stateEq
  have free : ∀ op ∈ ops, op.isBarrier = false := fun op member =>
    barrierFree ⟨op, false⟩ (List.mem_map.2 ⟨op, member, rfl⟩)
  constructor
  · cases kindEq : microOps[i].kind with
    | stdout data =>
      rw [kindEq, Defaultfs.getDiskOps, Except.ok.injEq] at opsEq
      subst opsEq
      have isFree := free _ List.mem_cons_self
      cases isFree
    | _ => simp [MicroOpState.isStdout, kindEq, MicroOpKind.isStdout]
  · intro isSync
    cases kindEq : microOps[i].kind with
    | sync hiddenFiles =>
      rw [kindEq, Defaultfs.getDiskOps, Except.ok.injEq] at opsEq
      subst opsEq
      cases hiddenFiles with
      | nil => rfl
      | cons file rest =>
        have isFree := free _ List.mem_cons_self
        cases isFree
    | _ => simp [MicroOpState.isSync, kindEq, MicroOpKind.isSync] at isSync

theorem not_barrierAt_of_barrierFree (lookup : replayer.microOps[i]? = some state)
    (barrierFree : ∀ disk ∈ state.diskOps, disk.op.isBarrier = false) {x : ℕ}
    (inside : replayer.InOperation i x) : ¬ BarrierAt (flatOps replayer.microOps) x := by
  rintro ⟨traced, found, isBarrier⟩
  have split : flatOps replayer.microOps = flatOps (replayer.microOps.take i) ++
          ((state.diskOps.map fun disk => (⟨disk.op, state.microOp.syscall⟩ : TracedOp)) ++
            flatOps (replayer.microOps.drop (i + 1))) := by
    conv_lhs => rw [eq_take_append_cons_drop lookup]
    rw [flatOps, List.flatMap_append, List.flatMap_cons]
    rfl
  have after : (flatOps (replayer.microOps.take i)).length ≤ x := inside.1
  have before : x - (flatOps (replayer.microOps.take i)).length < (state.diskOps.map fun disk =>
        (⟨disk.op, state.microOp.syscall⟩ : TracedOp)).length := by
    have upper := inside.2
    rw [firstDiskOp_succ lookup, firstDiskOp] at upper
    rw [List.length_map]
    omega
  rw [split, List.getElem?_append_right after, List.getElem?_append_left before] at found
  obtain ⟨disk, member, tracedEq⟩ := List.mem_map.1 (List.mem_of_getElem? found)
  rw [← tracedEq, barrierFree disk member] at isBarrier
  cases isBarrier

end

/-- With the operation `i` omitted, `is_legal` returns at every end point
behind it; once it refuses one it refuses all later ones; and if `i` has no
barriers, it refuses an end point exactly if a `sync` up to there directly
depends on a disk operation of `i`. -/
theorem legalEnds_initialSegment
    (names : Names) (fs : Defaultfs) (snapshot : Snapshot)
    (microOps : List MicroOp) (microEnd : ℕ) (diskEnd : ℤ)
    (replayer : Replayer)
    (made : setFs names fs snapshot microOps microEnd diskEnd =
      .ok replayer)
    (i : ℕ) (state : MicroOpState)
    (lookup : replayer.microOps[i]? = some state) :
    ∃ omitted deps,
      replayer.omitAll i = .ok omitted ∧
      getDeps names (flatOps replayer.microOps) = .ok deps ∧
      (∀ j, i < j → 0 < replayer.dopsCount j →
        ∃ legal, (omitted.endingAt j).isLegal = .ok legal) ∧
      (∀ j k, i < j → j ≤ k → 0 < replayer.dopsCount j →
        0 < replayer.dopsCount k →
          (omitted.endingAt j).isLegal = .ok false →
            (omitted.endingAt k).isLegal = .ok false) ∧
      ((∀ disk ∈ state.diskOps, disk.op.isBarrier = false) →
        ∀ j, i < j → 0 < replayer.dopsCount j →
          ((omitted.endingAt j).isLegal = .ok false ↔
            ∃ k s y point, i < k ∧ k ≤ j ∧ replayer.InOperation k s ∧
              syncPointAt (flatOps replayer.microOps) s = some point ∧
              replayer.InOperation i y ∧ HiddenEdge deps s y)) := by
  have fresh := setFs_fresh made
  have suiteEq := fresh.suiteEq
  obtain ⟨deps, returned, -⟩ := bind_eq_ok_iff.1 suiteEq
  refine ⟨_, deps, omitAll_eq lookup, returned, ?_⟩
  by_cases omittable : Omittable state
  · rw [if_neg (by simp [omittable.1])]
    have decided := fun j (later : i < j) =>
      isLegal_of_omittable (j := j) fresh returned lookup omittable later
    have refused : ∀ j, i < j → 0 < replayer.dopsCount j →
        (((replayer.setOperation i state.omitted).endingAt j).isLegal =
          .ok false ↔ replayer.Blocked deps i j) := by
      intro j later someDiskOp
      obtain ⟨legal, legalEq, iff⟩ := decided j later someDiskOp
      rw [legalEq, Except.ok.injEq, ← Bool.not_eq_true, iff, not_not]
    refine ⟨?_, ?_, ?_⟩
    · intro j later someDiskOp
      obtain ⟨legal, legalEq, -⟩ := decided j later someDiskOp
      exact ⟨legal, legalEq⟩
    · intro j k later further someJ someK illegal
      have blocked := (refused j later someJ).1 illegal
      exact (refused k (later.trans_le further) someK).2 (blocked.mono further)
    · intro barrierFree j later someDiskOp
      rw [refused j later someDiskOp]
      exact blocked_iff_of_barrierFree returned
        (fun y => not_barrierAt_of_barrierFree lookup barrierFree) j
  · have notFree : ¬ ∀ disk ∈ state.diskOps, disk.op.isBarrier = false := fun barrierFree =>
        omittable (fresh.omittable_of_barrierFree lookup barrierFree)
    by_cases isStdout : state.isStdout = true
    · rw [if_pos isStdout]
      have legal := fun j => isLegal_endingAt_of_included (j := j) fresh
      refine ⟨fun j _ someDiskOp => ⟨true, legal j someDiskOp⟩, ?_,
        fun barrierFree => absurd barrierFree notFree⟩
      intro j k _ _ someDiskOp _ illegal
      rw [legal j someDiskOp] at illegal
      cases illegal
    · rw [if_neg isStdout]
      have isSync : state.isSync = true ∧ state.diskOps ≠ [] := by
        by_contra other
        rw [not_and, not_not] at other
        exact omittable ⟨by simpa using isStdout, other⟩
      have illegal := fun j (later : i < j) =>
        isLegal_of_omittedSync (j := j) lookup isSync.1 (List.length_pos_iff.2 isSync.2) later
      refine ⟨fun j later someDiskOp => ⟨false, illegal j later someDiskOp⟩,
        ?_, fun barrierFree => absurd barrierFree notFree⟩
      intro j k later further _ someDiskOp _
      exact illegal k (later.trans_le further) someDiskOp

/-- A write of one byte, the `fsync` of its file, and another write. -/
def writeFsyncWrite : List MicroOp :=
  [⟨.write ⟨7, 0, 1, "dump", 0⟩, .pwrite⟩, ⟨.fsync 7 1, .fsync⟩,
    ⟨.write ⟨8, 0, 1, "dump", 1⟩, .pwrite⟩]

theorem legalEnds_initialSegment_writeFsyncWrite :
    ∃ replayer state,
      setFs .asWritten (CheckMode.count1.fs .unrounded) (logSnapshot [1])
        writeFsyncWrite 2 0 = .ok replayer ∧
      replayer.microOps[0]? = some state ∧
      ∃ omitted deps,
        replayer.omitAll 0 = .ok omitted ∧
        getDeps .asWritten (flatOps replayer.microOps) = .ok deps ∧
        (∀ j, 0 < j → 0 < replayer.dopsCount j →
          ∃ legal, (omitted.endingAt j).isLegal = .ok legal) ∧
        (∀ j k, 0 < j → j ≤ k → 0 < replayer.dopsCount j →
          0 < replayer.dopsCount k →
            (omitted.endingAt j).isLegal = .ok false →
              (omitted.endingAt k).isLegal = .ok false) ∧
        ((∀ disk ∈ state.diskOps, disk.op.isBarrier = false) →
          ∀ j, 0 < j → 0 < replayer.dopsCount j →
            ((omitted.endingAt j).isLegal = .ok false ↔
              ∃ k s y point, 0 < k ∧ k ≤ j ∧ replayer.InOperation k s ∧
                syncPointAt (flatOps replayer.microOps) s = some point ∧
                replayer.InOperation 0 y ∧ HiddenEdge deps s y)) := by
  refine ⟨_, _, rfl, rfl, ?_⟩
  exact legalEnds_initialSegment .asWritten (CheckMode.count1.fs .unrounded)
    (logSnapshot [1]) writeFsyncWrite 2 0 _ rfl 0 _ rfl

end Replayer

end Alice
