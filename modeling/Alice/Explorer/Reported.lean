import Mathlib.Order.Interval.Finset.Nat
import Alice.Checked
import Alice.Explorer.Atomicity
import Alice.Replay.CrashedDir

/-! # What the atomicity phase reports

The phase enqueues `(mode, i, j)` for each disk operation but the last, and
collects with the bounds of the last mode.  So all findings are reported
exactly if no other mode expands an operation into more disk operations. -/

namespace Alice

open BackwardGraph Checked

/-! ## Replayers without omissions -/

namespace Replayer

def AllIncluded (microOps : List MicroOpState) : Prop :=
  ∀ state ∈ microOps, ∀ disk ∈ state.diskOps, disk.omitted = false

/-- What `set_fs` establishes. -/
structure Fresh (names : Names) (fs : Defaultfs) (microOps : List MicroOp)
    (states : List MicroOpState) (suite : ALCTestSuite) : Prop where
  expanded : microOps.mapM (expand fs) = .ok states
  suiteEq : testSuiteOf names (flatOps states) = .ok suite

variable {replayer : Replayer} {state : MicroOpState} {i : ℕ}

theorem setFs_fresh {names : Names} {fs : Defaultfs} {snapshot : Snapshot}
    {microOps : List MicroOp} {microEnd : ℕ} {diskEnd : ℤ}
    (made : setFs names fs snapshot microOps microEnd diskEnd = .ok replayer) :
    Fresh names fs microOps replayer.microOps replayer.testSuite := by
  obtain ⟨states, expanded, made⟩ := bind_eq_ok_iff.1 made
  obtain ⟨suite, suiteEq, made⟩ := bind_eq_ok_iff.1 made
  rw [pure_eq_ok_iff] at made
  subst made
  exact ⟨expanded, suiteEq⟩

namespace Fresh

variable {names : Names} {fs : Defaultfs} {microOps : List MicroOp}
  {states : List MicroOpState} {suite : ALCTestSuite}

section

variable (fresh : Fresh names fs microOps states suite)
include fresh

theorem length_eq : states.length = microOps.length :=
  (mapM_ok_lookup fresh.expanded).1

theorem lookup {i : ℕ} {microOp : MicroOp} (atI : microOps[i]? = some microOp) :
    ∃ ops, fs.getDiskOps microOp.kind = .ok ops ∧
      states[i]? = some ⟨microOp, ops.map fun op => ⟨op, false⟩⟩ := by
  obtain ⟨state, expanded, stateEq⟩ := (mapM_ok_lookup fresh.expanded).2 i microOp atI
  obtain ⟨ops, opsEq, expanded⟩ := map_eq_ok_iff.1 expanded
  exact ⟨ops, opsEq, by rw [stateEq, expanded]⟩

theorem allIncluded :
    AllIncluded states := by
  intro state member disk inside
  obtain ⟨i, bound, stateEq⟩ := List.mem_iff_getElem.1 member
  have inMicroOps : i < microOps.length := fresh.length_eq ▸ bound
  obtain ⟨ops, _, atI⟩ := fresh.lookup (List.getElem?_eq_getElem inMicroOps)
  rw [List.getElem?_eq_getElem bound, stateEq, Option.some.injEq] at atI
  rw [atI] at inside
  obtain ⟨op, _, diskEq⟩ := List.mem_map.1 inside
  rw [← diskEq]

theorem accepts_range {bound : ℕ} (inRange : bound ≤ (flatOps states).length) :
    suite.testComboValidity (Finset.range bound) = .ok true := by
  have suiteEq := fresh.suiteEq
  obtain ⟨deps, returned, _⟩ := bind_eq_ok_iff.1 suiteEq
  obtain ⟨built, builtEq, sameLength, exact⟩ := testSuiteOf_exactAt returned
  rw [suiteEq, Except.ok.injEq] at builtEq
  subst builtEq
  have known : ∀ id ∈ Finset.range bound, id < suite.opList.length := by
    intro id member
    rw [sameLength]
    exact lt_of_lt_of_le (Finset.mem_range.1 member) inRange
  have closed : ClosedUnder (HiddenEdge deps) {x | x ∈ Finset.range bound} := by
    simpa only [Finset.mem_range] using
      closedUnder_initial_segment (backward_hiddenEdge returned) bound
  exact (ALCTestSuite.testComboValidity_iff_closedUnder (sameLength ▸ exact) known).2 closed

end

end Fresh

/-- An end point at an existing disk operation is legal without omissions,
unless it lies inside a `sync`. -/
theorem isLegal_of_included {names : Names} {fs : Defaultfs} {microOps : List MicroOp}
    {states : List MicroOpState} {suite : ALCTestSuite}
    (fresh : Fresh names fs microOps states suite) (sameOps : replayer.microOps = states)
    (sameSuite : replayer.testSuite = suite) (lookup : states[replayer.microEnd]? = some state)
    (inRange : replayer.diskEnd < state.diskOps.length - 1) :
    replayer.isLegal = .ok (!state.isSync) := by
  have here : replayer.microOps[replayer.microEnd]? = some state := sameOps ▸ lookup
  have short : replayer.diskEnd < state.diskOps.length := by omega
  rw [isLegal, legalIndices, here]
  cases isSync : state.isSync with
  | true => simp [inRange, isSync, bind, Except.bind, pure, Except.pure]
  | false =>
    obtain ⟨disks, reached⟩ := exists_reached here short
    obtain ⟨rest, flat⟩ := reached.isPrefix_flat
    have allIncluded : ∀ disk ∈ disks, disk.omitted = false := by
      intro disk member
      have inFlat : disk ∈ replayer.microOps.flatMap MicroOpState.diskOps := by
        rw [flat]
        exact List.mem_append_left _ member
      obtain ⟨owner, ownerMember, inside⟩ := List.mem_flatMap.1 inFlat
      exact fresh.allIncluded owner (sameOps ▸ ownerMember) disk inside
    have kept : replayer.SyncsKept := fun owner member _ =>
      fresh.allIncluded owner (sameOps ▸ member)
    have numbers : retainedFrom 0 disks = List.range disks.length := by
      rw [retainedFrom_of_included allIncluded, List.range_eq_range']
    have known : disks.length ≤ (flatOps states).length := by
      have lengths := congrArg List.length flat
      rw [sameOps] at lengths
      simp only [flatOps, List.length_flatMap, List.length_map, List.length_append] at lengths ⊢
      omega
    simp only [isSync, Bool.false_eq_true, false_and, if_false, bind]
    rw [kept.legalMicroLoop reached, List.nil_append, numbers]
    simp only [Except.bind, Bool.not_false]
    rw [sameSuite, List.toFinset_range]
    exact fresh.accepts_range known

/-! ## Omitting and including again -/

theorem setOmitted_eq {j : ℕ} (lookup : replayer.microOps[i]? = some state)
    (inRange : j < state.diskOps.length) (omitted : Bool) : replayer.setOmitted i j omitted =
      .ok { replayer with
        microOps := replayer.microOps.set i { state with
          diskOps := state.diskOps.modify j fun disk =>
            { disk with omitted := omitted } } } := by
  rw [setOmitted, lookup]
  exact if_pos inRange

theorem set_self {microOps : List MicroOpState} (lookup : microOps[i]? = some state)
    : microOps.set i state = microOps := by
  obtain ⟨bound, stateEq⟩ := List.getElem?_eq_some_iff.1 lookup
  rw [← stateEq, List.set_getElem_self]

theorem modify_included {disks : List DiskOpState} (j : ℕ)
    (allIncluded : ∀ disk ∈ disks, disk.omitted = false) (change : DiskOpState → DiskOpState)
    (fixed : ∀ disk : DiskOpState, disk.omitted = false → change disk = disk) :
    disks.modify j change = disks := by
  apply List.ext_getElem?
  intro position
  rw [List.getElem?_modify]
  split
  · cases lookup : disks[position]? with
    | none => rfl
    | some disk =>
      have included := allIncluded disk (List.mem_of_getElem? lookup)
      simp [fixed disk included]
  · simp

/-- The loop over `k` leaves the omissions as they were. -/
theorem dopsInclude_dopsOmit {middle last : Replayer} {k : ℕ}
    (allIncluded : AllIncluded replayer.microOps) (omitted : replayer.dopsOmit i k = .ok middle)
    (included : middle.dopsInclude i k = .ok last) : last = replayer := by
  cases lookup : replayer.microOps[i]? with
  | none =>
    rw [dopsOmit, lookup] at omitted
    simp at omitted
  | some state =>
    have here : ∀ disk ∈ state.diskOps, disk.omitted = false :=
      allIncluded state (List.mem_of_getElem? lookup)
    have inRange : k < state.diskOps.length := by
      by_contra outside
      rw [dopsOmit, lookup] at omitted
      simp [outside, setOmitted, lookup] at omitted
    rw [dopsOmit, lookup] at omitted
    simp only [inRange, true_and] at omitted
    cases isStdout : state.isStdout with
    | true =>
      rw [isStdout, if_pos rfl, Except.ok.injEq] at omitted
      subst omitted
      rw [dopsInclude, setOmitted_eq lookup inRange, Except.ok.injEq] at included
      rw [← included, modify_included k here _ (by
        intro disk notOmitted
        rw [← notOmitted]), set_self lookup]
    | false =>
      rw [isStdout, if_neg Bool.false_ne_true,
        setOmitted_eq lookup inRange, Except.ok.injEq] at omitted
      subst omitted
      have bound : i < replayer.microOps.length := (List.getElem?_eq_some_iff.1 lookup).1
      rw [dopsInclude, setOmitted_eq (List.getElem?_set_self bound) (by simpa using inRange),
        Except.ok.injEq] at included
      rw [← included]
      simp only [List.set_set, List.modify_modify_eq]
      rw [modify_included k here _ (by
        intro disk notOmitted
        simp only [Function.comp]
        rw [← notOmitted]), set_self lookup]

end Replayer

namespace AtomicityPhase

/-! ## What is enqueued -/

section

variable (env : ExplorerEnv) (microOps : List MicroOp)

/-- `(i, j)` is a disk operation but the last of an operation other than
`sync`, in the expansion under `mode`. -/
def Inside (mode : CheckMode) (i j : ℕ) : Prop :=
  ∃ microOp ops, microOps[i]? = some microOp ∧
    microOp.kind.isSync = false ∧
    (mode.fs env.ceilDiv).getDiskOps microOp.kind = .ok ops ∧
    j + 1 < ops.length

/-- The `atomicity` text of a disk operation in the expansion under `mode`. -/
def TextAt (mode : CheckMode) (i j : ℕ) (text : String) : Prop :=
  ∃ microOp ops op, microOps[i]? = some microOp ∧
    (mode.fs env.ceilDiv).getDiskOps microOp.kind = .ok ops ∧
    ops[j]? = some op ∧ op.atomicity? = some text

/-- Every state in the queue has its explanation. -/
def Explained (phase : AtomicityPhase) : Prop :=
  ∀ mode i j, .whole mode i j ∈ phase.queue →
    ∃ text, TextAt env microOps mode i j text ∧
      phase.explanations mode i j = some text

end

/-- The queue gains exactly these states without omissions. -/
def Gains (before after : AtomicityPhase) (new : CheckMode → ℕ → ℕ → Prop) : Prop :=
  ∀ mode i j, .whole mode i j ∈ after.queue ↔ .whole mode i j ∈ before.queue ∨ new mode i j

/-- The replayer of the phase has these operations and this test suite. -/
def Serves (states : List MicroOpState) (suite : ALCTestSuite) (phase : AtomicityPhase) : Prop :=
  phase.replayer.microOps = states ∧ phase.replayer.testSuite = suite

variable {env : ExplorerEnv} {mode : CheckMode} {j : ℕ} {phase : AtomicityPhase}
  {microOps : List MicroOp}

theorem mem_checkLater_iff {replayer : Replayer} {before after : List StateId}
    {id other : StateId} (different : other ≠ id)
    (checked : checkLater env replayer before id = .ok after) : other ∈ after ↔ other ∈ before := by
  obtain ⟨legal, _, checked⟩ := bind_eq_ok_iff.1 checked
  cases legal with
  | false =>
    rw [if_neg Bool.false_ne_true, pure_eq_ok_iff] at checked
    rw [checked]
  | true =>
    obtain ⟨_, _, checked⟩ := bind_eq_ok_iff.1 checked
    rw [pure_eq_ok_iff] at checked
    simp [← checked, different]

/-- States with omissions do not concern the others. -/
theorem omitLoop_spec {i : ℕ} {ks : List ℕ} {after : AtomicityPhase}
    (allIncluded : Replayer.AllIncluded phase.replayer.microOps)
    (looped : omitLoop env mode i j ks phase = .ok after) : after.replayer = phase.replayer ∧
      after.explanations = phase.explanations ∧ ∀ mode' i' j', .whole mode' i' j' ∈ after.queue ↔
        .whole mode' i' j' ∈ phase.queue := by
  induction ks generalizing phase with
  | nil =>
    rw [omitLoop, Except.ok.injEq] at looped
    subst looped
    exact ⟨rfl, rfl, fun _ _ _ => Iff.rfl⟩
  | cons k rest ih =>
    obtain ⟨omitted, omittedEq, looped⟩ := bind_eq_ok_iff.1 looped
    obtain ⟨queue, queueEq, looped⟩ := bind_eq_ok_iff.1 looped
    obtain ⟨included, includedEq, looped⟩ := bind_eq_ok_iff.1 looped
    have restored : included = phase.replayer :=
      Replayer.dopsInclude_dopsOmit allIncluded omittedEq includedEq
    subst restored
    let next : AtomicityPhase := { phase with queue := queue }
    have nextIncluded : Replayer.AllIncluded next.replayer.microOps := allIncluded
    obtain ⟨sameReplayer, sameTexts, sameWhole⟩ := ih nextIncluded looped
    refine ⟨sameReplayer, sameTexts, ?_⟩
    intro mode' i' j'
    rw [sameWhole mode' i' j']
    exact mem_checkLater_iff (by simp) queueEq

section

variable {env : ExplorerEnv} {microOps : List MicroOp} {mode : CheckMode}
  {states : List MicroOpState} {suite : ALCTestSuite}

variable {phase after : AtomicityPhase}

section

variable (fresh : Replayer.Fresh env.names (mode.fs env.ceilDiv) microOps states suite)
include fresh

theorem checkEnd_spec (serves : Serves states suite phase)
    (explained : Explained env microOps phase) {i j : ℕ} {microOp : MicroOp} {ops : List DiskOp}
    (atI : microOps[i]? = some microOp)
    (expansion : (mode.fs env.ceilDiv).getDiskOps microOp.kind = .ok ops)
    (inside : j + 1 < ops.length) (checked : checkEnd env mode i j phase = .ok after) :
    Serves states suite after ∧ Explained env microOps after ∧ Gains phase after fun mode' i' j' =>
        mode' = mode ∧ i' = i ∧ j' = j ∧ microOp.kind.isSync = false := by
  obtain ⟨sameOps, sameSuite⟩ := serves
  obtain ⟨ops', opsEq, stateEq⟩ := fresh.lookup atI
  rw [expansion, Except.ok.injEq] at opsEq
  subst opsEq
  have legal : (phase.replayer.dopsEndAt i j).isLegal = .ok (!microOp.kind.isSync) := by
    have endedOps : (phase.replayer.dopsEndAt i j).microOps = states := sameOps
    have endedSuite : (phase.replayer.dopsEndAt i j).testSuite = suite := sameSuite
    refine Replayer.isLegal_of_included fresh endedOps endedSuite stateEq ?_
    simp only [Replayer.dopsEndAt, List.length_map]
    omega
  rw [checkEnd] at checked
  simp only [legal, ok_bind] at checked
  cases isSync : microOp.kind.isSync with
  | true =>
    simp only [isSync, Bool.not_true, Bool.false_eq_true, if_false, pure_eq_ok_iff] at checked
    subst checked
    refine ⟨⟨sameOps, sameSuite⟩, explained, ?_⟩
    intro mode' i' j'
    simp
  | false =>
    simp only [isSync, Bool.not_false, if_true] at checked
    obtain ⟨_, _, checked⟩ := bind_eq_ok_iff.1 checked
    obtain ⟨text, textEq, checked⟩ := bind_eq_ok_iff.1 checked
    rw [pure_eq_ok_iff] at checked
    subst checked
    have textAt : TextAt env microOps mode i j text := by
      have endedOps : (phase.replayer.dopsEndAt i j).microOps[i]? =
            some ⟨microOp, ops.map fun op => ⟨op, false⟩⟩ := by
        rw [← stateEq, ← sameOps]
        rfl
      have bound : j < ops.length := by omega
      rw [atomicityOf, endedOps] at textEq
      simp only [Option.bind_some, List.getElem?_map,
        List.getElem?_eq_getElem bound, Option.map_some] at textEq
      refine ⟨microOp, ops, ops[j], atI, expansion, List.getElem?_eq_getElem bound, ?_⟩
      cases atomicity : ops[j].atomicity? with
      | none => simp [atomicity] at textEq
      | some found => simpa [atomicity] using textEq
    refine ⟨⟨sameOps, sameSuite⟩, ?_, ?_⟩
    · intro mode' i' j' member
      by_cases same : mode' = mode ∧ i' = i ∧ j' = j
      · obtain ⟨modeEq, iEq, jEq⟩ := same
        subst modeEq iEq jEq
        exact ⟨text, textAt, by simp [explain]⟩
      · have earlier : StateId.whole mode' i' j' ∈ phase.queue := by simpa [same] using member
        obtain ⟨old, oldAt, oldEq⟩ := explained mode' i' j' earlier
        exact ⟨old, oldAt, by simpa [explain, same] using oldEq⟩
    · intro mode' i' j'
      simp

theorem endLoop_spec {i : ℕ} {microOp : MicroOp} {ops : List DiskOp}
    (atI : microOps[i]? = some microOp)
    (expansion : (mode.fs env.ceilDiv).getDiskOps microOp.kind = .ok ops) {js : List ℕ}
    (inside : ∀ j ∈ js, j + 1 < ops.length) (serves : Serves states suite phase)
    (explained : Explained env microOps phase) (looped : endLoop env mode i js phase = .ok after) :
    Serves states suite after ∧ Explained env microOps after ∧ Gains phase after fun mode' i' j' =>
        mode' = mode ∧ i' = i ∧ j' ∈ js ∧ microOp.kind.isSync = false := by
  induction js generalizing phase with
  | nil =>
    rw [endLoop, Except.ok.injEq] at looped
    subst looped
    refine ⟨serves, explained, ?_⟩
    intro mode' i' j'
    simp
  | cons j rest ih =>
    obtain ⟨checked, checkedEq, looped⟩ := bind_eq_ok_iff.1 looped
    obtain ⟨omitted, omittedEq, looped⟩ := bind_eq_ok_iff.1 looped
    obtain ⟨checkedServes, checkedExplained, checkedGains⟩ :=
      checkEnd_spec fresh serves explained atI expansion (inside j List.mem_cons_self) checkedEq
    have allIncluded : Replayer.AllIncluded checked.replayer.microOps := by
      rw [checkedServes.1]
      exact fresh.allIncluded
    obtain ⟨sameReplayer, sameTexts, sameWhole⟩ := omitLoop_spec allIncluded omittedEq
    have omittedServes : Serves states suite omitted := by
      rw [Serves, sameReplayer]
      exact checkedServes
    have omittedExplained : Explained env microOps omitted := by
      intro mode' i' j' member
      rw [sameTexts]
      exact checkedExplained mode' i' j' ((sameWhole mode' i' j').1 member)
    obtain ⟨afterServes, afterExplained, afterGains⟩ := ih (fun other member => inside other
        (List.mem_cons_of_mem _ member)) omittedServes omittedExplained looped
    refine ⟨afterServes, afterExplained, ?_⟩
    intro mode' i' j'
    rw [afterGains, sameWhole, checkedGains]
    simp only [List.mem_cons]
    tauto

theorem microLoop_spec {patch : Finset ℕ} {is : List ℕ} (known : ∀ i ∈ is, i < microOps.length)
    (serves : Serves states suite phase) (explained : Explained env microOps phase)
    (looped : microLoop env mode patch is phase = .ok after) :
    Serves states suite after ∧ Explained env microOps after ∧ Gains phase after fun mode' i' j' =>
        mode' = mode ∧ i' ∈ is ∧ ¬ Skipped patch i' ∧
          Inside env microOps mode' i' j' := by
  induction is generalizing phase with
  | nil =>
    rw [microLoop, Except.ok.injEq] at looped
    subst looped
    refine ⟨serves, explained, ?_⟩
    intro mode' i' j'
    simp
  | cons i rest ih =>
    have restKnown : ∀ other ∈ rest, other < microOps.length :=
      fun other member => known other (List.mem_cons_of_mem _ member)
    rw [microLoop] at looped
    by_cases skipped : Skipped patch i
    · rw [if_pos skipped] at looped
      obtain ⟨afterServes, afterExplained, afterGains⟩ := ih restKnown serves explained looped
      refine ⟨afterServes, afterExplained, ?_⟩
      intro mode' i' j'
      rw [afterGains]
      simp only [List.mem_cons]
      constructor
      · rintro (earlier | ⟨modeEq, member, rest⟩)
        · exact Or.inl earlier
        · exact Or.inr ⟨modeEq, Or.inr member, rest⟩
      · rintro (earlier | ⟨modeEq, here | member, notSkipped, inside⟩)
        · exact Or.inl earlier
        · exact False.elim (notSkipped (here ▸ skipped))
        · exact Or.inr ⟨modeEq, member, notSkipped, inside⟩
    · rw [if_neg skipped] at looped
      obtain ⟨length, lengthEq, looped⟩ := bind_eq_ok_iff.1 looped
      obtain ⟨ended, endedEq, looped⟩ := bind_eq_ok_iff.1 looped
      have bound : i < microOps.length := known i List.mem_cons_self
      have atI : microOps[i]? = some microOps[i] := List.getElem?_eq_getElem bound
      obtain ⟨ops, expansion, stateEq⟩ := fresh.lookup atI
      have lengthIs : length = ops.length := by
        rw [Replayer.dopsLen, serves.1, stateEq] at lengthEq
        simpa using lengthEq.symm
      have insideAll : ∀ j ∈ List.range (length - 1), j + 1 < ops.length := by
        intro j member
        have below := List.mem_range.1 member
        omega
      obtain ⟨endedServes, endedExplained, endedGains⟩ :=
        endLoop_spec fresh atI expansion insideAll serves explained endedEq
      obtain ⟨afterServes, afterExplained, afterGains⟩ :=
        ih restKnown endedServes endedExplained looped
      refine ⟨afterServes, afterExplained, ?_⟩
      intro mode' i' j'
      rw [afterGains, endedGains]
      have here : (mode' = mode ∧ i' = i ∧ j' ∈ List.range (length - 1) ∧
              microOps[i].kind.isSync = false) ↔
            mode' = mode ∧ i' = i ∧ Inside env microOps mode' i' j' := by
        constructor
        · rintro ⟨modeEq, iEq, member, notSync⟩
          subst modeEq iEq
          exact ⟨rfl, rfl, microOps[i'], ops, atI, notSync, expansion, insideAll j' member⟩
        · rintro ⟨modeEq, iEq, microOp, ops', at', notSync, expansion', inside⟩
          subst modeEq iEq
          rw [atI, Option.some.injEq] at at'
          subst at'
          rw [expansion, Except.ok.injEq] at expansion'
          subst expansion'
          refine ⟨rfl, rfl, List.mem_range.2 ?_, notSync⟩
          omega
      simp only [here, List.mem_cons]
      constructor
      · rintro ((earlier | ⟨modeEq, iEq, inside⟩) | ⟨modeEq, member, notSkipped, inside⟩)
        · exact Or.inl earlier
        · exact Or.inr ⟨modeEq, Or.inl iEq, iEq ▸ skipped, inside⟩
        · exact Or.inr ⟨modeEq, Or.inr member, notSkipped, inside⟩
      · rintro (earlier | ⟨modeEq, iEq | member, notSkipped, inside⟩)
        · exact Or.inl (Or.inl earlier)
        · exact Or.inl (Or.inr ⟨modeEq, iEq, inside⟩)
        · exact Or.inr ⟨modeEq, member, notSkipped, inside⟩

end

end

theorem modeLoop_spec {patch : Finset ℕ} {modes : List CheckMode} {after : AtomicityPhase}
    (explained : Explained env microOps phase)
    (looped : modeLoop env microOps patch modes phase = .ok after) : Explained env microOps after ∧
      (∀ mode ∈ modes.getLast?, ∃ states suite,
        Replayer.Fresh env.names (mode.fs env.ceilDiv) microOps states
          suite ∧ Serves states suite after) ∧ Gains phase after fun mode i j =>
        mode ∈ modes ∧ i < microOps.length ∧ ¬ Skipped patch i ∧
          Inside env microOps mode i j := by
  induction modes generalizing phase with
  | nil =>
    rw [modeLoop, Except.ok.injEq] at looped
    subst looped
    refine ⟨explained, by simp, ?_⟩
    intro mode i j
    simp
  | cons mode rest ih =>
    obtain ⟨replayer, made, looped⟩ := bind_eq_ok_iff.1 looped
    obtain ⟨middle, middleEq, looped⟩ := bind_eq_ok_iff.1 looped
    have fresh := Replayer.setFs_fresh made
    let start : AtomicityPhase := { phase with replayer := replayer }
    have startServes : Serves replayer.microOps replayer.testSuite start := ⟨rfl, rfl⟩
    have startExplained : Explained env microOps start := explained
    obtain ⟨middleServes, middleExplained, middleGains⟩ := microLoop_spec fresh
      (fun i member => List.mem_range.1 member) startServes startExplained middleEq
    obtain ⟨afterExplained, afterServes, afterGains⟩ := ih middleExplained looped
    refine ⟨afterExplained, ?_, ?_⟩
    · cases rest with
      | nil =>
        rw [modeLoop, Except.ok.injEq] at looped
        subst looped
        intro last lastEq
        simp only [List.getLast?_singleton, Option.mem_def, Option.some.injEq] at lastEq
        subst lastEq
        exact ⟨_, _, fresh, middleServes⟩
      | cons next rest => simpa only [List.getLast?_cons_cons] using afterServes
    · intro mode' i j
      rw [afterGains, middleGains]
      simp only [List.mem_range, List.mem_cons]
      have sameStart : StateId.whole mode' i j ∈ start.queue ↔
            StateId.whole mode' i j ∈ phase.queue := Iff.rfl
      tauto

/-! ## What is collected -/

/-- Operation `i` is reported, with the text among its explanations. -/
def Reports (phase : AtomicityPhase) (verdict : StateId → ℤ) (i : ℕ) (text : String) : Prop :=
  ∃ texts, phase.dynamicVuls verdict i = .ok texts ∧ text ∈ texts

theorem mem_positions_iff {length : ℕ} : (j, mode) ∈ positions length ↔ j < length - 1 := by
  rw [positions, List.mem_flatMap]
  constructor
  · rintro ⟨k, inRange, member⟩
    obtain ⟨_, _, pairEq⟩ := List.mem_map.1 member
    have jEq : k = j := congrArg Prod.fst pairEq
    exact jEq ▸ List.mem_range.1 inRange
  · intro below
    exact ⟨j, List.mem_range.2 below, List.mem_map.2 ⟨mode, CheckMode.mem_all mode, rfl⟩⟩

theorem TextAt.unique {i : ℕ} {first second : String}
    (firstAt : TextAt env microOps mode i j first)
    (secondAt : TextAt env microOps mode i j second) : first = second := by
  obtain ⟨microOp, ops, op, atI, expansion, atJ, text⟩ := firstAt
  obtain ⟨microOp', ops', op', atI', expansion', atJ', text'⟩ := secondAt
  rw [atI, Option.some.injEq] at atI'
  subst atI'
  rw [expansion, Except.ok.injEq] at expansion'
  subst expansion'
  rw [atJ, Option.some.injEq] at atJ'
  subst atJ'
  rwa [text, Option.some.injEq] at text'

/-- The first collecting loop returns the explanations of the failing states
within its bounds. -/
theorem explained_spec (explained : Explained env microOps phase) (verdict : StateId → ℤ)
    (i length : ℕ) : ∃ texts, phase.explained verdict i length = .ok texts ∧
      ∀ text, text ∈ texts ↔ ∃ mode, ∃ j < length - 1, phase.Fails verdict (.whole mode i j) ∧
          phase.explanations mode i j = some text := by
  have general : ∀ list : List (ℕ × CheckMode), (∀ position ∈ list,
        phase.Fails verdict (.whole position.2 i position.1)) →
      ∃ texts, list.mapM (phase.explanation i) = .ok texts ∧
        ∀ text, text ∈ texts ↔ ∃ position ∈ list,
          phase.explanations position.2 i position.1 = some text := by
    intro list
    induction list with
    | nil =>
      intro _
      exact ⟨[], rfl, by simp⟩
    | cons position rest ih =>
      intro fail
      obtain ⟨texts, textsEq, mem_texts⟩ := ih fun other member =>
          fail other (List.mem_cons_of_mem _ member)
      obtain ⟨text, _, textEq⟩ := explained position.2 i position.1
        (fail position List.mem_cons_self).1
      refine ⟨text :: texts, ?_, ?_⟩
      · rw [List.mapM_cons, textsEq, explanation, textEq]
        rfl
      · intro other
        simp [mem_texts, textEq, eq_comm]
  obtain ⟨texts, textsEq, mem_texts⟩ := general ((positions length).filter fun position =>
      phase.Fails verdict (.whole position.2 i position.1))
    (fun position member => by simpa using (List.mem_filter.1 member).2)
  refine ⟨texts, textsEq, ?_⟩
  intro text
  rw [mem_texts]
  constructor
  · rintro ⟨⟨j, mode⟩, member, textEq⟩
    obtain ⟨inside, fails⟩ := List.mem_filter.1 member
    exact ⟨mode, j, mem_positions_iff.1 inside, of_decide_eq_true fails, textEq⟩
  · rintro ⟨mode, j, below, fails, textEq⟩
    exact ⟨(j, mode), List.mem_filter.2 ⟨mem_positions_iff.2 below, decide_eq_true fails⟩, textEq⟩

section Collected

variable
  {env : ExplorerEnv} {microOps : List MicroOp} {phase : AtomicityPhase}
  {mode : CheckMode} {i j length : ℕ}
  (explained : Explained env microOps phase)
  (lengthEq : phase.replayer.dopsLen i = .ok length)

include explained lengthEq

theorem reports_of_lt {verdict : StateId → ℤ} {text : String} (below : j < length - 1)
    (fails : phase.Fails verdict (.whole mode i j)) (textAt : TextAt env microOps mode i j text) :
    phase.Reports verdict i text := by
  obtain ⟨texts, textsEq, mem_texts⟩ := explained_spec explained verdict i length
  obtain ⟨found, foundAt, explanationEq⟩ := explained mode i j fails.1
  have sameText : found = text := foundAt.unique textAt
  subst sameText
  have member : found ∈ texts := (mem_texts found).2 ⟨mode, j, below, fails, explanationEq⟩
  have nonempty : texts ≠ [] := List.ne_nil_of_mem member
  refine ⟨texts, ?_, member⟩
  rw [dynamicVuls, lengthEq, ok_bind, textsEq, ok_bind, if_neg nonempty]
  rfl

/-- If the only failing state is beyond these bounds, nothing is reported. -/
theorem dynamicVuls_of_le (beyond : length - 1 ≤ j) :
    phase.dynamicVuls (fun id => if id = .whole mode i j then 1 else 0) i = .ok [] := by
  obtain ⟨found, foundEq, mem_found⟩ := explained_spec explained
      (fun id => if id = .whole mode i j then 1 else 0) i length
  have noneFound : found = [] := by
    apply List.eq_nil_iff_forall_not_mem.2
    intro other otherMember
    obtain ⟨mode', j', below, fails, _⟩ := (mem_found other).1 otherMember
    have elsewhere : StateId.whole mode' i j' ≠ StateId.whole mode i j := by
      intro same
      have jEq : j' = j := (StateId.whole.injEq .. ▸ same).2.2
      omega
    exact fails.2 (if_neg elsewhere)
  have noneOmitted : phase.unexplained (fun id => if id = .whole mode i j then 1 else 0) i
        length = [] := by
    apply if_neg
    simp [Fails]
  rw [dynamicVuls, lengthEq, ok_bind, foundEq, ok_bind, noneFound, if_pos rfl, noneOmitted]
  rfl

end Collected

/-- Two bytes of a file are overwritten. -/
def twoByteWrite : List MicroOp :=
  [⟨.write ⟨7, 0, 2, "dump", 0⟩, .pwrite⟩]

def twoByteEnv : ExplorerEnv where
  names := .asWritten
  ceilDiv := .unrounded
  replayEnv := ⟨fun _ => some [65, 66], fun _ _ => 0⟩

end AtomicityPhase

end Alice
