import Alice.Explorer.Reported
import Alice.Replay.LogicalOps

/-! # Every state that is explained has an explanation

`default_checks` reads the `atomicity` field of the disk operation that a state
ends at.  All disk operations but the last of an expansion have the field,
except those of a `sync`, and `is_legal` accepts no state that ends inside a
`sync`. -/

namespace Alice

open Posix (Path)
open Checked

namespace DiskOp

/-- The disk operation has the field `atomicity`. -/
def Labelled (op : DiskOp) : Prop :=
  ∃ text, op.atomicity? = some text

theorem Changes.labelled {op : DiskOp} {file : Inode} {source : Option String}
    (changes : op.Changes file source) : op.Labelled := by
  cases op with
  | write written => exact ⟨_, rfl⟩
  | truncate inode initialSize finalSize text => exact ⟨text, rfl⟩
  | _ => exact False.elim changes

end DiskOp

/-! ## Expansions -/

namespace Defaultfs

variable {fs : Defaultfs} {ops : List DiskOp}

theorem labelled_unlinkDiskOps {parent file : Inode} {name : Path} {size hardlinks : ℕ}
    {entryType : EntryType} {atomicityPrefix : String}
    (expanded : fs.unlinkDiskOps parent file name size hardlinks entryType atomicityPrefix =
      .ok ops) : ∀ op ∈ ops.dropLast, op.Labelled := by
  obtain ⟨truncates, changes, _, opsEq⟩ := unlinkDiskOps_eq expanded
  subst opsEq
  intro op member
  rw [List.dropLast_concat] at member
  exact (changes op member).labelled

theorem labelled_renameDiskOps {info : RenameInfo} (expanded : fs.renameDiskOps info = .ok ops) :
    ∀ op ∈ ops.dropLast, op.Labelled := by
  obtain ⟨truncates, destDeleted, changes, _, destEq, opsEq⟩ := renameDiskOps_eq expanded
  subst opsEq
  intro op member
  rw [List.dropLast_append_cons] at member
  simp only [List.dropLast, List.mem_append, List.mem_singleton] at member
  rcases member with (truncate | deleted) | isSource
  · exact (changes op truncate).labelled
  · rw [destEq] at deleted
    split at deleted
    · rw [List.mem_singleton.1 deleted]
      exact ⟨_, rfl⟩
    · exact absurd deleted List.not_mem_nil
  · rw [isSource]
    exact ⟨_, rfl⟩

/-- Only a `sync` has disk operations before its last without the field. -/
theorem labelled_getDiskOps {kind : MicroOpKind} (notSync : kind.isSync = false)
    (expanded : fs.getDiskOps kind = .ok ops) : ∀ op ∈ ops.dropLast, op.Labelled := by
  cases kind with
  | sync hiddenFiles => exact absurd notSync (by simp [MicroOpKind.isSync])
  | unlink name inode parent size hardlinks => exact labelled_unlinkDiskOps expanded
  | rmdir name inode parent =>
    rw [getDiskOps] at expanded
    exact labelled_unlinkDiskOps expanded
  | rename info => exact labelled_renameDiskOps expanded
  | trunc inode initialSize finalSize | append range =>
    intro op member
    exact (changes_truncDiskOps expanded op (List.mem_of_mem_dropLast member)).labelled
  | write range =>
    intro op member
    exact (changes_writeDiskOps expanded op (List.mem_of_mem_dropLast member)).labelled
  | mkdir name mode inode parent =>
    obtain ⟨value, _, expanded⟩ := bind_eq_ok_iff.1 expanded
    rw [pure_eq_ok_iff] at expanded
    simp [← expanded, linkDiskOps]
  | _ =>
    rw [getDiskOps, Except.ok.injEq] at expanded
    simp [← expanded, linkDiskOps]

end Defaultfs

namespace AtomicityPhase

theorem labelled_of_legal {fs : Defaultfs} {replayer : Replayer} {i j : ℕ}
    {state : MicroOpState} (atI : replayer.microOps[i]? = some state)
    (expanded : Replayer.expand fs state.microOp = .ok state)
    (inside : j + 1 < state.diskOps.length) (legal : (replayer.dopsEndAt i j).isLegal = .ok true) :
    ∃ disk text, state.diskOps[j]? = some disk ∧ disk.op.atomicity? = some text := by
  have notSync : state.isSync = false := by
    by_contra isSync
    have early : (j : ℤ) < state.diskOps.length - 1 := by omega
    rw [Replayer.isLegal, Replayer.legalIndices] at legal
    simp [Replayer.dopsEndAt, atI, isSync, early] at legal
  obtain ⟨ops, expansion, stateEq⟩ := map_eq_ok_iff.1 expanded
  have diskOpsEq : state.diskOps = ops.map fun op => ⟨op, false⟩ := by
    rw [← stateEq]
  rw [diskOpsEq, List.length_map] at inside
  have bound : j < ops.dropLast.length := by
    rw [List.length_dropLast]
    omega
  obtain ⟨text, textEq⟩ := Defaultfs.labelled_getDiskOps notSync expansion
    ops.dropLast[j] (List.getElem_mem bound)
  rw [List.getElem_dropLast] at textEq
  have known : j < ops.length := by omega
  refine ⟨⟨ops[j], false⟩, text, ?_, textEq⟩
  rw [diskOpsEq, List.getElem?_map, List.getElem?_eq_getElem known, Option.map_some]

/-! ## The points that the phase comes to -/

section

variable (env : ExplorerEnv) (microOps : List MicroOp) (patch : Finset ℕ) (replayer : Replayer)
  (mode : CheckMode)

/-- `set_fs` has been called for `mode`, after the loops of the modes before. -/
def ReachesMode (phase : AtomicityPhase) : Prop :=
  ∃ before later atMode made, CheckMode.all = before ++ mode :: later ∧
    modeLoop env microOps patch before ⟨replayer, [], fun _ _ _ => none⟩ = .ok atMode ∧
    Replayer.setFs env.names (mode.fs env.ceilDiv) atMode.replayer.snapshot microOps
      atMode.replayer.microEnd atMode.replayer.diskEnd = .ok made ∧
    phase = { atMode with replayer := made }

/-- The operation `i` is looked at, after the operations before it. -/
def ReachesOp (i : ℕ) (phase : AtomicityPhase) : Prop :=
  ∃ atMode before later, ReachesMode env microOps patch replayer mode atMode ∧
    List.range microOps.length = before ++ i :: later ∧
    microLoop env mode patch before atMode = .ok phase ∧
    ¬ Skipped patch i

/-- The state that ends at `(i, j)` is next, after those that end before. -/
def ReachesEnd (i j : ℕ) (phase : AtomicityPhase) : Prop :=
  ∃ atOp length before later, ReachesOp env microOps patch replayer mode i atOp ∧
    atOp.replayer.dopsLen i = .ok length ∧
    List.range (length - 1) = before ++ j :: later ∧
    endLoop env mode i before atOp = .ok phase

end

section

variable {env : ExplorerEnv} {microOps : List MicroOp} {patch : Finset ℕ} {replayer : Replayer}
  {mode : CheckMode} {i j : ℕ} {phase : AtomicityPhase}

theorem ReachesMode.spec (reaches : ReachesMode env microOps patch replayer mode phase) :
    Replayer.Fresh env.names (mode.fs env.ceilDiv) microOps phase.replayer.microOps
        phase.replayer.testSuite ∧
      Explained env microOps phase := by
  obtain ⟨before, later, atMode, made, _, looped, setEq, phaseEq⟩ := reaches
  have startExplained : Explained env microOps ⟨replayer, [], fun _ _ _ => none⟩ := by
    intro mode i j member
    exact absurd member List.not_mem_nil
  have explained : Explained env microOps atMode := (modeLoop_spec startExplained looped).1
  subst phaseEq
  exact ⟨Replayer.setFs_fresh setEq, explained⟩

theorem ReachesOp.spec (reaches : ReachesOp env microOps patch replayer mode i phase) :
    i < microOps.length ∧
      Replayer.Fresh env.names (mode.fs env.ceilDiv) microOps phase.replayer.microOps
        phase.replayer.testSuite ∧
      Explained env microOps phase := by
  obtain ⟨atMode, before, later, reachesMode, rangeEq, looped, _⟩ := reaches
  obtain ⟨fresh, explained⟩ := reachesMode.spec
  have known : ∀ other ∈ before ++ i :: later, other < microOps.length := by
    rw [← rangeEq]
    exact fun other member => List.mem_range.1 member
  have knownBefore : ∀ other ∈ before, other < microOps.length :=
    fun other member => known other (List.mem_append_left _ member)
  obtain ⟨⟨sameOps, sameSuite⟩, afterExplained, _⟩ :=
    microLoop_spec fresh knownBefore ⟨rfl, rfl⟩ explained looped
  refine ⟨known i (by simp), ?_, afterExplained⟩
  rw [sameOps, sameSuite]
  exact fresh

/-- The operation as `set_fs` has expanded it, and a disk operation of it that
is not the last. -/
theorem ReachesEnd.spec (reaches : ReachesEnd env microOps patch replayer mode i j phase) :
    ∃ state, phase.replayer.microOps[i]? = some state ∧
      Replayer.expand (mode.fs env.ceilDiv) state.microOp = .ok state ∧
      j + 1 < state.diskOps.length := by
  obtain ⟨atOp, length, before, later, reachesOp, lengthEq, rangeEq, looped⟩ := reaches
  obtain ⟨bound, fresh, explained⟩ := reachesOp.spec
  have atI : microOps[i]? = some microOps[i] := List.getElem?_eq_getElem bound
  obtain ⟨ops, expansion, stateEq⟩ := fresh.lookup atI
  have lengthIs : length = ops.length := by
    rw [Replayer.dopsLen, stateEq] at lengthEq
    simpa using lengthEq.symm
  have inside : ∀ other ∈ before ++ j :: later, other + 1 < ops.length := by
    rw [← rangeEq]
    intro other member
    have below := List.mem_range.1 member
    omega
  have insideBefore : ∀ other ∈ before, other + 1 < ops.length :=
    fun other member => inside other (List.mem_append_left _ member)
  obtain ⟨⟨sameOps, _⟩, _⟩ :=
    endLoop_spec fresh atI expansion insideBefore ⟨rfl, rfl⟩ explained looped
  refine ⟨_, sameOps ▸ stateEq, ?_, ?_⟩
  · rw [Replayer.expand, expansion]
    rfl
  · rw [List.length_map]
    exact inside j (by simp)

end

/-- A disk operation other than the last has the field `atomicity` if a state
that ends at it is legal, whatever is omitted elsewhere.  At every point of the
phase the explanation of a legal state is found and recorded. -/
theorem explanations_recorded :
    (∀ (fs : Defaultfs) (replayer : Replayer) (i j : ℕ) (state : MicroOpState),
      replayer.microOps[i]? = some state →
      Replayer.expand fs state.microOp = .ok state →
      j + 1 < state.diskOps.length →
      (replayer.dopsEndAt i j).isLegal = .ok true →
        ∃ disk text, state.diskOps[j]? = some disk ∧ disk.op.atomicity? = some text) ∧
    ∀ (env : ExplorerEnv) (microOps : List MicroOp) (patch : Finset ℕ) (replayer : Replayer)
      (mode : CheckMode) (i j : ℕ) (phase : AtomicityPhase),
      ReachesEnd env microOps patch replayer mode i j phase →
      (phase.replayer.dopsEndAt i j).isLegal = .ok true →
        ∃ text, atomicityOf (phase.replayer.dopsEndAt i j) i j = .ok text ∧
          ∀ crashed, (phase.replayer.dopsEndAt i j).constructCrashedDir env.replayEnv none =
              .ok crashed →
            ∃ next, checkEnd env mode i j phase = .ok next ∧
              next.explanations mode i j = some text := by
  constructor
  · intro fs replayer i j state atI expanded inside legal
    exact labelled_of_legal atI expanded inside legal
  · intro env microOps patch replayer mode i j phase reaches legal
    obtain ⟨state, atI, expanded, inside⟩ := reaches.spec
    obtain ⟨disk, text, lookup, textEq⟩ := labelled_of_legal atI expanded inside legal
    have found : atomicityOf (phase.replayer.dopsEndAt i j) i j = .ok text := by
      have endedAt : (phase.replayer.dopsEndAt i j).microOps[i]? = some state := atI
      simp [atomicityOf, endedAt, lookup, textEq]
    refine ⟨text, found, ?_⟩
    intro crashed constructed
    refine ⟨⟨phase.replayer.dopsEndAt i j, phase.queue ++ [.whole mode i j],
      explain phase.explanations mode i j text⟩, ?_, by simp [explain]⟩
    rw [checkEnd, legal, ok_bind, if_pos rfl, constructed, ok_bind, found]
    rfl

theorem explanations_recorded_twoByteWrite :
    ∃ replayer phase,
      Replayer.setFs .asWritten (CheckMode.count1.fs .unrounded) (logSnapshot [1, 2])
        twoByteWrite 0 0 = .ok replayer ∧
      ReachesEnd twoByteEnv twoByteWrite ∅ replayer .count3 0 0 phase ∧
      (phase.replayer.dopsEndAt 0 0).isLegal = .ok true ∧
      (∃ state disk text, phase.replayer.microOps[0]? = some state ∧
        state.diskOps[0]? = some disk ∧ disk.op.atomicity? = some text) ∧
      ∃ text, atomicityOf (phase.replayer.dopsEndAt 0 0) 0 0 = .ok text := by
  have run : ∃ replayer phase,
      Replayer.setFs .asWritten (CheckMode.count1.fs .unrounded) (logSnapshot [1, 2])
        twoByteWrite 0 0 = .ok replayer ∧
      ReachesEnd twoByteEnv twoByteWrite ∅ replayer .count3 0 0 phase ∧
      (phase.replayer.dopsEndAt 0 0).isLegal = .ok true :=
    ⟨_, _, rfl, ⟨_, _, [], [], ⟨_, [], [], ⟨[.count1], [.aligned4096], _, _, rfl, rfl, rfl, rfl⟩,
      rfl, rfl, by decide⟩, rfl, rfl, rfl⟩, rfl⟩
  obtain ⟨replayer, phase, made, reaches, legal⟩ := run
  obtain ⟨state, atI, expanded, inside⟩ := reaches.spec
  obtain ⟨disk, diskText, lookup, diskTextEq⟩ :=
    explanations_recorded.1 _ phase.replayer 0 0 state atI expanded inside legal
  obtain ⟨text, found, _⟩ := explanations_recorded.2 _ _ _ _ _ _ _ _ reaches legal
  exact ⟨replayer, phase, made, reaches, legal, ⟨state, disk, diskText, atI, lookup, diskTextEq⟩,
    text, found⟩

end AtomicityPhase

end Alice
