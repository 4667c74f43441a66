import Alice.Legality.Shape
import Alice.Replay.FileData

/-! # What a `sync` guarantees in every legal crash state

A `sync` of a file brings every earlier truncation and every write that starts
at or below its end; other writes have been cut off again.  A `sync` of a
range brings a write only through where the write starts. -/

namespace Alice

open FileContent
open Posix (Bytes)
open BackwardGraph Relation

/-! ## Contents after a legal omission -/

/-- `missing` agrees with `full` on the bytes up to `bound`, and has the same
size unless `full` reaches past `bound`. -/
def AgreeUpTo (bound : ℕ) (full missing : Bytes) : Prop :=
  (∀ position ≤ bound, byteAt full position = byteAt missing position) ∧
    (full.length = missing.length ∨ bound < full.length)

theorem AgreeUpTo.refl (bound : ℕ) (content : Bytes) :
    AgreeUpTo bound content content :=
  ⟨fun _ _ => rfl, Or.inl rfl⟩

variable {bound k : ℕ} {full missing : Bytes} {ops : List TracedOp}

section

variable (agree : AgreeUpTo bound full missing)
include agree

theorem AgreeUpTo.pwrite (offset : ℕ) (data : Bytes) :
    AgreeUpTo bound (pwrite full offset data) (pwrite missing offset data) := by
  by_cases empty : data = []
  · simpa [empty] using agree
  · constructor
    · intro position below
      rw [byteAt_pwrite, byteAt_pwrite, agree.1 position below]
    · rw [length_pwrite _ _ empty, length_pwrite _ _ empty]
      rcases agree.2 with equal | past
      · exact Or.inl (by rw [equal])
      · exact Or.inr (lt_of_lt_of_le past (Nat.le_max_left _ _))

theorem AgreeUpTo.ftruncate (size : ℕ) :
    AgreeUpTo bound (ftruncate full size) (ftruncate missing size) := by
  constructor
  · intro position below
    rw [byteAt_ftruncate, byteAt_ftruncate, agree.1 position below]
  · exact Or.inl (by simp)

theorem AgreeUpTo.pwrite_left {offset : ℕ} (past : bound < offset) (data : Bytes) :
    AgreeUpTo bound (FileContent.pwrite full offset data) missing := by
  by_cases empty : data = []
  · simpa [empty] using agree
  · constructor
    · intro position below
      rw [byteAt_pwrite, if_neg (by omega), agree.1 position below]
    · refine Or.inr ?_
      rw [length_pwrite _ _ empty]
      omega

theorem AgreeUpTo.eq (small : full.length ≤ bound) : missing = full := by
  have sameSize : full.length = missing.length := agree.2.resolve_right (Nat.not_lt_of_le small)
  refine (ext_byteAt sameSize ?_).symm
  intro position inside
  exact agree.1 position (by omega)

end

theorem contentAfter_range_succ (ops : List TracedOp) (data : ℕ → Bytes) (file : Inode)
    (initial : Bytes) (keep : ℕ → Bool) (bound : ℕ) : contentAfter ops data file initial
        ((List.range (bound + 1)).filter keep) =
      if keep bound then
        contentAfter ops data file (contentAfter ops data file initial
            ((List.range bound).filter keep)) [bound]
      else
        contentAfter ops data file initial ((List.range bound).filter keep) := by
  rw [List.range_succ, List.filter_append]
  by_cases kept : keep bound = true
  · simp [kept, contentAfter]
  · simp [kept, contentAfter]

/-- If what is left out below `k` are only writes that start past `bound`, the
two contents agree up to `bound`. -/
theorem agreeUpTo_contentAfter {file : Inode} {keep : ℕ → Bool}
    (truncatesKept : ∀ j < k, ∀ initialSize finalSize atomicity,
      HoldsAt ops j (· = .truncate file initialSize finalSize atomicity) → keep j = true)
    (writesKept : ∀ j < k, ∀ op : WriteOp, HoldsAt ops j (· = .write op) →
      op.inode = file → op.offset ≤ bound → keep j = true) (data : ℕ → Bytes) (initial : Bytes) :
    AgreeUpTo bound (contentAfter ops data file initial (List.range k))
      (contentAfter ops data file initial ((List.range k).filter keep)) := by
  induction k with
  | zero => exact AgreeUpTo.refl bound initial
  | succ k ih =>
    have agree := ih (fun j below => truncatesKept j (Nat.lt_succ_of_lt below))
      (fun j below => writesKept j (Nat.lt_succ_of_lt below))
    have fullStep := contentAfter_range_succ ops data file initial (fun _ => true) k
    simp only [List.filter_true, if_true] at fullStep
    rw [fullStep, contentAfter_range_succ]
    cases lookup : ops[k]? with
    | none => simpa [contentAfter, lookup] using agree
    | some traced =>
      obtain ⟨op, syscall⟩ := traced
      have here : ∀ p, HoldsAt ops k p ↔ p op := fun p => holdsAt_iff lookup
      cases op with
      | write op =>
        by_cases sameFile : op.inode = file
        · by_cases inside : op.offset ≤ bound
          · have kept := writesKept k (Nat.lt_succ_self k) op ((here _).2 rfl) sameFile inside
            simpa [contentAfter, lookup, DiskOp.applyTo, sameFile,
              kept] using agree.pwrite op.offset (data k)
          · have past : bound < op.offset := Nat.lt_of_not_le inside
            by_cases kept : keep k = true
            · simpa [contentAfter, lookup, DiskOp.applyTo, sameFile,
                kept] using agree.pwrite op.offset (data k)
            · simpa [contentAfter, lookup, DiskOp.applyTo, sameFile,
                kept] using agree.pwrite_left past (data k)
        · simpa [contentAfter, lookup, DiskOp.applyTo, sameFile] using agree
      | truncate inode initialSize finalSize atomicity =>
        by_cases sameFile : inode = file
        · subst sameFile
          have kept := truncatesKept k (Nat.lt_succ_self k)
            initialSize finalSize atomicity ((here _).2 rfl)
          simpa [contentAfter, lookup, DiskOp.applyTo, kept] using agree.ftruncate finalSize
        · simpa [contentAfter, lookup, DiskOp.applyTo, sameFile] using agree
      | sync | createDirEntry | deleteDirEntry | stdout =>
        simpa [contentAfter, lookup, DiskOp.applyTo] using agree

/-! ## Whole-file and directory syncs -/

def DiskOp.IsEntryOpIn (directory : Inode) : DiskOp → Prop
  | .createDirEntry parent _ _ _ _ => parent = directory
  | .deleteDirEntry parent _ _ _ _ => parent = directory
  | _ => False

theorem targets_of_isEntryOpIn {point : SyncPoint} {op : DiskOp}
    (entryOp : op.IsEntryOpIn point.inode) :
    Targets point op := by
  cases op with
  | createDirEntry | deleteDirEntry => exact entryOp
  | write | truncate | sync | stdout => exact False.elim entryOp

/-- In every accepted set that contains a `sync`: if its range starts at zero
and reaches the current end of the file, omitting what the set omits does not
change the file; and the set contains every earlier entry operation in the
inode of the `sync`. -/
theorem sync_durable
    (names : Names) (ops : List TracedOp) (deps : List (Finset ℕ))
    (returned : getDeps names ops = .ok deps)
    (combo : Finset ℕ) (accepted : comboValidity names ops combo = .ok true)
    (k : ℕ) (member : k ∈ combo) (point : SyncPoint)
    (pointEq : syncPointAt ops k = some point) :
    (point.offset = 0 → ∀ (data : ℕ → Bytes) (initial : Bytes),
      (contentAfter ops data point.inode initial (List.range k)).length ≤
          point.count →
        contentAfter ops data point.inode initial
            ((List.range k).filter fun i => i ∈ combo) =
          contentAfter ops data point.inode initial (List.range k)) ∧
    ∀ j < k, HoldsAt ops j (DiskOp.IsEntryOpIn point.inode) →
      j ∈ combo := by
  have legal := ((comboValidity_iff returned combo).1 accepted).2
  constructor
  · intro fromZero data initial reached
    have truncatesKept : ∀ j < k, ∀ initialSize finalSize atomicity, HoldsAt ops j
            (· = .truncate point.inode initialSize finalSize atomicity) →
          decide (j ∈ combo) = true := by
      rintro j below initialSize finalSize atomicity ⟨traced, lookup, isTruncate⟩
      apply decide_eq_true
      apply legal.mem_of_targets pointEq member below
      refine ⟨traced, lookup, ?_⟩
      rw [isTruncate]
      rfl
    have writesKept : ∀ j < k, ∀ op : WriteOp,
        HoldsAt ops j (· = .write op) → op.inode = point.inode →
          op.offset ≤ point.count → decide (j ∈ combo) = true := by
      rintro j below op ⟨traced, lookup, isWrite⟩ sameFile inside
      apply decide_eq_true
      apply legal.mem_of_targets pointEq member below
      refine ⟨traced, lookup, ?_⟩
      rw [isWrite]
      exact ⟨sameFile, by omega, by omega⟩
    have agree := agreeUpTo_contentAfter truncatesKept writesKept data initial
    exact agree.eq reached
  · rintro j below ⟨traced, lookup, entryOp⟩
    exact legal.mem_of_targets pointEq member below ⟨traced, lookup, targets_of_isEntryOpIn entryOp⟩

theorem sync_durable_outputThenFsync :
    getDeps .imported outputThenFsync = .ok [∅, {0}, {0, 1}] ∧
    comboValidity .imported outputThenFsync {0, 1, 2} = .ok true ∧
    syncPointAt outputThenFsync 2 = some ⟨7, 0, 2, .fsync⟩ ∧
    ((0 = 0 → ∀ (data : ℕ → Bytes) (initial : Bytes),
      (contentAfter outputThenFsync data 7 initial (List.range 2)).length ≤
          2 →
        contentAfter outputThenFsync data 7 initial
            ((List.range 2).filter fun i => i ∈ ({0, 1, 2} : Finset ℕ)) =
          contentAfter outputThenFsync data 7 initial (List.range 2)) ∧
    ∀ j < 2, HoldsAt outputThenFsync j (DiskOp.IsEntryOpIn 7) →
      j ∈ ({0, 1, 2} : Finset ℕ)) := by
  have returned : getDeps .imported outputThenFsync = .ok [∅, {0}, {0, 1}] := by
    decide
  have accepted : comboValidity .imported outputThenFsync {0, 1, 2} = .ok true := by
    decide
  have pointEq : syncPointAt outputThenFsync 2 = some ⟨7, 0, 2, .fsync⟩ := by
    decide
  exact ⟨returned, accepted, pointEq,
    sync_durable .imported outputThenFsync [∅, {0}, {0, 1}] returned
      {0, 1, 2} accepted 2 (by decide) ⟨7, 0, 2, .fsync⟩ pointEq⟩

/-! ## Range syncs -/

def WriteAt (ops : List TracedOp) (file : Inode) (w : ℕ) (op : WriteOp) : Prop :=
  HoldsAt ops w (· = .write op) ∧ op.inode = file

def WriteOp.Covers (op : WriteOp) (position : ℕ) : Prop :=
  op.offset ≤ position ∧ position < op.offset + op.count

def SyncPoint.InRange (point : SyncPoint) (position : ℕ) : Prop :=
  point.offset ≤ position ∧ position < point.offset + point.count

/-- Every earlier write that overlaps the range of the `sync` at `k` is in the
set, unless each overlapped byte is overwritten, before `k`, by a write that
is in the set. -/
def RangeDurable (ops : List TracedOp) (k : ℕ) (point : SyncPoint) (combo : Finset ℕ) : Prop :=
  ∀ w < k, ∀ op, WriteAt ops point.inode w op →
    (∃ position, op.Covers position ∧ point.InRange position) →
      w ∈ combo ∨
        ∀ position, op.Covers position → point.InRange position →
          ∃ later laterOp, w < later ∧ later < k ∧
            WriteAt ops point.inode later laterOp ∧
            laterOp.Covers position ∧ later ∈ combo

/-- The write at `w` starts in the range, ends included, of a `sync` of its
file that comes after it and not after `k`. -/
def StartSynced (ops : List TracedOp) (k w : ℕ) (op : WriteOp) : Prop :=
  ∃ s, w < s ∧ s ≤ k ∧ ∃ point, syncPointAt ops s = some point ∧
    op.inode = point.inode ∧
      point.offset ≤ op.offset ∧ op.offset ≤ point.offset + point.count

/-- A legal set with `k` contains the writes whose start is synced. -/
theorem LegalShape.mem_of_startSynced {combo : Finset ℕ} (legal : LegalShape ops combo) {w : ℕ}
    {op : WriteOp} (member : k ∈ combo) (isWrite : HoldsAt ops w (· = .write op))
    (synced : StartSynced ops k w op) : w ∈ combo := by
  obtain ⟨s, after, upTo, point, pointEq, targeted⟩ := synced
  have kept : s ∈ combo := by
    rcases Nat.eq_or_lt_of_le upTo with equal | less
    · exact equal ▸ member
    · exact legal.1 k member s less (barrierAt_of_syncPointAt pointEq)
  obtain ⟨traced, lookup, opEq⟩ := isWrite
  refine legal.mem_of_targets pointEq kept after ⟨traced, lookup, ?_⟩
  rw [opEq]
  exact targeted

/-- The least legal set with `k` contains no other write. -/
theorem startSynced_of_transGen {names : Names} {deps : List (Finset ℕ)}
    (returned : getDeps names ops = .ok deps) {w : ℕ} {op : WriteOp}
    (isWrite : HoldsAt ops w (· = .write op)) (path : TransGen (HiddenEdge deps) k w)
    : StartSynced ops k w op := by
  obtain ⟨s, upTo, edge⟩ := TransGen.tail'_iff.1 path
  have bound := lt_length_of_hiddenEdge returned edge
  have before : s ≤ k := by
    rcases reflTransGen_iff_eq_or_transGen.1 upTo with equal | reached
    · exact Nat.le_of_eq equal
    · exact Nat.le_of_lt (lt_of_transGen (backward_hiddenEdge returned) reached)
  obtain ⟨traced, lookup, opEq⟩ := isWrite
  rcases (hiddenEdge_iff returned bound w).1 edge with last | flushes
  · have barrier := (holdsAt_iff lookup).1 last.1.2
    rw [opEq] at barrier
    exact absurd barrier (by simp [DiskOp.isBarrier])
  · obtain ⟨point, pointEq, ⟨below, _⟩, targeted⟩ := flushes
    have targets := (holdsAt_iff lookup).1 targeted
    rw [opEq] at targets
    exact ⟨s, below, before, point, pointEq, targets⟩

theorem exists_least_accepted {names : Names} {deps : List (Finset ℕ)}
    (returned : getDeps names ops = .ok deps) (bound : k < ops.length) : ∃ least : Finset ℕ,
      comboValidity names ops least = .ok true ∧
        ∀ x, x ∈ least ↔ x ∈ closureOf (HiddenEdge deps) {k} := by
  classical
  have known : closureOf (HiddenEdge deps) {k} ⊆ {x | x < ops.length} := closureOf_subset
      (closedUnder_initial_segment (backward_hiddenEdge returned) _)
      (Set.singleton_subset_iff.2 bound)
  let least := (Finset.range ops.length).filter fun x => x ∈ closureOf (HiddenEdge deps) {k}
  have mem_least : ∀ x, x ∈ least ↔ x ∈ closureOf (HiddenEdge deps) {k} := by
    intro x
    rw [Finset.mem_filter, Finset.mem_range]
    exact and_iff_right_of_imp fun member => known member
  have closed : ClosedUnder (HiddenEdge deps) {x | x ∈ least} := by
    intro x member y edge
    exact (mem_least y).2 (closedUnder_closureOf {k} x ((mem_least x).1 member) y edge)
  have inside : ∀ x ∈ least, x < ops.length := fun x member => known ((mem_least x).1 member)
  refine ⟨least, (comboValidity_iff returned least).2 ⟨inside, ?_⟩, mem_least⟩
  exact (closedUnder_hiddenEdge_iff returned inside).1 closed

/-- The guarantee for the range of a `sync` holds in all accepted sets exactly
when each overlapping write starts in the range of some later `sync` of the
file up to `k`, or has each overlapped byte overwritten by a write that
does. -/
theorem rangeDurable_iff
    (names : Names) (ops : List TracedOp) (deps : List (Finset ℕ))
    (returned : getDeps names ops = .ok deps) (k : ℕ) (point : SyncPoint)
    (pointEq : syncPointAt ops k = some point) :
    (∀ combo, comboValidity names ops combo = .ok true → k ∈ combo →
      RangeDurable ops k point combo) ↔
    ∀ w < k, ∀ op, WriteAt ops point.inode w op →
      (∃ position, op.Covers position ∧ point.InRange position) →
        StartSynced ops k w op ∨
          ∀ position, op.Covers position → point.InRange position →
            ∃ later laterOp, w < later ∧ later < k ∧
              WriteAt ops point.inode later laterOp ∧
              laterOp.Covers position ∧
              StartSynced ops k later laterOp := by
  constructor
  · intro durable w below op isWrite overlaps
    obtain ⟨least, accepted, mem_least⟩ :=
      exists_least_accepted returned (syncPointAt_lt_length pointEq)
    have isMember : k ∈ least := (mem_least k).2 (subset_closureOf _ (Set.mem_singleton k))
    have synced : ∀ x < k, ∀ xOp, HoldsAt ops x (· = .write xOp) →
        x ∈ least → StartSynced ops k x xOp := by
      intro x before xOp holds member
      rcases (mem_least x).1 member with equal | ⟨start, isStart, path⟩
      · exact absurd equal (Nat.ne_of_lt before)
      · have same : start = k := isStart
        exact startSynced_of_transGen returned holds (same ▸ path)
    rcases durable least accepted isMember w below op isWrite overlaps with
      kept | overwritten
    · exact Or.inl (synced w below op isWrite.1 kept)
    · refine Or.inr fun position covers inRange => ?_
      obtain ⟨later, laterOp, after, before, laterWrite, laterCovers, kept⟩ :=
        overwritten position covers inRange
      exact ⟨later, laterOp, after, before, laterWrite, laterCovers,
        synced later before laterOp laterWrite.1 kept⟩
  · intro condition combo accepted member w below op isWrite overlaps
    have legal := ((comboValidity_iff returned combo).1 accepted).2
    rcases condition w below op isWrite overlaps with synced | overwritten
    · exact Or.inl (legal.mem_of_startSynced member isWrite.1 synced)
    · refine Or.inr fun position covers inRange => ?_
      obtain ⟨later, laterOp, after, before, laterWrite, laterCovers,
        synced⟩ := overwritten position covers inRange
      exact ⟨later, laterOp, after, before, laterWrite, laterCovers,
        legal.mem_of_startSynced member laterWrite.1 synced⟩

/-- A store through a mapping that straddles both ends of the page which is
then synced. -/
def straddlingWrite : List TracedOp :=
  [⟨.write ⟨7, 4090, 4110, some "dump", 0, none, "1 count split"⟩, .mwrite⟩,
    ⟨.sync 7 4096 4096, .msync⟩]

theorem rangeDurable_iff_straddlingWrite :
    getDeps .asWritten straddlingWrite = .ok [∅, ∅] ∧
    syncPointAt straddlingWrite 1 = some ⟨7, 4096, 4096, .msync⟩ ∧
    ((∀ combo, comboValidity .asWritten straddlingWrite combo = .ok true →
        1 ∈ combo →
        RangeDurable straddlingWrite 1 ⟨7, 4096, 4096, .msync⟩ combo) ↔
      ∀ w < 1, ∀ op, WriteAt straddlingWrite 7 w op →
        (∃ position, op.Covers position ∧
          SyncPoint.InRange ⟨7, 4096, 4096, .msync⟩ position) →
        StartSynced straddlingWrite 1 w op ∨
          ∀ position, op.Covers position →
            SyncPoint.InRange ⟨7, 4096, 4096, .msync⟩ position →
            ∃ later laterOp, w < later ∧ later < 1 ∧
              WriteAt straddlingWrite 7 later laterOp ∧
              laterOp.Covers position ∧
              StartSynced straddlingWrite 1 later laterOp) := by
  have returned : getDeps .asWritten straddlingWrite = .ok [∅, ∅] := by
    decide
  have pointEq : syncPointAt straddlingWrite 1 = some ⟨7, 4096, 4096, .msync⟩ := by
    decide
  exact ⟨returned, pointEq, rangeDurable_iff .asWritten straddlingWrite [∅, ∅] returned 1
      ⟨7, 4096, 4096, .msync⟩ pointEq⟩

/-- The set with the `sync` alone is accepted, though it lacks the only write
to the synced page. -/
theorem straddlingWrite_not_durable :
    getDeps .asWritten straddlingWrite = .ok [∅, ∅] ∧
    syncPointAt straddlingWrite 1 = some ⟨7, 4096, 4096, .msync⟩ ∧
    comboValidity .asWritten straddlingWrite {1} = .ok true ∧
    ¬ RangeDurable straddlingWrite 1 ⟨7, 4096, 4096, .msync⟩ {1} := by
  refine ⟨by decide, by decide, by decide, fun durable => ?_⟩
  have isWrite : WriteAt straddlingWrite 7 0
        ⟨7, 4090, 4110, some "dump", 0, none, "1 count split"⟩ := ⟨⟨_, rfl, rfl⟩, rfl⟩
  have overlapped : WriteOp.Covers ⟨7, 4090, 4110, some "dump", 0, none, "1 count split"⟩ 4096 ∧
        SyncPoint.InRange ⟨7, 4096, 4096, .msync⟩ 4096 := by
    simp [WriteOp.Covers, SyncPoint.InRange]
  rcases durable 0 (by decide) _ isWrite ⟨4096, overlapped⟩ with
    kept | overwritten
  · exact absurd kept (by decide)
  · obtain ⟨later, _, after, before, _⟩ := overwritten 4096 overlapped.1 overlapped.2
    omega

end Alice
