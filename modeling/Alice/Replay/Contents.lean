import Alice.DefaultFs.Slices
import Alice.Replay.LogicalOps

/-! # Contents after the disk operations of a change

Whatever zeros and garbage are written over a slice first, its last operation
decides, and slices that follow one another add up. -/

namespace Alice

open Posix (Path Bytes)
open FileContent Slicing Checked ReplayEnv

namespace ReplayEnv

variable {env : ReplayEnv} {store : Inode → Bytes} {i : ℕ} {file : Inode}

theorem storeFrom_append (i : ℕ) (front back : List DiskOp) :
    env.storeFrom i (front ++ back) store =
      env.storeFrom (i + front.length) back (env.storeFrom i front store) := by
  induction front generalizing i store with
  | nil => rfl
  | cons op rest ih =>
    have position : i + (rest.length + 1) = i + 1 + rest.length := by omega
    simp only [List.cons_append, storeFrom, List.length_cons, position]
    exact ih (i + 1)

theorem storeAfter_of_changes {op : DiskOp} {source : Option String}
    (changes : op.Changes file source) {other : Inode} (different : other ≠ file) :
    env.storeAfter i op store other = store other := by
  cases op with
  | write op =>
    have notOther : op.inode ≠ other := by
      intro same
      exact different (same.symm.trans changes.1)
    simp only [storeAfter, DiskOp.applyTo, if_neg notOther]
  | truncate inode initialSize finalSize atomicity =>
    have notOther : inode ≠ other := by
      intro same
      exact different (same.symm.trans changes)
    simp only [storeAfter, DiskOp.applyTo, if_neg notOther]
  | sync => exact changes.elim
  | createDirEntry => exact changes.elim
  | deleteDirEntry => exact changes.elim
  | stdout => exact changes.elim

theorem storeFrom_of_changes {ops : List DiskOp} {source : Option String}
    (changes : ∀ op ∈ ops, op.Changes file source) {other : Inode} (different : other ≠ file) :
    env.storeFrom i ops store other = store other := by
  induction ops generalizing i store with
  | nil => rfl
  | cons op rest ih =>
    rw [storeFrom, ih fun op member => changes op (List.mem_cons_of_mem _ member)]
    exact storeAfter_of_changes (changes op List.mem_cons_self) different

/-! ## Slices -/

theorem storeAfter_write {op : WriteOp} {data : Bytes}
    (read : op.buffer env.dumps (env.garbage i) = .ok data) :
    env.storeAfter i (.write op) store op.inode = pwrite (store op.inode) op.offset data := by
  simp only [storeAfter, DiskOp.applyTo, written, read, if_true]

/-- Slices of which each writes its part of `payload` write all of it. -/
theorem storeFrom_slices {rows : Slice → List DiskOp} {payload : Bytes} {base start stop : ℕ}
    {slices : List Slice} (consecutive : Consecutive stop start slices) (behind : base ≤ start)
    (covers : stop ≤ base + payload.length)
    (step : ∀ slice : Slice, base ≤ slice.start → slice.stop ≤ stop → ∀ i store,
        env.storeFrom i (rows slice) store file = pwrite (store file) slice.start
            ((payload.drop (slice.start - base)).take slice.count)) :
    env.storeFrom i (slices.flatMap rows) store file = pwrite (store file) start
        ((payload.drop (start - base)).take (stop - start)) := by
  induction consecutive generalizing i store with
  | nil => simp [storeFrom]
  | @cons start count rest positive tail ih =>
    have inside := tail.le
    have here := step ⟨start, count, rest.isEmpty⟩ behind inside i store
    have partLength : ((payload.drop (start - base)).take count).length = count := by
      rw [List.length_take, List.length_drop]
      omega
    have laterStart : start + count - base = start - base + count := by omega
    have total : stop - start = count + (stop - (start + count)) := by omega
    rw [List.flatMap_cons, storeFrom_append, ih (by omega), here, laterStart, total,
      List.take_add, List.drop_drop, ← pwrite_pwrite_append, partLength]

/-- The truncates of a shrinking file go from its end to its new size. -/
theorem storeFrom_truncates {start stop : ℕ} {slices : List Slice}
    (consecutive : Consecutive stop start slices) (size : (store file).length = stop)
    (fs : Defaultfs) (atomicityPrefix : String) : env.storeFrom i
        ((slices.map (fs.truncateSlice file atomicityPrefix)).reverse.map
          Defaultfs.swapSizes) store file = ftruncate (store file) start := by
  induction consecutive generalizing i with
  | nil =>
    rw [← size]
    exact (ftruncate_length _).symm
  | @cons start count rest positive tail ih =>
    rw [List.map_cons, List.reverse_cons, List.map_append, storeFrom_append]
    simp only [List.map_cons, List.map_nil, Defaultfs.truncateSlice,
      Defaultfs.swapSizes, storeFrom, storeAfter, DiskOp.applyTo, if_true]
    rw [ih]
    exact ftruncate_ftruncate _ (Nat.le_add_right start count)

theorem storeFrom_growSlice (fs : Defaultfs) (atomicityPrefix : String) (slice : Slice) :
    env.storeFrom i (fs.growSlice file atomicityPrefix slice) store file =
      pwrite (store file) slice.start (List.replicate slice.count 0) := by
  simp only [Defaultfs.growSlice, storeFrom, Defaultfs.specialSlice]
  rw [storeAfter_write rfl, storeAfter_write rfl]
  exact pwrite_pwrite_same _ _ (by simp)

section Dumps

variable
  {range : DataRange} {dump : Bytes}
  (available : env.dumps range.dumpFile = some dump) (slice : Slice)

include available

theorem storeAfter_dump (atomicity : String) : env.storeAfter i
        (.write ⟨range.inode, slice.start, slice.count, some range.dumpFile,
          range.dumpOffset + (slice.start - range.offset), none, atomicity⟩) store range.inode =
      pwrite (store range.inode) slice.start (((dump.drop range.dumpOffset).drop
          (slice.start - range.offset)).take slice.count) := by
  rw [List.drop_drop]
  apply storeAfter_write
  simp only [WriteOp.buffer, available]

theorem storeFrom_appendSlice
    (inDump : slice.start - range.offset + slice.count ≤ (dump.drop range.dumpOffset).length)
    (fs : Defaultfs) (atomicityPrefix : String) :
    env.storeFrom i (fs.appendSlice range atomicityPrefix slice) store range.inode =
      pwrite (store range.inode) slice.start (((dump.drop range.dumpOffset).drop
          (slice.start - range.offset)).take slice.count) := by
  simp only [Defaultfs.appendSlice, storeFrom, Defaultfs.specialSlice]
  have partLength : slice.count = (((dump.drop range.dumpOffset).drop
          (slice.start - range.offset)).take slice.count).length := by
    rw [List.length_take, List.length_drop]
    omega
  rw [storeAfter_dump available, storeAfter_write rfl, storeAfter_write rfl,
    pwrite_pwrite_same, pwrite_pwrite_same]
  · rw [List.length_replicate]
    exact partLength
  · rw [List.length_map, List.length_range]
    exact partLength

omit available in
/-- Slices of a range that write their parts of the dump file write the
bytes of the range. -/
theorem storeFrom_dump (inDump : range.dumpOffset + range.count ≤ dump.length)
    {rows : Slice → List DiskOp} {slices : List Slice}
    (consecutive : Consecutive (range.offset + range.count) range.offset slices)
    (step : ∀ slice : Slice, slice.start - range.offset + slice.count ≤
          (dump.drop range.dumpOffset).length → ∀ i store,
          env.storeFrom i (rows slice) store range.inode = pwrite (store range.inode) slice.start
              (((dump.drop range.dumpOffset).drop (slice.start - range.offset)).take slice.count)) :
    env.storeFrom i (slices.flatMap rows) store range.inode =
      pwrite (store range.inode) range.offset ((dump.drop range.dumpOffset).take range.count) := by
  have dropped : (dump.drop range.dumpOffset).length = dump.length - range.dumpOffset := by
    rw [List.length_drop]
  have covers : range.offset + range.count ≤
        range.offset + (dump.drop range.dumpOffset).length := by
    omega
  rw [storeFrom_slices consecutive (Nat.le_refl _) covers, Nat.sub_self,
    List.drop_zero, Nat.add_sub_cancel_left]
  intro slice behind inside i store
  unfold Slice.stop at inside
  exact step slice (by omega) i store

end Dumps

end ReplayEnv

/-! ## Expansions -/

namespace Defaultfs

theorem truncDiskOps_sets (fs : Defaultfs) (file : Inode) (initialSize finalSize : ℕ)
    (atomicityPrefix : String) : ∃ ops,
      fs.truncDiskOps file initialSize finalSize none atomicityPrefix = .ok ops ∧
        ∀ env i store, (store file).length = initialSize →
          ReplayEnv.storeFrom env i ops store file = ftruncate (store file) finalSize := by
  rcases Nat.lt_trichotomy initialSize finalSize with grows | rfl | shrinks
  · have total : initialSize + (finalSize - initialSize) = finalSize := by omega
    have covered := fs.slices_consecutive initialSize (finalSize - initialSize)
    rw [total] at covered
    refine ⟨_, fs.truncDiskOps_of_gt file grows atomicityPrefix, ?_⟩
    intro env i store size
    have written : env.storeFrom i ((fs.slices initialSize (finalSize - initialSize)).flatMap
              (fs.growSlice file atomicityPrefix)) store file = pwrite (store file) initialSize
            (((List.replicate (finalSize - initialSize) 0).drop (initialSize - initialSize)).take
                (finalSize - initialSize)) := by
      apply storeFrom_slices covered (Nat.le_refl _)
      · rw [List.length_replicate, total]
      · intro slice behind inside i store
        have within : slice.count ≤ finalSize - initialSize - (slice.start - initialSize) := by
          unfold Slice.stop at inside
          omega
        rw [storeFrom_growSlice, List.drop_replicate, List.take_replicate, Nat.min_eq_left within]
    rw [written, Nat.sub_self, List.drop_zero, List.take_replicate, Nat.min_self]
    subst size
    exact pwrite_zeros _ (Nat.le_of_lt grows)
  · refine ⟨[], fs.truncDiskOps_of_eq file initialSize atomicityPrefix, ?_⟩
    intro env i store size
    rw [← size]
    exact (ftruncate_length _).symm
  · have covered := fs.slices_consecutive finalSize (initialSize - finalSize)
    rw [Nat.add_sub_cancel' (Nat.le_of_lt shrinks)] at covered
    refine ⟨_, fs.truncDiskOps_of_lt file shrinks atomicityPrefix, ?_⟩
    intro env i store size
    exact storeFrom_truncates covered size fs atomicityPrefix

theorem appendDiskOps_writes (fs : Defaultfs) (range : DataRange) (atomicityPrefix : String) :
    ∃ ops, fs.truncDiskOps range.inode range.offset (range.offset + range.count)
          (some range) atomicityPrefix = .ok ops ∧ ∀ env i store dump,
          env.dumps range.dumpFile = some dump → range.dumpOffset + range.count ≤ dump.length →
              ReplayEnv.storeFrom env i ops store range.inode =
                pwrite (store range.inode) range.offset
                  ((dump.drop range.dumpOffset).take range.count) := by
  rcases Nat.eq_zero_or_pos range.count with none | positive
  · refine ⟨[], if_pos (by omega), ?_⟩
    intro env i store dump available inDump
    rw [none, List.take_zero, pwrite_nil]
    rfl
  · refine ⟨_, fs.appendDiskOps_of_pos positive atomicityPrefix, ?_⟩
    intro env i store dump available inDump
    apply storeFrom_dump inDump (fs.slices_consecutive range.offset range.count)
    intro slice inside i store
    exact storeFrom_appendSlice available slice inside fs atomicityPrefix

theorem writeDiskOps_writes (fs : Defaultfs) {range : DataRange} (positive : 0 < range.count) :
    ∃ ops, fs.getDiskOps (.write range) = .ok ops ∧ ∀ env i store dump,
          env.dumps range.dumpFile = some dump → range.dumpOffset + range.count ≤ dump.length →
              ReplayEnv.storeFrom env i ops store range.inode =
                pwrite (store range.inode) range.offset
                  ((dump.drop range.dumpOffset).take range.count) := by
  refine ⟨_, fs.writeDiskOps_of_pos positive, ?_⟩
  intro env i store dump available inDump
  rw [List.map_eq_flatMap]
  apply storeFrom_dump inDump (fs.slices_consecutive range.offset range.count)
  intro slice _ i store
  exact storeAfter_dump available slice _

theorem unlinkDiskOps_returns (fs : Defaultfs) (parent file : Inode) (name : Path)
    (size hardlinks : ℕ) (entryType : EntryType) (atomicityPrefix : String) : ∃ ops,
      fs.unlinkDiskOps parent file name size hardlinks entryType atomicityPrefix = .ok ops := by
  unfold unlinkDiskOps
  by_cases last : hardlinks = 1
  · obtain ⟨truncates, truncated, _⟩ := fs.truncDiskOps_sets file size 0 atomicityPrefix
    simp only [last, if_true, truncated, ok_bind]
    exact ⟨_, rfl⟩
  · simp only [last, if_false, pure_bind]
    exact ⟨_, rfl⟩

theorem renameDiskOps_returns (fs : Defaultfs) (info : RenameInfo) :
    ∃ ops, fs.renameDiskOps info = .ok ops := by
  obtain ⟨source, sourceUnlinked⟩ := fs.unlinkDiskOps_returns info.sourceParent info.sourceInode
    info.source info.sourceSize 2 .typeFile "destination unlinked fully, source unlinking partial "
  unfold renameDiskOps
  by_cases present : 1 ≤ info.destHardlinks
  · obtain ⟨dest, destUnlinked⟩ := fs.unlinkDiskOps_returns info.destParent (info.destInode.getD 0)
        info.dest info.destSize info.destHardlinks .typeFile "destination unlinking partial "
    simp only [present, if_true, destUnlinked, sourceUnlinked, ok_bind, pure_bind]
    exact ⟨_, rfl⟩
  · simp only [present, if_false, sourceUnlinked, ok_bind, pure_bind]
    exact ⟨_, rfl⟩

section Removed

variable
  {fs : Defaultfs} {env : ReplayEnv} {store : Inode → Bytes} {i : ℕ}
  {ops : List DiskOp} {other : Inode}

/-- Only a file that loses its last name is truncated. -/
theorem storeFrom_unlinkDiskOps {parent file : Inode} {name : Path} {size hardlinks : ℕ}
    {entryType : EntryType} {atomicityPrefix : String}
    (expanded : fs.unlinkDiskOps parent file name size hardlinks entryType
      atomicityPrefix = .ok ops) (kept : hardlinks = 1 → other ≠ file) :
    env.storeFrom i ops store other = store other := by
  obtain ⟨truncates, changes, notLast, opsEq⟩ := unlinkDiskOps_eq expanded
  rw [opsEq, storeFrom_append]
  by_cases last : hardlinks = 1
  · exact storeFrom_of_changes changes (kept last)
  · rw [notLast last]
    rfl

theorem storeFrom_renameDiskOps {info : RenameInfo} (expanded : fs.renameDiskOps info = .ok ops)
    (kept : info.destHardlinks = 1 → other ≠ info.destInode.getD 0) :
    env.storeFrom i ops store other = store other := by
  obtain ⟨truncates, destDeleted, changes, notLast, deletedEq, opsEq⟩ := renameDiskOps_eq expanded
  rw [opsEq, List.append_assoc, storeFrom_append]
  have deleted : ∀ position store, env.storeFrom position (destDeleted ++
          [.deleteDirEntry info.sourceParent info.source info.sourceInode
              .typeFile (some "destination and source unlinked fully"),
            .createDirEntry info.destParent info.dest info.sourceInode none
              .typeFile]) store = store := by
    intro position store
    rw [deletedEq]
    split <;> rfl
  rw [deleted]
  by_cases last : info.destHardlinks = 1
  · exact storeFrom_of_changes changes (kept last)
  · rw [notLast last]
    rfl

end Removed

end Defaultfs

end Alice
