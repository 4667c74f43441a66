import Alice.DefaultFs.Slices
import Alice.Replay.SpecialWrite

/-! # Interrupted changes of size

What the first disk operations of a change of size leave of the file.  Rows
that make it larger fill slices, the data of a slice last; rows that make it
smaller set smaller and smaller sizes.  The branch for `GARBAGE` and `ZEROS` is
as in the source, so a replay can raise. -/

namespace Alice

open Posix (Bytes Path)
open Checked FileContent Slicing

/-! ## Replaying contents -/

/-- The contents of the inodes after a disk operation, `none` if it raises. -/
def DiskOp.replayOn (dumps : DumpFiles) (random : RandomSource) (store : Inode → Bytes) :
    DiskOp → Option (Inode → Bytes)
  | .write op =>
      match op.specialWrite with
      | some special =>
          (specialWrite random special op.offset op.count
            (store op.inode)).toOption.map (Function.update store op.inode)
      | none =>
          (op.buffer dumps fun _ => 0).toOption.map fun data =>
            Function.update store op.inode (pwrite (store op.inode) op.offset data)
  | .truncate inode _ finalSize _ =>
      some (Function.update store inode (ftruncate (store inode) finalSize))
  | .sync .. => some store
  | .createDirEntry .. => some store
  | .deleteDirEntry .. => some store
  | .stdout .. => some store

/-- The contents after a list of operations, of which the one at `i` draws
`random i`. -/
def replayContents (dumps : DumpFiles) (random : ℕ → RandomSource) :
    ℕ → List DiskOp → (Inode → Bytes) → Option (Inode → Bytes)
  | _, [], store => some store
  | i, op :: rest, store => do
      replayContents dumps random (i + 1) rest (← op.replayOn dumps (random i) store)

section

variable {dumps : DumpFiles} {random : ℕ → RandomSource} {i : ℕ}
  {ops : List DiskOp} {store after : Inode → Bytes}

/-- The states of a replay, one after each operation. -/
structure States (dumps : DumpFiles) (random : ℕ → RandomSource) (ops : List DiskOp)
    (states : ℕ → Inode → Bytes) (i : ℕ) : Prop where
  reached : ∀ k ≤ ops.length,
    replayContents dumps random i (ops.take k) (states 0) = some (states k)
  step : ∀ k op, ops[k]? = some op →
    op.replayOn dumps (random (i + k)) (states k) = some (states (k + 1))

theorem exists_states (returns : replayContents dumps random i ops store = some after) :
    ∃ states, states 0 = store ∧ States dumps random ops states i := by
  induction ops generalizing i store with
  | nil =>
    refine ⟨fun _ => store, rfl, fun k _ => ?_, fun k op isOp => ?_⟩
    · rw [List.take_nil, replayContents]
    · cases isOp
  | cons op ops ih =>
    obtain ⟨next, stepped, later⟩ := Option.bind_eq_some_iff.1 returns
    obtain ⟨states, isNext, reached, step⟩ := ih later
    refine ⟨fun k => k.casesOn store states, rfl, ?_, ?_⟩
    · rintro (_ | k) inside
      · rfl
      · rw [List.take_succ_cons, replayContents]
        refine Option.bind_eq_some_iff.2 ⟨next, stepped, ?_⟩
        rw [← isNext]
        exact reached k (Nat.le_of_succ_le_succ inside)
    · rintro (_ | k) op isOp
      · obtain rfl := Option.some.inj isOp
        exact stepped.trans (congrArg some isNext.symm)
      · rw [show i + (k + 1) = i + 1 + k by omega]
        exact step k op isOp

theorem replayOn_of_mem (returns : replayContents dumps random i ops store = some after) :
    ∀ op ∈ ops, ∃ j before next, op.replayOn dumps (random j) before = some next := by
  induction ops generalizing i store with
  | nil => exact fun _ member => absurd member List.not_mem_nil
  | cons op ops ih =>
    obtain ⟨next, stepped, later⟩ := Option.bind_eq_some_iff.1 returns
    rw [List.forall_mem_cons]
    exact ⟨⟨i, store, next, stepped⟩, ih later⟩

/-- A replay returns if each operation does whatever the contents are. -/
theorem replayContents_returns
    (returns : ∀ op ∈ ops, ∀ random store, ∃ next, op.replayOn dumps random store = some next) :
    ∃ after, replayContents dumps random i ops store = some after := by
  induction ops generalizing i store with
  | nil => exact ⟨store, rfl⟩
  | cons op ops ih =>
    rw [List.forall_mem_cons] at returns
    obtain ⟨next, stepped⟩ := returns.1 (random i) store
    obtain ⟨after, later⟩ := @ih (i + 1) next returns.2
    exact ⟨after, Option.bind_eq_some_iff.2 ⟨next, stepped, later⟩⟩

end

/-! ## Operations that fill a range -/

/-- The write fills a part of a range of the file; if it is not special, its
bytes can be read. -/
structure WriteOp.Fills (dumps : DumpFiles) (file : Inode) (low high : ℕ) (op : WriteOp) :
    Prop where
  inode : op.inode = file
  low : low ≤ op.offset
  positive : 0 < op.count
  high : op.offset + op.count ≤ high
  readable : op.specialWrite = none →
    ∃ data, op.buffer dumps (fun _ => 0) = .ok data ∧ data.length = op.count

/-- There is no whole block for `dd` in the range. -/
def NoWholeBlock (start stop : ℕ) : Prop :=
  stop - start ≤ 4096 ∨ ∀ block : ℕ,
    Binary64.rounded start ≤ block * blockSize (stop - start) →
      start ≤ block * blockSize (stop - start) ∧
        stop < (block + 1) * blockSize (stop - start)

theorem toOption_eq_some_iff {ε α : Type} {x : Except ε α} {a : α} :
    x.toOption = some a ↔ x = .ok a := by
  cases x <;> simp [Except.toOption]

variable {dumps : DumpFiles} {op : WriteOp}

theorem WriteOp.Fills.replayOn_write {file : Inode} {low high : ℕ} {random : RandomSource}
    {store after : Inode → Bytes} (fills : op.Fills dumps file low high)
    (stepped : (DiskOp.write op).replayOn dumps random store = some after) :
    ∃ data, data.length = op.count ∧ after file = pwrite (store file) op.offset data ∧
      (op.specialWrite = none → op.buffer dumps (fun _ => 0) = .ok data) := by
  obtain ⟨rfl, _, _, _, readable⟩ := fills
  cases kind : op.specialWrite with
  | some special =>
    simp only [DiskOp.replayOn, kind] at stepped
    obtain ⟨content, ran, rfl⟩ := Option.map_eq_some_iff.1 stepped
    have ran := toOption_eq_some_iff.1 ran
    obtain ⟨data, written, isCount, _⟩ := overwritesRange_of_ok ran
    refine ⟨data, isCount, ?_, nofun⟩
    rw [Function.update_self]
    exact Except.ok.inj (ran.symm.trans written)
  | none =>
    obtain ⟨data, read, isCount⟩ := readable kind
    simp only [DiskOp.replayOn, kind, read] at stepped
    obtain rfl := Option.some.inj stepped
    exact ⟨data, isCount, Function.update_self .., fun _ => read⟩

theorem WriteOp.Fills.returns {file : Inode} {low high : ℕ} (fills : op.Fills dumps file low high)
    (noBlock : NoWholeBlock op.offset (op.offset + op.count)) (random : RandomSource)
    (store : Inode → Bytes) :
    ∃ next, (DiskOp.write op).replayOn dumps random store = some next := by
  cases kind : op.specialWrite with
  | some special =>
    have overwrites : OverwritesRange random special op.offset op.count (store op.inode) := by
      rw [NoWholeBlock, Nat.add_sub_cancel_left] at noBlock
      rcases noBlock with small | noBlock
      · exact overwritesRange_of_le small
      · rcases Nat.lt_or_ge 4096 op.count with large | small
        · exact overwritesRange_of_noBlock large noBlock
        · exact overwritesRange_of_le small
    obtain ⟨data, ran, _⟩ := overwrites
    simp only [DiskOp.replayOn, kind, ran]
    exact ⟨_, rfl⟩
  | none =>
    obtain ⟨data, read, _⟩ := fills.readable kind
    simp only [DiskOp.replayOn, kind, read]
    exact ⟨_, rfl⟩

/-- A special write that returns writes no whole block. -/
theorem noWholeBlock_of_replayOn {random : RandomSource} {store next : Inode → Bytes}
    {special : SpecialWrite} (kind : op.specialWrite = some special)
    (stepped : (DiskOp.write op).replayOn dumps random store = some next) :
    NoWholeBlock op.offset (op.offset + op.count) := by
  simp only [DiskOp.replayOn, kind] at stepped
  obtain ⟨content, ran, _⟩ := Option.map_eq_some_iff.1 stepped
  have ran := toOption_eq_some_iff.1 ran
  rw [NoWholeBlock, Nat.add_sub_cancel_left]
  rcases Nat.lt_or_ge 4096 op.count with large | small
  · exact .inr fun _ => noBlock_of_specialWrite large ran
  · exact .inl small

/-! ## Between the two sizes -/

/-- The contents on the way from one size to another. -/
structure StaysBetween (initialSize finalSize : ℕ) (content : ℕ → Bytes) (steps : ℕ) : Prop where
  kept : ∀ k ≤ steps, ∀ position < min initialSize finalSize,
    byteAt (content k) position = byteAt (content 0) position
  above : ∀ k ≤ steps, min initialSize finalSize ≤ (content k).length
  below : ∀ k ≤ steps, (content k).length ≤ max initialSize finalSize
  grows : initialSize ≤ finalSize → ∀ k < steps, (content k).length ≤ (content (k + 1)).length
  shrinks : finalSize ≤ initialSize → ∀ k < steps, (content (k + 1)).length ≤ (content k).length

/-- Operations that fill parts of a range, the data of a part after all else
that is written to it. -/
structure FillsRange (dumps : DumpFiles) (file : Inode) (low high : ℕ) (ops : List DiskOp) :
    Prop where
  writes : ∀ op ∈ ops, ∃ write, op = .write write ∧ write.Fills dumps file low high
  ordered : ops.Pairwise fun op later => ∀ write next,
    op = .write write → later = .write next →
      write.offset + write.count ≤ next.offset + next.count ∧
        (write.specialWrite = none →
          write.offset + write.count ≤ next.offset)

section Filling

variable
  {dumps : DumpFiles} {random : ℕ → RandomSource} {file : Inode}
  {low high : ℕ} {ops : List DiskOp} {states : ℕ → Inode → Bytes}
  (range : FillsRange dumps file low high ops)
  (replayed : States dumps random ops states 0)

include range replayed

theorem step_of_fillsRange {k : ℕ} (inside : k < ops.length) :
    ∃ write data, ops[k]? = some (.write write) ∧ write.Fills dumps file low high ∧
      data.length = write.count ∧ states (k + 1) file = pwrite (states k file) write.offset data ∧
      (write.specialWrite = none → write.buffer dumps (fun _ => 0) = .ok data) := by
  obtain ⟨write, isWrite, fills⟩ := range.writes ops[k] (List.getElem_mem inside)
  have isOp : ops[k]? = some (.write write) := by rw [List.getElem?_eq_getElem inside, isWrite]
  obtain ⟨data, isCount, after, read⟩ := fills.replayOn_write (replayed.step k _ isOp)
  exact ⟨write, data, isOp, fills, isCount, after, read⟩

theorem length_of_fillsRange {k : ℕ} {write : WriteOp} (isOp : ops[k]? = some (.write write)) :
    (states (k + 1) file).length = max (states k file).length (write.offset + write.count) := by
  obtain ⟨inside, _⟩ := List.getElem?_eq_some_iff.1 isOp
  obtain ⟨_, data, isOp', fills, isCount, after, _⟩ := step_of_fillsRange range replayed inside
  obtain rfl := DiskOp.write.inj (Option.some.inj (isOp.symm.trans isOp'))
  have some : data ≠ [] := List.ne_nil_of_length_pos (by rw [isCount]; exact fills.positive)
  rw [after, length_pwrite _ _ some, isCount]

/-- Each operation leaves the bytes in front of the range as they are, and
the size stays in the range. -/
theorem bounds_of_fillsRange (size : (states 0 file).length = low) (le : low ≤ high) :
    ∀ k ≤ ops.length, (∀ position < low,
        byteAt (states k file) position = byteAt (states 0 file) position) ∧
      low ≤ (states k file).length ∧ (states k file).length ≤ high := by
  intro k inside
  induction k with
  | zero => exact ⟨fun _ _ => rfl, size.ge, size.le.trans le⟩
  | succ k ih =>
    obtain ⟨kept, above, below⟩ := ih (by omega)
    obtain ⟨write, data, isOp, fills, _, after, _⟩ := step_of_fillsRange range replayed inside
    have length := length_of_fillsRange range replayed isOp
    refine ⟨fun position before => ?_, by omega, ?_⟩
    · have notWritten : ¬(write.offset ≤ position ∧ position < write.offset + data.length) := by
        have := fills.low
        omega
      rw [after, byteAt_pwrite, if_neg notWritten]
      exact kept position before
    · have := fills.high
      omega

theorem staysBetween_of_fillsRange (size : (states 0 file).length = low) (le : low ≤ high) :
    StaysBetween low high (fun k => states k file) ops.length := by
  have bounds := bounds_of_fillsRange range replayed size le
  have grows : ∀ k < ops.length, (states k file).length ≤ (states (k + 1) file).length := by
    intro k inside
    obtain ⟨write, _, isOp, _⟩ := step_of_fillsRange range replayed inside
    rw [length_of_fillsRange range replayed isOp]
    exact Nat.le_max_left _ _
  refine ⟨?_, ?_, ?_, fun _ => grows, fun ge k inside => ?_⟩
  · rw [Nat.min_eq_left le]
    exact fun k inside => (bounds k inside).1
  · rw [Nat.min_eq_left le]
    exact fun k inside => (bounds k inside).2.1
  · rw [Nat.max_eq_right le]
    exact fun k inside => (bounds k inside).2.2
  · have here := (bounds k inside.le).2
    have next := (bounds (k + 1) inside).2
    omega

theorem data_of_fillsRange {j : ℕ} {write : WriteOp} {data : Bytes}
    (isOp : ops[j]? = some (.write write)) (isData : write.specialWrite = none)
    (read : write.buffer dumps (fun _ => 0) = .ok data) :
    ∀ k ≤ ops.length, j < k → ∀ position, write.offset ≤ position →
      position < write.offset + write.count → byteAt (states k file) position =
          byteAt data (position - write.offset) := by
  intro k inside later position behind before
  induction k with
  | zero => omega
  | succ k ih =>
    obtain ⟨next, written, isNext, _, isCount, after, nextRead⟩ :=
      step_of_fillsRange range replayed inside
    rcases Nat.lt_succ_iff_lt_or_eq.1 later with earlier | rfl
    · obtain ⟨jInside, isWrite⟩ := List.getElem?_eq_some_iff.1 isOp
      obtain ⟨kInside, isNext⟩ := List.getElem?_eq_some_iff.1 isNext
      have apart := (List.pairwise_iff_getElem.1 range.ordered j k jInside
        kInside earlier write next isWrite isNext).2 isData
      rw [after, byteAt_pwrite, if_neg (by omega)]
      exact ih (by omega) earlier
    · obtain rfl := DiskOp.write.inj (Option.some.inj (isOp.symm.trans isNext))
      obtain rfl := Except.ok.inj (read.symm.trans (nextRead isData))
      rw [after, byteAt_pwrite, if_pos (by omega)]

end Filling

/-! ## Operations that set smaller sizes -/

def DiskOp.newSize? : DiskOp → Option ℕ
  | .truncate _ _ finalSize _ => some finalSize
  | _ => none

/-- The operation sets a size of the file or removes a name. -/
def DiskOp.SetsSize (file : Inode) (low high : ℕ) : DiskOp → Prop
  | .truncate inode _ finalSize _ =>
      inode = file ∧ low ≤ finalSize ∧ finalSize ≤ high
  | .deleteDirEntry .. => True
  | _ => False

/-- Smaller and smaller sizes are set. -/
structure Lowers (file : Inode) (low high : ℕ) (ops : List DiskOp) : Prop where
  sets : ∀ op ∈ ops, op.SetsSize file low high
  ordered : ops.Pairwise fun op later =>
    ∀ size ∈ op.newSize?, ∀ next ∈ later.newSize?, next ≤ size

section Lowering

variable
  {dumps : DumpFiles} {random : ℕ → RandomSource} {file : Inode}
  {low high : ℕ} {ops : List DiskOp} {states : ℕ → Inode → Bytes}

theorem Lowers.returns (lowers : Lowers file low high ops) (dumps : DumpFiles)
    (random : ℕ → RandomSource) (i : ℕ) (store : Inode → Bytes) :
    ∃ after, replayContents dumps random i ops store = some after := by
  apply replayContents_returns
  intro op member random store
  cases op with
  | truncate => exact ⟨_, rfl⟩
  | deleteDirEntry => exact ⟨_, rfl⟩
  | write => exact (lowers.sets _ member).elim
  | sync => exact (lowers.sets _ member).elim
  | createDirEntry => exact (lowers.sets _ member).elim
  | stdout => exact (lowers.sets _ member).elim

variable
  (lowers : Lowers file low high ops)
  (replayed : States dumps random ops states 0)

include lowers replayed

theorem step_of_lowers {k : ℕ} (inside : k < ops.length) :
    (∃ size, ops[k].newSize? = some size ∧ low ≤ size ∧ size ≤ high ∧
        states (k + 1) file = ftruncate (states k file) size) ∨
      states (k + 1) file = states k file := by
  have sets := lowers.sets ops[k] (List.getElem_mem inside)
  have step := replayed.step k _ (List.getElem?_eq_getElem inside)
  cases isOp : ops[k] with
  | truncate inode initialSize finalSize atomicity =>
    rw [isOp] at sets step
    obtain ⟨rfl, above, below⟩ := sets
    refine .inl ⟨finalSize, rfl, above, below, ?_⟩
    rw [← Option.some.inj step, Function.update_self]
  | deleteDirEntry =>
    rw [isOp] at step
    exact .inr (congrFun (Option.some.inj step).symm file)
  | write => exact (isOp ▸ sets).elim
  | sync => exact (isOp ▸ sets).elim
  | createDirEntry => exact (isOp ▸ sets).elim
  | stdout => exact (isOp ▸ sets).elim

/-- The bytes below the range and its bounds, and that no size will be set
that is larger than the present one. -/
theorem bounds_of_lowers (size : (states 0 file).length = high) (le : low ≤ high) :
    ∀ k ≤ ops.length, (∀ position < low,
        byteAt (states k file) position = byteAt (states 0 file) position) ∧
      (low ≤ (states k file).length ∧ (states k file).length ≤ high) ∧
      ∀ op ∈ ops.drop k, ∀ next ∈ op.newSize?, next ≤ (states k file).length := by
  intro k inside
  induction k with
  | zero =>
    refine ⟨fun _ _ => rfl, ⟨le.trans size.ge, size.le⟩, ?_⟩
    intro op member next isNext
    have sets := lowers.sets op member
    cases op with
    | truncate =>
      obtain rfl := Option.some.inj isNext
      exact sets.2.2.trans size.ge
    | _ => cases isNext
  | succ k ih =>
    obtain ⟨kept, bounds, sorted⟩ := ih (by omega)
    rw [List.drop_eq_getElem_cons inside, List.forall_mem_cons] at sorted
    rcases step_of_lowers lowers replayed inside with
      ⟨size, isSize, above, below, after⟩ | same
    · rw [after, length_ftruncate]
      refine ⟨fun position before => ?_, ⟨above, below⟩, ?_⟩
      · rw [byteAt_ftruncate, if_pos (by omega)]
        exact kept position before
      · have rest := lowers.ordered.sublist (List.drop_sublist k ops)
        rw [List.drop_eq_getElem_cons inside, List.pairwise_cons] at rest
        exact fun op member => rest.1 op member size isSize
    · rw [same]
      exact ⟨kept, bounds, sorted.2⟩

theorem staysBetween_of_lowers (size : (states 0 file).length = high) (le : low ≤ high) :
    StaysBetween high low (fun k => states k file) ops.length := by
  have bounds := bounds_of_lowers lowers replayed size le
  have shrinks : ∀ k < ops.length, (states (k + 1) file).length ≤ (states k file).length := by
    intro k inside
    rcases step_of_lowers lowers replayed inside with
      ⟨size, isSize, _, _, after⟩ | same
    · rw [after, length_ftruncate]
      have here : ops[k] ∈ ops.drop k := by
        rw [List.drop_eq_getElem_cons inside]
        exact List.mem_cons_self
      exact (bounds k inside.le).2.2 ops[k] here size isSize
    · rw [same]
  refine ⟨?_, ?_, ?_, fun ge k inside => ?_, fun _ => shrinks⟩
  · rw [Nat.min_eq_right le]
    exact fun k inside => (bounds k inside).1
  · rw [Nat.min_eq_right le]
    exact fun k inside => (bounds k inside).2.1.1
  · rw [Nat.max_eq_left le]
    exact fun k inside => (bounds k inside).2.1.2
  · have here := (bounds k inside.le).2.1
    have next := (bounds (k + 1) inside).2.1
    omega

end Lowering

/-! ## The expansions -/

namespace Defaultfs

variable {fs : Defaultfs} {dumps : DumpFiles} {file : Inode}

/-- The operation writes a slice of the file, with bytes that can be read. -/
def WritesSlice (dumps : DumpFiles) (file : Inode) (slice : Slice) (op : DiskOp) : Prop :=
  ∃ write, op = .write write ∧ write.inode = file ∧
    write.offset = slice.start ∧ write.count = slice.count ∧
    (write.specialWrite = none → ∃ data,
      write.buffer dumps (fun _ => 0) = .ok data ∧
        data.length = write.count)

theorem WritesSlice.place {slice : Slice} {write : WriteOp}
    (writes : WritesSlice dumps file slice (.write write)) : write.offset = slice.start ∧
      write.offset + write.count = slice.stop := by
  obtain ⟨write', isWrite, _, offset, count, _⟩ := writes
  obtain rfl := DiskOp.write.inj isWrite
  exact ⟨offset, by rw [offset, count, Slice.stop]⟩

/-- Rounds that write their slices, one after the other, and data at their
ends. -/
theorem fillsRange_flatMap {rows : Slice → List DiskOp} {start stop : ℕ} {slices : List Slice}
    (consecutive : Consecutive stop start slices)
    (writes : ∀ slice ∈ slices, ∀ op ∈ rows slice, WritesSlice dumps file slice op)
    (dataLast : ∀ slice, (rows slice).Pairwise fun op _ =>
      ∀ write, op = .write write → write.specialWrite ≠ none) :
    FillsRange dumps file start stop (slices.flatMap rows) where
  writes := by
    intro op member
    obtain ⟨slice, isSlice, inRound⟩ := List.mem_flatMap.1 member
    obtain ⟨write, isWrite, isFile, offset, count, readable⟩ := writes slice isSlice op inRound
    obtain ⟨behind, positive, before⟩ := consecutive.bounds slice isSlice
    unfold Slice.stop at before
    exact ⟨write, isWrite, isFile, by omega, by omega, by omega, readable⟩
  ordered := by
    rw [List.pairwise_flatMap]
    constructor
    · intro slice isSlice
      refine (dataLast slice).imp_of_mem ?_
      rintro _ _ inRound laterInRound notData write next rfl rfl
      have here := (writes slice isSlice _ inRound).place
      have later := (writes slice isSlice _ laterInRound).place
      exact ⟨by omega, fun isData => absurd isData (notData write rfl)⟩
    · refine consecutive.pairwise.imp_of_mem ?_
      rintro slice laterSlice isSlice isLater apart _ inRound _ laterInRound write next rfl rfl
      have here := (writes slice isSlice _ inRound).place
      have later := (writes laterSlice isLater _ laterInRound).place
      exact ⟨by omega, fun _ => by omega⟩

theorem fillsRange_growSlices (dumps : DumpFiles) (inode : Inode) (atomicityPrefix : String)
    (start total : ℕ) : FillsRange dumps inode start (start + total)
      ((fs.slices start total).flatMap (fs.growSlice inode atomicityPrefix)) := by
  apply fillsRange_flatMap (fs.slices_consecutive start total)
  · intro slice _ op inRound
    simp only [growSlice, List.mem_cons, List.not_mem_nil, or_false] at inRound
    rcases inRound with rfl | rfl
    · refine ⟨_, rfl, rfl, rfl, rfl, ?_⟩
      rintro ⟨⟩
    · refine ⟨_, rfl, rfl, rfl, rfl, ?_⟩
      rintro ⟨⟩
  · intro slice
    simp [growSlice, specialSlice]

theorem buffer_of_available {range : DataRange} {dump : Bytes}
    (available : dumps range.dumpFile = some dump) (offset count dumpOffset : ℕ)
    (atomicity : String) : WriteOp.buffer dumps (fun _ => 0)
        ⟨range.inode, offset, count, some range.dumpFile, dumpOffset, none, atomicity⟩ =
      .ok ((dump.drop dumpOffset).take count) := by
  simp only [WriteOp.buffer, available]

theorem fillsRange_appendSlices {range : DataRange} {dump : Bytes}
    (available : dumps range.dumpFile = some dump)
    (inDump : range.dumpOffset + range.count ≤ dump.length) (atomicityPrefix : String) :
    FillsRange dumps range.inode range.offset (range.offset + range.count)
      ((fs.slices range.offset range.count).flatMap (fs.appendSlice range atomicityPrefix)) := by
  have consecutive := fs.slices_consecutive range.offset range.count
  apply fillsRange_flatMap consecutive
  · intro slice isSlice op inRound
    obtain ⟨behind, _, before⟩ := consecutive.bounds slice isSlice
    simp only [appendSlice, List.mem_cons, List.not_mem_nil, or_false] at inRound
    rcases inRound with rfl | rfl | rfl
    · refine ⟨_, rfl, rfl, rfl, rfl, ?_⟩
      rintro ⟨⟩
    · refine ⟨_, rfl, rfl, rfl, rfl, ?_⟩
      rintro ⟨⟩
    · refine ⟨_, rfl, rfl, rfl, rfl, fun _ => ⟨_, buffer_of_available available _ _ _ _, ?_⟩⟩
      unfold Slice.stop at before
      rw [List.length_take, List.length_drop]
      exact Nat.min_eq_left (by omega)
  · intro slice
    simp [appendSlice, specialSlice]

theorem lowers_setLastAtomicity {low high : ℕ} {ops : List DiskOp}
    (lowers : Lowers file low high ops) (text : String) :
    Lowers file low high (setLastAtomicity text ops) := by
  rcases List.eq_nil_or_concat' ops with rfl | ⟨front, last, rfl⟩
  · exact lowers
  · have sets : (last.setAtomicity text).SetsSize file low high ↔ last.SetsSize file low high := by
      cases last <;> rfl
    have newSize : (last.setAtomicity text).newSize? = last.newSize? := by cases last <;> rfl
    obtain ⟨allSet, ordered⟩ := lowers
    rw [setLastAtomicity, List.modifyLast_concat]
    constructor
    · rw [List.forall_mem_append, List.forall_mem_singleton] at allSet ⊢
      exact ⟨allSet.1, sets.2 allSet.2⟩
    · simp only [List.pairwise_append, List.mem_singleton, forall_eq,
        newSize, List.pairwise_singleton] at ordered ⊢
      exact ordered

theorem lowers_append_delete {low high : ℕ} {ops : List DiskOp}
    (lowers : Lowers file low high ops) (parent inode : Inode) (name : Path)
    (entryType : EntryType) : Lowers file low high
      (ops ++ [.deleteDirEntry parent name inode entryType none]) := by
  constructor
  · rw [List.forall_mem_append, List.forall_mem_singleton]
    exact ⟨lowers.sets, trivial⟩
  · rw [List.pairwise_append]
    refine ⟨lowers.ordered, List.pairwise_singleton _ _, ?_⟩
    intro op _ later isLater size _ next isNext
    obtain rfl := List.mem_singleton.1 isLater
    cases isNext

theorem lowers_truncateSlices (inode : Inode) (atomicityPrefix : String) (start total : ℕ) :
    Lowers inode start (start + total) (((fs.slices start total).map
        (fs.truncateSlice inode atomicityPrefix)).reverse.map swapSizes) := by
  have consecutive := fs.slices_consecutive start total
  rw [reverse_truncateSlices]
  constructor
  · intro op member
    obtain ⟨slice, isSlice, rfl⟩ := List.mem_map.1 member
    obtain ⟨behind, _, before⟩ := consecutive.bounds slice (List.mem_reverse.1 isSlice)
    unfold Slice.stop at before
    exact ⟨rfl, behind, by omega⟩
  · rw [List.pairwise_map, List.pairwise_reverse]
    refine consecutive.pairwise.imp ?_
    intro slice later apart _ isStart _ isNext
    obtain rfl := Option.some.inj isStart
    obtain rfl := Option.some.inj isNext
    exact (Nat.le_add_right _ _).trans apart

theorem lowers_truncDiskOps (fs : Defaultfs) (inode : Inode) {initialSize finalSize : ℕ}
    (le : finalSize ≤ initialSize) (atomicityPrefix : String) : ∃ ops,
      fs.truncDiskOps inode initialSize finalSize none atomicityPrefix = .ok ops ∧
        Lowers inode finalSize initialSize ops := by
  rcases Nat.lt_or_eq_of_le le with shrinks | rfl
  · have lowers := fs.lowers_truncateSlices inode atomicityPrefix finalSize
      (initialSize - finalSize)
    rw [Nat.add_sub_cancel' le] at lowers
    exact ⟨_, fs.truncDiskOps_of_lt inode shrinks atomicityPrefix, lowers⟩
  · exact ⟨[], fs.truncDiskOps_of_eq inode finalSize atomicityPrefix,
      fun _ member => absurd member List.not_mem_nil, .nil⟩

theorem lowers_unlinkDiskOps (fs : Defaultfs) (parent inode : Inode) (name : Path) (size : ℕ)
    (entryType : EntryType) (atomicityPrefix : String) : ∃ ops,
      fs.unlinkDiskOps parent inode name size 1 entryType atomicityPrefix = .ok ops ∧
        Lowers inode 0 size ops := by
  obtain ⟨truncates, truncated, lowers⟩ :=
    fs.lowers_truncDiskOps inode (Nat.zero_le size) atomicityPrefix
  simp only [unlinkDiskOps, if_true, truncated, ok_bind]
  exact ⟨_, rfl, lowers_append_delete (lowers_setLastAtomicity lowers _)
    parent inode name entryType⟩

end Defaultfs

/-! ## All prefixes of an expansion -/

/-- The inode and the two sizes of a change of size. -/
def MicroOpKind.sizeChange? : MicroOpKind → Option (Inode × ℕ × ℕ)
  | .append range =>
      some (range.inode, range.offset, range.offset + range.count)
  | .trunc inode initialSize finalSize =>
      some (inode, initialSize, finalSize)
  | .unlink _ inode _ size hardlinks =>
      if hardlinks = 1 then some (inode, size, 0) else none
  | _ => none

def MicroOpKind.Recorded (kind : MicroOpKind) (dumps : DumpFiles) : Prop :=
  ∀ range, kind.data? = some range → ∃ dump,
    dumps range.dumpFile = some dump ∧
      range.dumpOffset + range.count ≤ dump.length

namespace Defaultfs

/-- Bytes that were written as data are those of the range. -/
def DataStays (range : DataRange) (dump : Bytes) (ops : List DiskOp) (content : ℕ → Bytes) : Prop :=
  ∀ k ≤ ops.length, ∀ j < k, ∀ write, ops[j]? = some (.write write) →
    write.specialWrite = none → ∀ position, write.offset ≤ position →
      position < write.offset + write.count →
        byteAt (content k) position =
          byteAt dump (range.dumpOffset + (position - range.offset))

/-- Every prefix of the expansion can be replayed on a file of the initial
size.  The contents stay between the two sizes, and data that was written is
what was appended. -/
def IntermediateStates (fs : Defaultfs) (kind : MicroOpKind) (file : Inode)
    (initialSize finalSize : ℕ) : Prop :=
  ∃ ops, fs.getDiskOps kind = .ok ops ∧
    ∀ dumps random store, kind.Recorded dumps →
      (store file).length = initialSize →
        ∃ states : ℕ → Inode → Bytes, states 0 = store ∧
          (∀ k ≤ ops.length,
            replayContents dumps random 0 (ops.take k) store =
              some (states k)) ∧
          StaysBetween initialSize finalSize (fun k => states k file)
            ops.length ∧
          ∀ range dump, kind.data? = some range →
            dumps range.dumpFile = some dump →
              DataStays range dump ops fun k => states k file

section

variable
  {fs : Defaultfs} {kind : MicroOpKind} {file : Inode}
  {initialSize finalSize : ℕ}

variable {ops : List DiskOp} {range : DataRange}

theorem intermediateStates_of_lowers (expanded : fs.getDiskOps kind = .ok ops)
    (noData : kind.data? = none) (le : finalSize ≤ initialSize)
    (lowers : Lowers file finalSize initialSize ops) :
    fs.IntermediateStates kind file initialSize finalSize := by
  refine ⟨ops, expanded, fun dumps random store _ size => ?_⟩
  obtain ⟨after, returns⟩ := lowers.returns dumps random 0 store
  obtain ⟨states, rfl, replayed⟩ := exists_states returns
  refine ⟨states, rfl, replayed.reached, staysBetween_of_lowers lowers replayed size le, ?_⟩
  intro range _ isData
  rw [noData] at isData
  cases isData

/-- A replay of all of the expansion is possible on some files. -/
theorem exists_replayContents
    (intermediate : fs.IntermediateStates kind file initialSize finalSize)
    (expanded : fs.getDiskOps kind = .ok ops) : ∃ dumps random store after,
      replayContents dumps random 0 ops store = some after := by
  obtain ⟨_, expanded', states⟩ := intermediate
  obtain rfl := Except.ok.inj (expanded.symm.trans expanded')
  let bytes := (kind.data?.map fun range => range.dumpOffset + range.count).getD 0
  obtain ⟨states, _, reached, _⟩ := states (fun _ => some (List.replicate bytes 0))
    (fun _ => ⟨fun _ _ => 0, fun _ => 0⟩) (fun _ => List.replicate initialSize 0)
    (fun range isData => ⟨_, rfl, by simp [bytes, isData]⟩) List.length_replicate
  have all := reached ops.length le_rfl
  rw [List.take_length] at all
  exact ⟨_, _, _, _, all⟩

theorem dataStays_of_fillsRange {dumps : DumpFiles} {random : ℕ → RandomSource}
    {states : ℕ → Inode → Bytes} {low high : ℕ} {dump : Bytes}
    (fills : FillsRange dumps file low high ops) (replayed : States dumps random ops states 0)
    (places : ∀ op ∈ ops, ReadsPlace range op) (available : dumps range.dumpFile = some dump)
    (behindStart : range.offset ≤ low) : DataStays range dump ops fun k => states k file := by
  intro k inside j earlier write isOp isData position behind before
  obtain ⟨jInside, isWrite⟩ := List.getElem?_eq_some_iff.1 isOp
  have member : DiskOp.write write ∈ ops := isWrite ▸ List.getElem_mem jInside
  obtain ⟨isDump, place⟩ := places _ member isData
  obtain ⟨_, isWrite', writeFills⟩ := fills.writes _ member
  obtain rfl := DiskOp.write.inj isWrite'
  have read : write.buffer dumps (fun _ => 0) =
      .ok ((dump.drop write.dumpOffset).take write.count) := by
    simp only [WriteOp.buffer, isData, isDump, available]
  have low := writeFills.low
  have position : write.dumpOffset + (position - write.offset) =
      range.dumpOffset + (position - range.offset) := by
    omega
  rw [data_of_fillsRange fills replayed isOp isData read k inside earlier _
    behind before, byteAt_take, if_pos (by omega), byteAt_drop, position]

/-- An expansion whose rounds fill the slices of the new bytes, with a special
write in each round. -/
structure FillsSlices (fs : Defaultfs) (kind : MicroOpKind) (file : Inode) (start total : ℕ)
    (rows : Slice → List DiskOp) : Prop where
  expanded : fs.getDiskOps kind = .ok ((fs.slices start total).flatMap rows)
  fills : ∀ dumps, kind.Recorded dumps →
    FillsRange dumps file start (start + total)
      ((fs.slices start total).flatMap rows)
  places : ∀ slice, ∀ op ∈ rows slice, op.range? = some (slice.start, slice.stop)
  special : ∀ slice, ∃ kind atomicity, specialSlice file kind atomicity slice ∈ rows slice
  data : ∀ range, kind.data? = some range → range.offset = start ∧
    ∀ op ∈ (fs.slices start total).flatMap rows, ReadsPlace range op

theorem fillsSlices_append (fs : Defaultfs) (positive : 0 < range.count) :
    fs.FillsSlices (.append range) range.inode range.offset range.count
      (fs.appendSlice range "") where
  expanded := fs.appendDiskOps_of_pos positive ""
  fills := by
    intro dumps recorded
    obtain ⟨dump, available, inDump⟩ := recorded range rfl
    exact fillsRange_appendSlices available inDump ""
  places := by
    intro slice op inRound
    simp only [appendSlice, List.mem_cons, List.not_mem_nil, or_false] at inRound
    rcases inRound with rfl | rfl | rfl <;> rfl
  special slice := ⟨_, _, List.mem_cons_self⟩
  data := by
    intro range' isData
    obtain rfl := Option.some.inj isData
    have expanded : fs.getDiskOps (.append range) = _ := fs.appendDiskOps_of_pos positive ""
    exact ⟨rfl, readsPlace_of_getDiskOps rfl expanded positive⟩

theorem fillsSlices_grow (fs : Defaultfs) (inode : Inode) (start : ℕ) {total : ℕ}
    (positive : 0 < total) : fs.FillsSlices (.trunc inode start (start + total)) inode start total
      (fs.growSlice inode "") where
  expanded := by
    have expanded := fs.truncDiskOps_of_gt inode (Nat.lt_add_of_pos_right (n := start) positive) ""
    rwa [Nat.add_sub_cancel_left] at expanded
  fills dumps _ := fillsRange_growSlices dumps inode "" start total
  places := by
    intro slice op inRound
    simp only [growSlice, List.mem_cons, List.not_mem_nil, or_false] at inRound
    rcases inRound with rfl | rfl <;> rfl
  special slice := ⟨_, _, List.mem_cons_self⟩
  data := nofun

/-- An expansion that fills the slices of the new bytes can be replayed if no
slice has a whole block in it. -/
theorem FillsSlices.intermediateStates_iff {rows : Slice → List DiskOp} {start total : ℕ}
    (filling : fs.FillsSlices kind file start total rows) :
    fs.IntermediateStates kind file start (start + total) ↔ ∀ slice ∈ fs.slices start total,
        NoWholeBlock slice.start slice.stop := by
  constructor
  · intro intermediate slice member
    obtain ⟨dumps, random, store, after, returns⟩ :=
      exists_replayContents intermediate filling.expanded
    obtain ⟨_, _, inRound⟩ := filling.special slice
    obtain ⟨_, _, _, stepped⟩ := replayOn_of_mem returns _
      (List.mem_flatMap.2 ⟨slice, member, inRound⟩)
    exact noWholeBlock_of_replayOn rfl stepped
  · intro noBlock
    refine ⟨_, filling.expanded, fun dumps random store recorded size => ?_⟩
    have fills := filling.fills dumps recorded
    have returns : ∀ op ∈ (fs.slices start total).flatMap rows, ∀ random store, ∃ next,
          op.replayOn dumps random store = some next := by
      intro op member
      obtain ⟨slice, isSlice, inRound⟩ := List.mem_flatMap.1 member
      obtain ⟨write, rfl, writeFills⟩ := fills.writes op member
      obtain ⟨isStart, isStop⟩ := Prod.mk.inj (Option.some.inj (filling.places slice _ inRound))
      refine writeFills.returns ?_
      rw [isStop, isStart]
      exact noBlock slice isSlice
    obtain ⟨after, returns⟩ := @replayContents_returns dumps random 0 _ store returns
    obtain ⟨states, rfl, replayed⟩ := exists_states returns
    refine ⟨states, rfl, replayed.reached,
      staysBetween_of_fillsRange fills replayed size (by omega), ?_⟩
    intro range dump isData available
    obtain ⟨rfl, reads⟩ := filling.data range isData
    exact dataStays_of_fillsRange fills replayed reads available le_rfl

theorem intermediateStates_of_empty (none : range.count = 0) :
    fs.IntermediateStates (.append range) range.inode range.offset
      (range.offset + range.count) := by
  refine ⟨[], if_pos (by omega), fun dumps random store _ size => ⟨fun _ => store, rfl, ?_, ?_, ?_⟩⟩
  · intro k _
    rw [List.take_nil, replayContents]
  · rw [none, Nat.add_zero]
    refine ⟨fun _ _ _ _ => rfl, ?_, ?_, nofun, nofun⟩
    · rw [Nat.min_self]
      exact fun _ _ => size.ge
    · rw [Nat.max_self]
      exact fun _ _ => size.le
  · intro range' dump isData available k inside j _ write isOp
    cases isOp

end

/-- The prefixes of an expansion can be replayed, and what they leave is
between the two ends, if no slice by which the file grows has a whole block in
it. -/
theorem intermediate_states_iff
    (fs : Defaultfs) (kind : MicroOpKind) (file : Inode)
    (initialSize finalSize : ℕ)
    (change : kind.sizeChange? = some (file, initialSize, finalSize)) :
    fs.IntermediateStates kind file initialSize finalSize ↔
      ∀ position, initialSize ≤ position → position < finalSize →
        NoWholeBlock (fs.sliceStart initialSize finalSize position)
          (fs.sliceStop initialSize finalSize position) := by
  cases kind with
  | append range =>
    obtain ⟨rfl, rfl, rfl⟩ := change
    rcases Nat.eq_zero_or_pos range.count with none | positive
    · exact iff_of_true (intermediateStates_of_empty none) (by omega)
    · rw [(fs.fillsSlices_append positive).intermediateStates_iff, forall_slices_iff NoWholeBlock]
  | trunc inode initialSize finalSize =>
    simp only [MicroOpKind.sizeChange?, Option.some.injEq, Prod.mk.injEq] at change
    obtain ⟨rfl, rfl, rfl⟩ := change
    rcases Nat.lt_or_ge initialSize finalSize with grows | le
    · obtain ⟨total, rfl⟩ := Nat.exists_eq_add_of_le grows.le
      rw [(fs.fillsSlices_grow inode initialSize
        (by omega)).intermediateStates_iff, forall_slices_iff NoWholeBlock]
    · obtain ⟨ops, expanded, lowers⟩ := fs.lowers_truncDiskOps inode le ""
      exact iff_of_true (intermediateStates_of_lowers expanded rfl le lowers) (by omega)
  | unlink name inode parent size hardlinks =>
    simp only [MicroOpKind.sizeChange?] at change
    split_ifs at change with last
    simp only [Option.some.injEq, Prod.mk.injEq] at change
    obtain ⟨rfl, rfl, rfl⟩ := change
    obtain rfl := last
    obtain ⟨ops, expanded, lowers⟩ := fs.lowers_unlinkDiskOps parent inode name size .typeFile ""
    exact iff_of_true (intermediateStates_of_lowers expanded rfl (Nat.zero_le _) lowers) (by omega)
  | _ => cases change

/-- A file of ten bytes that loses its last link. -/
theorem intermediate_states_iff_unlink :
    Defaultfs.IntermediateStates ⟨.aligned, 4, by decide, .unrounded⟩
        (.unlink [] 7 0 10 1) 7 10 0 ↔
      ∀ position, 10 ≤ position → position < 0 →
        NoWholeBlock
          (Defaultfs.sliceStart ⟨.aligned, 4, by decide, .unrounded⟩ 10 0
            position)
          (Defaultfs.sliceStop ⟨.aligned, 4, by decide, .unrounded⟩ 10 0
            position) :=
  intermediate_states_iff _ _ 7 10 0 rfl

/-- An append of two blocks to an empty file cannot be replayed. -/
theorem appended_blocks_not_replayed :
    ¬ Defaultfs.IntermediateStates ⟨.count, 1, by decide, .unrounded⟩
      (.append ⟨7, 0, 8192, "dump", 0⟩) 7 0 8192 := by
  intro intermediate
  have slices := (fillsSlices_append _ (by decide)).intermediateStates_iff.1 intermediate
  have noBlock : NoWholeBlock 0 8192 :=
    (forall_slices_iff NoWholeBlock).1 slices 0 le_rfl (by decide)
  rcases noBlock with small | noBlock
  · exact absurd small (by decide)
  · exact absurd (noBlock 0 (rounded_zero_le (blockSize 8192))).2 (by decide)

end Defaultfs

end Alice
