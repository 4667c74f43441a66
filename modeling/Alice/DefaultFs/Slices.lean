import Alice.Checked
import Alice.DefaultFs.DiskOps

/-! # The slices of writes and of changes of size

The two loops of `get_disk_ops` end, and their slices are a partition of the
range: into at most `splits` parts, or at the multiples of `splits`. -/

namespace Alice

open Checked Slicing

/-! ## Ranges -/

/-- The bytes that are written, or by which a file grows or shrinks. -/
def MicroOpKind.range? : MicroOpKind → Option (ℕ × ℕ)
  | .write range => some (range.offset, range.offset + range.count)
  | .append range => some (range.offset, range.offset + range.count)
  | .trunc _ initialSize finalSize =>
      some (min initialSize finalSize, max initialSize finalSize)
  | _ => none

/-- Where the bytes are taken from. -/
def MicroOpKind.data? : MicroOpKind → Option DataRange
  | .write range => some range
  | .append range => some range
  | _ => none

/-- How many disk operations a slice becomes. -/
def MicroOpKind.rounds : MicroOpKind → ℕ
  | .append _ => 3
  | .trunc _ initialSize finalSize =>
      if finalSize < initialSize then 1 else 2
  | _ => 1

/-- The slices in the order of the disk operations: a file is made smaller
from its end. -/
def MicroOpKind.ordered (slices : List Slice) : MicroOpKind → List Slice
  | .trunc _ initialSize finalSize =>
      if finalSize < initialSize then slices.reverse else slices
  | _ => slices

def DiskOp.range? : DiskOp → Option (ℕ × ℕ)
  | .write op => some (op.offset, op.offset + op.count)
  | .truncate _ initialSize finalSize _ =>
      some (min initialSize finalSize, max initialSize finalSize)
  | _ => none

namespace Defaultfs

/-! ## Slices -/

variable {total : ℕ} {fs : Defaultfs} {range : DataRange}

theorem sliceSize_progresses (fs : Defaultfs) (positive : 0 < total) :
    Progresses (fs.sliceSize total) := by
  intro position remaining some
  have aligned : position % fs.splits < fs.splits := Nat.mod_lt _ fs.splitsPos
  have part := fs.ceilDiv.pos total fs.splits positive fs.splitsPos
  unfold sliceSize
  split <;> omega

theorem slices_consecutive (fs : Defaultfs) (start total : ℕ) :
    Consecutive (start + total) start (fs.slices start total) := by
  rcases Nat.eq_zero_or_pos total with rfl | positive
  · exact .nil
  · exact cut_consecutive (fs.sliceSize_progresses positive) start total

theorem endOf_slices (fs : Defaultfs) (start : ℕ) (positive : 0 < total) :
    endOf (fs.slices start total) = start + total :=
  (fs.slices_consecutive start total).endOf_eq (by omega)

theorem length_slices_le (mode : fs.splitMode = .count) (start : ℕ) (small : total < 2 ^ 53) :
    (fs.slices start total).length ≤ fs.splits := by
  have parts : ∀ start remaining, fs.sliceSize total start remaining =
      min (fs.ceilDiv.toFun total fs.splits) remaining := by
    intro start remaining
    rw [sliceSize, mode]
  apply length_cutFrom_le parts
  rw [fs.ceilDiv.exact total fs.splits fs.splitsPos small]
  have rest := Nat.mod_lt (total + fs.splits - 1) fs.splitsPos
  have division := Nat.div_add_mod (total + fs.splits - 1) fs.splits
  omega

theorem not_dvd_of_between {splits start position : ℕ} (behind : start < position)
    (before : position < start + (splits - start % splits)) : ¬ splits ∣ position := by
  rintro ⟨block, rfl⟩
  have division := Nat.div_add_mod start splits
  have inside : start / splits < block := by
    refine Nat.lt_of_mul_lt_mul_left (a := splits) ?_
    omega
  have next := Nat.mul_le_mul_left splits (Nat.succ_le_of_lt inside)
  rw [Nat.mul_succ] at next
  omega

theorem dvd_next (splits start : ℕ) (positive : 0 < splits) :
    splits ∣ start + (splits - start % splits) := by
  have division := Nat.div_add_mod start splits
  have rest := Nat.mod_lt start positive
  refine ⟨start / splits + 1, ?_⟩
  rw [Nat.mul_succ]
  omega

theorem aligned_slices (mode : fs.splitMode = .aligned) (start total : ℕ) :
    ∀ slice ∈ fs.slices start total, (slice.start = start ∨ fs.splits ∣ slice.start) ∧
        ∀ position, slice.start < position → position < slice.stop → ¬ fs.splits ∣ position := by
  have size : ∀ start remaining, fs.sliceSize total start remaining =
      min (fs.splits - start % fs.splits) remaining := by
    intro start remaining
    rw [sliceSize, mode]
  let StartsAt (position _ : ℕ) := position = start ∨ fs.splits ∣ position
  refine @forall_mem_cutFrom _ StartsAt _ ?_ _ _ _ (.inl rfl)
  intro position remaining starts _
  refine ⟨⟨starts, ?_⟩, ?_⟩
  · intro inner behind before
    simp only [Slice.stop, size] at behind before
    exact not_dvd_of_between behind (by omega)
  · intro less
    rw [size] at less ⊢
    rw [Nat.min_eq_left (by omega)]
    exact .inr (dvd_next fs.splits position fs.splitsPos)

def sliceStart (fs : Defaultfs) (start stop position : ℕ) : ℕ :=
  match fs.splitMode with
  | .aligned => max start (position / fs.splits * fs.splits)
  | .count =>
      let part := fs.ceilDiv.toFun (stop - start) fs.splits
      start + (position - start) / part * part

def sliceStop (fs : Defaultfs) (start stop position : ℕ) : ℕ :=
  match fs.splitMode with
  | .aligned => min stop (position / fs.splits * fs.splits + fs.splits)
  | .count =>
      let part := fs.ceilDiv.toFun (stop - start) fs.splits
      min stop (start + (position - start) / part * part + part)

theorem div_eq_of_between {size block position : ℕ} (behind : block * size ≤ position)
    (before : position < block * size + size) : position / size = block :=
  Nat.div_eq_of_lt_le behind (by rwa [Nat.succ_mul])

section

variable {fs : Defaultfs} {start total : ℕ} {slice : Slice}

theorem slice_around_aligned (mode : fs.splitMode = .aligned) :
    ∀ slice ∈ fs.slices start total, ∀ position, slice.start ≤ position → position < slice.stop →
        slice.start = fs.sliceStart start (start + total) position ∧
          slice.stop = fs.sliceStop start (start + total) position := by
  let Left (first remaining : ℕ) := first + remaining = start + total ∧ start ≤ first ∧
      (first = start ∨ fs.splits ∣ first)
  refine @forall_mem_cutFrom _ Left _ ?_ _ _ _ ⟨rfl, le_rfl, .inl rfl⟩
  rintro first remaining ⟨rest, behind, starts⟩ _
  have size : fs.sliceSize total first remaining =
      min (fs.splits - first % fs.splits) remaining := by
    rw [sliceSize, mode]
  have division := Nat.div_add_mod' first fs.splits
  constructor
  · intro position inside before
    simp only [Slice.stop, size] at inside before ⊢
    have block : position / fs.splits = first / fs.splits := div_eq_of_between (by omega) (by omega)
    simp only [sliceStart, sliceStop, mode, block]
    rcases starts with rfl | divides
    · omega
    · rw [Nat.mod_eq_zero_of_dvd divides] at division
      omega
  · intro less
    rw [size] at less ⊢
    rw [Nat.min_eq_left (by omega)]
    exact ⟨by omega, by omega, .inr (dvd_next fs.splits first fs.splitsPos)⟩

theorem slice_around_count (mode : fs.splitMode = .count) :
    ∀ slice ∈ fs.slices start total, ∀ position, slice.start ≤ position → position < slice.stop →
        slice.start = fs.sliceStart start (start + total) position ∧
          slice.stop = fs.sliceStop start (start + total) position := by
  let Left (first remaining : ℕ) := first + remaining = start + total ∧
      ∃ block, first = start + block * fs.ceilDiv.toFun total fs.splits
  refine @forall_mem_cutFrom _ Left _ ?_ _ _ _ ⟨rfl, 0, by omega⟩
  rintro first remaining ⟨rest, block, rfl⟩ _
  have size : ∀ first, fs.sliceSize total first remaining =
      min (fs.ceilDiv.toFun total fs.splits) remaining := by
    intro first
    rw [sliceSize, mode]
  constructor
  · intro position inside before
    simp only [Slice.stop, size] at inside before ⊢
    have isBlock : (position - start) / fs.ceilDiv.toFun total fs.splits = block :=
      div_eq_of_between (by omega) (by omega)
    simp only [sliceStart, sliceStop, mode, Nat.add_sub_cancel_left, isBlock, true_and]
    omega
  · intro less
    rw [size] at less ⊢
    rw [Nat.min_eq_left (by omega)]
    exact ⟨by omega, block + 1, by rw [Nat.succ_mul, Nat.add_assoc]⟩

theorem slice_around (member : slice ∈ fs.slices start total) {position : ℕ}
    (behind : slice.start ≤ position) (before : position < slice.stop) :
    slice.start = fs.sliceStart start (start + total) position ∧
      slice.stop = fs.sliceStop start (start + total) position := by
  cases mode : fs.splitMode with
  | aligned => exact slice_around_aligned mode slice member position behind before
  | count => exact slice_around_count mode slice member position behind before

/-- A property of the slices is one of the slices around the positions of
the range. -/
theorem forall_slices_iff (Good : ℕ → ℕ → Prop) :
    (∀ slice ∈ fs.slices start total, Good slice.start slice.stop) ↔
      ∀ position, start ≤ position → position < start + total →
        Good (fs.sliceStart start (start + total) position)
          (fs.sliceStop start (start + total) position) := by
  constructor
  · intro good position behind before
    obtain ⟨slice, member, inside, within⟩ :=
      (fs.slices_consecutive start total).exists_mem behind before
    obtain ⟨isStart, isStop⟩ := slice_around member inside within
    rw [← isStart, ← isStop]
    exact good slice member
  · intro good slice member
    obtain ⟨behind, positive, inside⟩ := (fs.slices_consecutive start total).bounds slice member
    have within : slice.start < slice.stop := Nat.lt_add_of_pos_right positive
    obtain ⟨isStart, isStop⟩ := slice_around member le_rfl within
    have here := good slice.start behind (by omega)
    rwa [← isStart, ← isStop] at here

end

/-- What the slices of a range should be. -/
structure Partition (fs : Defaultfs) (start stop : ℕ) (slices : List Slice) : Prop where
  consecutive : Consecutive stop start slices
  count : fs.splitMode = .count → slices.length ≤ fs.splits
  boundary : fs.splitMode = .aligned → ∀ slice ∈ slices,
    slice.start ≠ start → fs.splits ∣ slice.start
  inside : fs.splitMode = .aligned → ∀ slice ∈ slices, ∀ position,
    slice.start < position → position < slice.stop → ¬ fs.splits ∣ position

theorem slices_partition
    (fs : Defaultfs) (start : ℕ) {total : ℕ} (small : total < 2 ^ 53) :
    fs.Partition start (start + total) (fs.slices start total) where
  consecutive := fs.slices_consecutive start total
  count mode := length_slices_le mode start small
  boundary mode slice member notFirst :=
    (aligned_slices mode start total slice member).1.resolve_left notFirst
  inside mode slice member := (aligned_slices mode start total slice member).2

/-! ## Expansions -/

theorem truncDiskOps_of_eq (fs : Defaultfs) (inode : Inode) (size : ℕ) (atomicityPrefix : String) :
    fs.truncDiskOps inode size size none atomicityPrefix = .ok [] :=
  if_pos rfl

theorem truncDiskOps_of_lt (fs : Defaultfs) (inode : Inode) {initialSize finalSize : ℕ}
    (shrinks : finalSize < initialSize) (atomicityPrefix : String) :
    fs.truncDiskOps inode initialSize finalSize none atomicityPrefix =
      .ok (((fs.slices finalSize (initialSize - finalSize)).map
        (fs.truncateSlice inode atomicityPrefix)).reverse.map swapSizes) := by
  have stop := fs.endOf_slices finalSize (Nat.sub_pos_of_lt shrinks)
  rw [Nat.add_sub_cancel' (Nat.le_of_lt shrinks)] at stop
  unfold truncDiskOps
  rw [if_neg (by omega), if_pos shrinks]
  simp only [assertThat, stop, if_true, ok_bind]
  rfl

theorem reverse_truncateSlices (fs : Defaultfs) (inode : Inode) (atomicityPrefix : String)
    (slices : List Slice) : (slices.map (fs.truncateSlice inode atomicityPrefix)).reverse.map
        swapSizes = slices.reverse.map fun slice =>
        swapSizes (fs.truncateSlice inode atomicityPrefix slice) := by
  rw [← List.map_reverse, List.map_map]
  rfl

theorem truncDiskOps_of_gt (fs : Defaultfs) (inode : Inode) {initialSize finalSize : ℕ}
    (grows : initialSize < finalSize) (atomicityPrefix : String) :
    fs.truncDiskOps inode initialSize finalSize none atomicityPrefix =
      .ok ((fs.slices initialSize (finalSize - initialSize)).flatMap
        (fs.growSlice inode atomicityPrefix)) := by
  have stop := fs.endOf_slices initialSize (Nat.sub_pos_of_lt grows)
  rw [Nat.add_sub_cancel' (Nat.le_of_lt grows)] at stop
  unfold truncDiskOps
  rw [if_neg (by omega), if_neg (by omega)]
  simp only [assertThat, stop, if_true, ok_bind]
  rfl

theorem appendDiskOps_of_pos (fs : Defaultfs) (positive : 0 < range.count)
    (atomicityPrefix : String) :
    fs.truncDiskOps range.inode range.offset (range.offset + range.count)
        (some range) atomicityPrefix = .ok ((fs.slices range.offset range.count).flatMap
        (fs.appendSlice range atomicityPrefix)) := by
  have stop := fs.endOf_slices range.offset positive
  unfold truncDiskOps
  rw [if_neg (by omega), if_neg (by omega)]
  simp only [assertThat, if_true, ok_bind, Nat.add_sub_cancel_left, stop]
  rfl

theorem writeDiskOps_of_pos (fs : Defaultfs) (positive : 0 < range.count) :
    fs.getDiskOps (.write range) = .ok ((fs.slices range.offset range.count).map
        (fs.writeSlice range)) := by
  simp only [getDiskOps, assertThat, positive, if_true, ok_bind]
  rfl

/-! ## The slices of an expansion -/

/-- Every round of a loop changes the bytes of its slice. -/
theorem map_range?_flatMap {rows : Slice → List DiskOp} {rounds : ℕ}
    (round : ∀ slice, (rows slice).map DiskOp.range? =
      List.replicate rounds (some (slice.start, slice.stop))) (slices : List Slice) :
    (slices.flatMap rows).map DiskOp.range? = slices.flatMap fun slice =>
        List.replicate rounds (some (slice.start, slice.stop)) := by
  rw [List.map_flatMap]
  exact List.flatMap_congr fun slice _ => round slice

theorem map_range?_map {row : Slice → DiskOp}
    (round : ∀ slice, (row slice).range? = some (slice.start, slice.stop)) (slices : List Slice) :
    (slices.map row).map DiskOp.range? = slices.flatMap fun slice =>
        List.replicate 1 (some (slice.start, slice.stop)) := by
  rw [List.map_map, List.map_eq_flatMap]
  exact List.flatMap_congr fun slice _ => congrArg (fun range => [range]) (round slice)

theorem range?_swapSizes_truncateSlice (fs : Defaultfs) (inode : Inode) (atomicityPrefix : String)
    (slice : Slice) : (swapSizes (fs.truncateSlice inode atomicityPrefix slice)).range? =
      some (slice.start, slice.stop) := by
  have le : slice.start ≤ slice.stop := Nat.le_add_right _ _
  simp only [truncateSlice, swapSizes, DiskOp.range?, Nat.min_eq_right le, Nat.max_eq_left le]

/-- The disk operations are those of the slices, some for each slice. -/
theorem ranges_of_getDiskOps (fs : Defaultfs) {kind : MicroOpKind} {start stop : ℕ}
    (isRange : kind.range? = some (start, stop)) (nonempty : start < stop) :
    ∃ ops, fs.getDiskOps kind = .ok ops ∧ ops.map DiskOp.range? =
        (kind.ordered (fs.slices start (stop - start))).flatMap
          fun slice => List.replicate kind.rounds (some (slice.start, slice.stop)) := by
  cases kind with
  | write range =>
    obtain ⟨rfl, rfl⟩ := Prod.mk.inj (Option.some.inj isRange)
    refine ⟨_, fs.writeDiskOps_of_pos (by omega), ?_⟩
    rw [Nat.add_sub_cancel_left]
    exact map_range?_map (fun _ => rfl) _
  | append range =>
    obtain ⟨rfl, rfl⟩ := Prod.mk.inj (Option.some.inj isRange)
    refine ⟨_, fs.appendDiskOps_of_pos (by omega) "", ?_⟩
    rw [Nat.add_sub_cancel_left]
    exact map_range?_flatMap (fun _ => rfl) _
  | trunc inode initialSize finalSize =>
    obtain ⟨rfl, rfl⟩ := Prod.mk.inj (Option.some.inj isRange)
    rcases Nat.lt_or_ge finalSize initialSize with shrinks | grows
    · refine ⟨_, fs.truncDiskOps_of_lt inode shrinks "", ?_⟩
      rw [Nat.min_eq_right shrinks.le, Nat.max_eq_left shrinks.le, MicroOpKind.ordered,
        MicroOpKind.rounds, if_pos shrinks, if_pos shrinks, reverse_truncateSlices]
      exact map_range?_map (fs.range?_swapSizes_truncateSlice inode "") _
    · refine ⟨_, fs.truncDiskOps_of_gt inode (by omega) "", ?_⟩
      rw [Nat.min_eq_left grows, Nat.max_eq_right grows, MicroOpKind.ordered, MicroOpKind.rounds,
        if_neg (Nat.not_lt.2 grows), if_neg (Nat.not_lt.2 grows)]
      exact map_range?_flatMap (fun _ => rfl) _
  | _ => cases isRange

/-- A write that is not a special one reads its bytes at their place in the
dump file. -/
def ReadsPlace (range : DataRange) : DiskOp → Prop
  | .write op => op.specialWrite = none →
      op.dumpFile = some range.dumpFile ∧
        (op.dumpOffset : ℤ) - range.dumpOffset = op.offset - range.offset
  | _ => True

theorem readsPlace_of_getDiskOps {kind : MicroOpKind} {ops : List DiskOp}
    (isData : kind.data? = some range) (expanded : fs.getDiskOps kind = .ok ops)
    (positive : 0 < range.count) : ∀ op ∈ ops, ReadsPlace range op := by
  cases kind with
  | write range =>
    obtain rfl := Option.some.inj isData
    rw [fs.writeDiskOps_of_pos positive] at expanded
    obtain rfl := Except.ok.inj expanded
    intro op member
    obtain ⟨slice, isSlice, rfl⟩ := List.mem_map.1 member
    obtain ⟨behind, _⟩ := (fs.slices_consecutive range.offset range.count).bounds slice isSlice
    refine fun _ => ⟨rfl, ?_⟩
    simp only
    omega
  | append range =>
    obtain rfl := Option.some.inj isData
    have expanded : fs.truncDiskOps range.inode range.offset
        (range.offset + range.count) (some range) "" = .ok ops := expanded
    rw [fs.appendDiskOps_of_pos positive] at expanded
    obtain rfl := Except.ok.inj expanded
    intro op member
    obtain ⟨slice, isSlice, inRound⟩ := List.mem_flatMap.1 member
    obtain ⟨behind, _⟩ := (fs.slices_consecutive range.offset range.count).bounds slice isSlice
    simp only [appendSlice, List.mem_cons, List.not_mem_nil, or_false] at inRound
    rcases inRound with rfl | rfl | rfl
    · rintro ⟨⟩
    · rintro ⟨⟩
    · refine fun _ => ⟨rfl, ?_⟩
      simp only
      omega
  | _ => cases isData

/-- The loops end after at most as many rounds as there are bytes.  Their
slices are a partition of the range, and the disk operations are made of
them. -/
theorem slices_partition_range
    (fs : Defaultfs) (kind : MicroOpKind) (start stop : ℕ)
    (isRange : kind.range? = some (start, stop))
    (nonempty : start < stop)
    (small : stop < 2 ^ 53) :
    ∃ slices ops, fs.getDiskOps kind = .ok ops ∧
      (∀ fuel, stop - start ≤ fuel →
        cutFrom (fs.sliceSize (stop - start)) fuel start (stop - start) =
          slices) ∧
      fs.Partition start stop slices ∧
      ops.map DiskOp.range? =
        (kind.ordered slices).flatMap
          (fun slice => List.replicate kind.rounds
            (some (slice.start, slice.stop))) ∧
      ∀ range, kind.data? = some range → ∀ op ∈ ops,
        ReadsPlace range op := by
  obtain ⟨ops, expanded, ranges⟩ := fs.ranges_of_getDiskOps isRange nonempty
  refine ⟨_, ops, expanded, ?_, ?_, ranges, ?_⟩
  · intro fuel enough
    exact cutFrom_of_le (fs.sliceSize_progresses (by omega)) le_rfl enough
  · have partition := @slices_partition fs start (stop - start) (by omega)
    rwa [Nat.add_sub_cancel' nonempty.le] at partition
  · intro range isData
    refine readsPlace_of_getDiskOps isData expanded ?_
    cases kind with
    | write | append =>
      obtain rfl := Option.some.inj isData
      obtain ⟨rfl, rfl⟩ := Prod.mk.inj (Option.some.inj isRange)
      omega
    | _ => cases isData

/-- A file of ten bytes that becomes empty, cut at multiples of four. -/
theorem slices_partition_range_shrinking :
    ∃ slices ops,
      Defaultfs.getDiskOps ⟨.aligned, 4, by decide, .unrounded⟩
          (.trunc 0 10 0) = .ok ops ∧
        (∀ fuel, 10 - 0 ≤ fuel →
          cutFrom (Defaultfs.sliceSize ⟨.aligned, 4, by decide, .unrounded⟩
            (10 - 0)) fuel 0 (10 - 0) = slices) ∧
        Defaultfs.Partition ⟨.aligned, 4, by decide, .unrounded⟩ 0 10
          slices ∧
        ops.map DiskOp.range? =
          ((MicroOpKind.trunc 0 10 0).ordered slices).flatMap
            (fun slice => List.replicate (MicroOpKind.trunc 0 10 0).rounds
              (some (slice.start, slice.stop))) ∧
        ∀ range, (MicroOpKind.trunc 0 10 0).data? = some range →
          ∀ op ∈ ops, ReadsPlace range op :=
  slices_partition_range _ (.trunc 0 10 0) 0 10 rfl (by decide) (by decide)

end Defaultfs

end Alice
