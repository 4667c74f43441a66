import Alice.Replay.SizeChange

/-! # What the texts of a change of size say

`semi-` should stand in a text as long as the file does not have its final
size.  The texts are made while the slices are cut from the lower end; the
truncations of a shrinking file come in the other order, and the texts are
reversed with them. -/

namespace Alice

open Posix (Bytes Path)
open Checked Slicing

/-! ## Texts -/

def HasSemi (text : String) : Prop :=
  "semi-".toList <:+: text.toList

theorem HasSemi.append_left {back : String} (has : HasSemi back) (front : String) :
    HasSemi (front ++ back) := by
  rw [HasSemi, String.toList_append]
  exact has.trans (List.suffix_append _ _).isInfix

theorem HasSemi.append_right {front : String} (has : HasSemi front) (back : String) :
    HasSemi (front ++ back) := by
  rw [HasSemi, String.toList_append]
  exact has.trans (List.prefix_append _ _).isInfix

theorem hasSemi_append_semi_iff (fs : Defaultfs) (slice : Slice) {front verb : String}
    (notFront : ¬ HasSemi front) (inVerb : HasSemi verb) :
    HasSemi (front ++ fs.semi verb slice) ↔ slice.last = false := by
  unfold Defaultfs.semi
  cases slice.last with
  | true => simpa using notFront
  | false =>
    simp only [Bool.false_eq_true, if_false, iff_true, String.append_assoc]
    exact (inVerb.append_right _).append_left front

theorem not_hasSemi : ¬ HasSemi "" ∧ ¬ HasSemi "zero written" ∧ ¬ HasSemi "garbage written" ∧
      ¬ HasSemi "fully truncated" := by
  unfold HasSemi
  decide +kernel

theorem hasSemi_verbs : HasSemi " semi-truncated" ∧ HasSemi " semi-expanded" ∧
      HasSemi "semi-expanded" := by
  unfold HasSemi
  decide +kernel

namespace Defaultfs

/-- A `write` or `truncate` says `semi-` if and only if the file does not
have its final size after it. -/
def TruthfulLabels (fs : Defaultfs) (kind : MicroOpKind) (file : Inode)
    (initialSize finalSize : ℕ) : Prop :=
  ∃ ops, fs.getDiskOps kind = .ok ops ∧
    ∀ dumps random store, kind.Recorded dumps →
      (store file).length = initialSize →
        ∀ k op, ops[k]? = some op → op.range?.isSome → ∀ after,
          replayContents dumps random 0 (ops.take (k + 1)) store =
              some after →
            ((∃ text ∈ op.atomicity?, HasSemi text) ↔
              (after file).length ≠ finalSize)

/-! ## Growing files -/

section Growing

variable
  {fs : Defaultfs} {kind : MicroOpKind} {file : Inode} {dumps : DumpFiles}
  {random : ℕ → RandomSource} {store after : Inode → Bytes}
  {ops : List DiskOp} {low high : ℕ}

/-- The operations up to a write fill the range up to its end. -/
theorem fillsRange_take (fills : FillsRange dumps file low high ops) {k : ℕ} {write : WriteOp}
    (isOp : ops[k]? = some (.write write)) : FillsRange dumps file low (write.offset + write.count)
      (ops.take (k + 1)) where
  writes := by
    intro op member
    obtain ⟨earlier, isEarlier, fillsEarlier⟩ := fills.writes op (List.mem_of_mem_take member)
    refine ⟨earlier, isEarlier, { fillsEarlier with high := ?_ }⟩
    obtain ⟨inside, isWrite⟩ := List.getElem?_eq_some_iff.1 isOp
    obtain ⟨j, jInside, isMember⟩ := List.mem_take_iff_getElem.1 member
    rcases Nat.lt_or_ge j k with before | here
    · exact (List.pairwise_iff_getElem.1 fills.ordered j k (by omega) inside
        before earlier write (isMember.trans isEarlier) isWrite).1
    · obtain rfl : j = k := by omega
      obtain rfl := DiskOp.write.inj (isEarlier.symm.trans (isMember.symm.trans isWrite))
      exact le_rfl
  ordered := fills.ordered.sublist (List.take_sublist _ _)

/-- After a write the file ends where the write does. -/
theorem length_of_replayContents_take (fills : FillsRange dumps file low high ops)
    (size : (store file).length = low) {k : ℕ} {write : WriteOp}
    (isOp : ops[k]? = some (.write write))
    (returns : replayContents dumps random 0 (ops.take (k + 1)) store = some after) :
    (after file).length = write.offset + write.count := by
  have upTo := fillsRange_take fills isOp
  obtain ⟨inside, isWrite⟩ := List.getElem?_eq_some_iff.1 isOp
  have length : (ops.take (k + 1)).length = k + 1 := by
    rw [List.length_take]
    omega
  obtain ⟨states, rfl, replayed⟩ := exists_states returns
  have isAfter : states (k + 1) = after := by
    have reached := replayed.reached (k + 1) length.ge
    rw [List.take_take, Nat.min_self, returns] at reached
    exact (Option.some.inj reached).symm
  have isLast : (ops.take (k + 1))[k]? = some (.write write) := by
    rw [List.getElem?_take_of_lt (Nat.lt_succ_self k), isOp]
  obtain ⟨_, isMember, fillsWrite⟩ := fills.writes _ (List.getElem_mem inside)
  obtain rfl := DiskOp.write.inj (isWrite.symm.trans isMember)
  have lowLe := fillsWrite.low
  have below := (bounds_of_fillsRange upTo replayed size (by omega) (k + 1) length.ge).2.2
  have step := length_of_fillsRange upTo replayed isLast
  rw [← isAfter]
  omega

/-- The texts are right if each round says `semi-` for all slices but the
last. -/
theorem FillsSlices.truthfulLabels {rows : Slice → List DiskOp} {start total : ℕ}
    (filling : fs.FillsSlices kind file start total rows) (texts : ∀ slice, ∀ op ∈ rows slice,
      (∃ text ∈ op.atomicity?, HasSemi text) ↔ slice.last = false) :
    fs.TruthfulLabels kind file start (start + total) := by
  refine ⟨_, filling.expanded, ?_⟩
  intro dumps random store recorded size k op isOp _ after returns
  have fills := filling.fills dumps recorded
  have member := List.mem_of_getElem? isOp
  obtain ⟨slice, isSlice, inRound⟩ := List.mem_flatMap.1 member
  obtain ⟨write, rfl, _⟩ := fills.writes op member
  obtain ⟨_, isStop⟩ := Prod.mk.inj (Option.some.inj (filling.places slice _ inRound))
  rw [texts slice _ inRound, length_of_replayContents_take fills size isOp returns, isStop,
    ← Bool.not_eq_true, (fs.slices_consecutive start total).last_iff slice isSlice]

end Growing

theorem hasSemi_appendSlice (fs : Defaultfs) (range : DataRange) (slice : Slice) :
    ∀ op ∈ fs.appendSlice range "" slice,
      (∃ text ∈ op.atomicity?, HasSemi text) ↔ slice.last = false := by
  obtain ⟨empty, zero, garbage, _⟩ := not_hasSemi
  obtain ⟨_, blank, plain⟩ := hasSemi_verbs
  intro op inRound
  simp only [appendSlice, List.mem_cons, List.not_mem_nil, or_false] at inRound
  rcases inRound with rfl | rfl | rfl
  · simpa [specialSlice, DiskOp.atomicity?] using hasSemi_append_semi_iff fs slice zero blank
  · simpa [specialSlice, DiskOp.atomicity?] using hasSemi_append_semi_iff fs slice garbage blank
  · simpa [DiskOp.atomicity?] using hasSemi_append_semi_iff fs slice empty plain

theorem hasSemi_growSlice (fs : Defaultfs) (inode : Inode) (slice : Slice) :
    ∀ op ∈ fs.growSlice inode "" slice,
      (∃ text ∈ op.atomicity?, HasSemi text) ↔ slice.last = false := by
  obtain ⟨empty, _, garbage, _⟩ := not_hasSemi
  obtain ⟨_, blank, plain⟩ := hasSemi_verbs
  intro op inRound
  simp only [growSlice, List.mem_cons, List.not_mem_nil, or_false] at inRound
  rcases inRound with rfl | rfl
  · simpa [specialSlice, DiskOp.atomicity?] using hasSemi_append_semi_iff fs slice garbage blank
  · simpa [specialSlice, DiskOp.atomicity?] using hasSemi_append_semi_iff fs slice empty plain

/-! ## Shrinking files -/

/-- The range is cut nowhere: there is no multiple of `splits` inside of it,
or a part is as long as the range. -/
def OneSlice (fs : Defaultfs) (low high : ℕ) : Prop :=
  match fs.splitMode with
  | .aligned => ∀ block, low < block * fs.splits → high ≤ block * fs.splits
  | .count => high - low ≤ fs.ceilDiv.toFun (high - low) fs.splits

theorem sliceSize_eq_total_iff (fs : Defaultfs) (low total : ℕ) :
    fs.sliceSize total low total = total ↔ fs.OneSlice low (low + total) := by
  unfold sliceSize OneSlice
  cases fs.splitMode with
  | aligned =>
    simp only [min_eq_right_iff]
    have division := Nat.div_add_mod' low fs.splits
    have below := Nat.mod_lt low fs.splitsPos
    constructor
    · intro fits block behind
      by_contra inside
      exact not_dvd_of_between behind (by omega) (Nat.dvd_mul_left fs.splits block)
    · intro notInside
      have next := notInside (low / fs.splits + 1) (by rw [Nat.succ_mul]; omega)
      rw [Nat.succ_mul] at next
      omega
  | count => simp only [min_eq_right_iff, Nat.add_sub_cancel_left]

variable {total initialSize finalSize : ℕ} {fs : Defaultfs}

theorem slices_eq_cons (fs : Defaultfs) (low : ℕ) (positive : 0 < total) :
    ∃ rest, fs.slices low total = ⟨low, fs.sliceSize total low total, rest.isEmpty⟩ :: rest ∧
      Consecutive (low + total) (low + fs.sliceSize total low total)
        rest := by
  have consecutive := fs.slices_consecutive low total
  have unfolded : ∃ last rest, fs.slices low total =
      ⟨low, fs.sliceSize total low total, last⟩ :: rest := by
    obtain ⟨fuel, rfl⟩ := Nat.exists_eq_add_of_lt positive
    exact ⟨_, _, rfl⟩
  obtain ⟨last, rest, isCons⟩ := unfolded
  rw [isCons] at consecutive
  obtain ⟨isHead, tail⟩ := consecutive.head_eq
  exact ⟨rest, by rw [isCons, isHead], tail⟩

theorem slices_of_oneSlice {low : ℕ} (positive : 0 < total) (one : fs.OneSlice low (low + total)) :
    fs.slices low total = [⟨low, total, true⟩] := by
  obtain ⟨rest, isCons, tail⟩ := fs.slices_eq_cons low positive
  rw [(fs.sliceSize_eq_total_iff low total).2 one] at isCons tail
  obtain rfl := tail.eq_nil_iff.2 rfl
  exact isCons

/-- With more than one slice, the last one does not start where the range
does. -/
theorem slices_of_not_oneSlice {low : ℕ} (positive : 0 < total)
    (notOne : ¬ fs.OneSlice low (low + total)) :
    ∃ first front last, fs.slices low total = first :: (front ++ [last]) ∧
      last.last = true ∧ low < last.start := by
  obtain ⟨rest, isCons, tail⟩ := fs.slices_eq_cons low positive
  obtain ⟨some, _⟩ := fs.sliceSize_progresses positive low total positive
  rcases List.eq_nil_or_concat' rest with rfl | ⟨front, last, rfl⟩
  · have stops := tail.eq_nil_iff.1 rfl
    exact absurd ((fs.sliceSize_eq_total_iff low total).1 (by omega)) notOne
  · obtain ⟨behind, _⟩ := tail.bounds last (by simp)
    exact ⟨_, front, last, isCons, tail.last_of_concat, by omega⟩

section Shrinking

variable
  {fs : Defaultfs} {kind : MicroOpKind} {file : Inode}
  {initialSize finalSize before size : ℕ} {rest : List DiskOp}
  {text : String}

/-- The texts are right if there is one truncate, which sets the final
size. -/
theorem truthfulLabels_of_truncate
    (expanded : fs.getDiskOps kind = .ok (.truncate file before finalSize text :: rest))
    (noRange : ∀ op ∈ rest, op.range? = none) (noSemi : ¬ HasSemi text) :
    fs.TruthfulLabels kind file initialSize finalSize := by
  refine ⟨_, expanded, ?_⟩
  rintro dumps random store _ _ (_ | k) op isOp hasRange after returns
  · obtain rfl := Option.some.inj isOp
    obtain rfl := Option.some.inj returns
    simpa [DiskOp.atomicity?] using noSemi
  · rw [noRange op (List.mem_of_getElem? isOp)] at hasRange
    cases hasRange

theorem truthfulLabels_of_noRange {ops : List DiskOp} (expanded : fs.getDiskOps kind = .ok ops)
    (noRange : ∀ op ∈ ops, op.range? = none) :
    fs.TruthfulLabels kind file initialSize finalSize := by
  refine ⟨_, expanded, ?_⟩
  intro dumps random store _ _ k op isOp hasRange
  rw [noRange op (List.mem_of_getElem? isOp)] at hasRange
  cases hasRange

/-- A first truncate that does not set the final size has to say so. -/
theorem not_truthfulLabels_of_truncate
    (expanded : fs.getDiskOps kind = .ok (.truncate file before size text :: rest))
    (noData : kind.data? = none) (notFinal : size ≠ finalSize) (noSemi : ¬ HasSemi text) :
    ¬ fs.TruthfulLabels kind file initialSize finalSize := by
  rintro ⟨_, expanded', truthful⟩
  obtain rfl := Except.ok.inj (expanded.symm.trans expanded')
  have recorded : kind.Recorded fun _ => none := by
    intro range isData
    rw [noData] at isData
    cases isData
  have label := truthful (fun _ => none) (fun _ => ⟨fun _ _ => 0, fun _ => 0⟩)
    (fun _ => List.replicate initialSize 0) recorded List.length_replicate 0
    _ rfl rfl _ rfl
  have saysSemi := label.2 (by simpa using notFinal)
  simp [DiskOp.atomicity?, noSemi] at saysSemi

end Shrinking

theorem truncDiskOps_of_oneSlice (inode : Inode) (shrinks : finalSize < initialSize)
    (one : fs.OneSlice finalSize initialSize) :
    fs.truncDiskOps inode initialSize finalSize none "" =
      .ok [.truncate inode initialSize finalSize ""] := by
  obtain ⟨total, rfl⟩ := Nat.exists_eq_add_of_le shrinks.le
  rw [fs.truncDiskOps_of_lt inode shrinks, Nat.add_sub_cancel_left,
    slices_of_oneSlice (by omega) one]
  rfl

/-- The first truncate of several comes from the last slice and has its
text. -/
theorem truncDiskOps_of_not_oneSlice (inode : Inode) (shrinks : finalSize < initialSize)
    (notOne : ¬ fs.OneSlice finalSize initialSize) : ∃ before size middle last,
      fs.truncDiskOps inode initialSize finalSize none "" =
          .ok (.truncate inode before size "" :: (middle ++ [last])) ∧ size ≠ finalSize := by
  obtain ⟨total, rfl⟩ := Nat.exists_eq_add_of_le shrinks.le
  obtain ⟨first, front, last, isSlices, isLast, behind⟩ := slices_of_not_oneSlice (by omega) notOne
  let row (slice : Slice) := swapSizes (fs.truncateSlice inode "" slice)
  refine ⟨last.stop, last.start, front.reverse.map row, row first, ?_, behind.ne'⟩
  have isRow : row last = .truncate inode last.stop last.start "" := by
    simp only [row, truncateSlice, swapSizes, semi, isLast, if_true, String.append_empty]
  rw [fs.truncDiskOps_of_lt inode shrinks, Nat.add_sub_cancel_left, reverse_truncateSlices,
    isSlices, List.reverse_cons, List.reverse_append, List.map_append, ← isRow]
  rfl

/-- The texts of a shrinking file are right if it is truncated at once. -/
theorem truthfulLabels_shrink_iff (fs : Defaultfs) (inode : Inode)
    (shrinks : finalSize < initialSize) :
    fs.TruthfulLabels (.trunc inode initialSize finalSize) inode initialSize finalSize ↔
      fs.OneSlice finalSize initialSize := by
  constructor
  · intro truthful
    by_contra notOne
    obtain ⟨before, size, middle, last, truncated, notFinal⟩ :=
      truncDiskOps_of_not_oneSlice inode shrinks notOne
    have expanded : fs.getDiskOps (.trunc inode initialSize finalSize) = _ := truncated
    exact not_truthfulLabels_of_truncate expanded rfl notFinal not_hasSemi.1 truthful
  · intro one
    exact truthfulLabels_of_truncate (truncDiskOps_of_oneSlice inode shrinks one)
      (fun _ member => absurd member List.not_mem_nil) not_hasSemi.1

theorem truthfulLabels_unlink_iff (fs : Defaultfs) (name : Path) (inode parent : Inode) {size : ℕ}
    (positive : 0 < size) : fs.TruthfulLabels (.unlink name inode parent size 1) inode size 0 ↔
      fs.OneSlice 0 size := by
  have expansion : ∀ {truncates}, fs.truncDiskOps inode size 0 none "" = .ok truncates →
        fs.getDiskOps (.unlink name inode parent size 1) =
          .ok (setLastAtomicity "fully truncated" truncates ++
            [.deleteDirEntry parent name inode .typeFile none]) := by
    intro truncates truncated
    simp only [getDiskOps, unlinkDiskOps, if_true, truncated, ok_bind]
    rfl
  constructor
  · intro truthful
    by_contra notOne
    obtain ⟨before, remaining, middle, last, truncated, notFinal⟩ :=
      truncDiskOps_of_not_oneSlice inode positive notOne
    have expanded := expansion truncated
    rw [setLastAtomicity, ← List.cons_append, List.modifyLast_concat] at expanded
    exact not_truthfulLabels_of_truncate expanded rfl notFinal not_hasSemi.1 truthful
  · intro one
    have expanded : fs.getDiskOps (.unlink name inode parent size 1) = .ok [.truncate inode size 0
      "fully truncated", .deleteDirEntry parent name inode .typeFile none] := expansion
      (truncDiskOps_of_oneSlice inode positive one)
    refine truthfulLabels_of_truncate expanded ?_ not_hasSemi.2.2.2
    rw [List.forall_mem_singleton]
    rfl

/-! ## All changes of size -/

/-- The texts are right if the file does not shrink or is truncated at
once. -/
theorem truthful_labels_iff
    (fs : Defaultfs) (kind : MicroOpKind) (file : Inode)
    (initialSize finalSize : ℕ)
    (change : kind.sizeChange? = some (file, initialSize, finalSize)) :
    fs.TruthfulLabels kind file initialSize finalSize ↔
      initialSize ≤ finalSize ∨ fs.OneSlice finalSize initialSize := by
  cases kind with
  | append range =>
    obtain ⟨rfl, rfl, rfl⟩ := change
    refine iff_of_true ?_ (.inl (Nat.le_add_right _ _))
    rcases Nat.eq_zero_or_pos range.count with none | positive
    · exact truthfulLabels_of_noRange (if_pos (by omega))
        fun _ member => absurd member List.not_mem_nil
    · exact (fs.fillsSlices_append positive).truthfulLabels (fs.hasSemi_appendSlice range)
  | trunc inode initialSize finalSize =>
    simp only [MicroOpKind.sizeChange?, Option.some.injEq, Prod.mk.injEq] at change
    obtain ⟨rfl, rfl, rfl⟩ := change
    rcases Nat.lt_trichotomy initialSize finalSize with
      grows | rfl | shrinks
    · refine iff_of_true ?_ (.inl grows.le)
      obtain ⟨total, rfl⟩ := Nat.exists_eq_add_of_le grows.le
      exact (fs.fillsSlices_grow inode initialSize
        (by omega)).truthfulLabels (fs.hasSemi_growSlice inode)
    · exact iff_of_true (truthfulLabels_of_noRange (fs.truncDiskOps_of_eq inode initialSize "")
          fun _ member => absurd member List.not_mem_nil) (.inl le_rfl)
    · rw [truthfulLabels_shrink_iff fs inode shrinks, or_iff_right (Nat.not_le.2 shrinks)]
  | unlink name inode parent size hardlinks =>
    simp only [MicroOpKind.sizeChange?] at change
    split_ifs at change with last
    simp only [Option.some.injEq, Prod.mk.injEq] at change
    obtain ⟨rfl, rfl, rfl⟩ := change
    obtain rfl := last
    rcases Nat.eq_zero_or_pos size with rfl | positive
    · have expanded : fs.getDiskOps (.unlink name inode parent 0 1) =
          .ok [.deleteDirEntry parent name inode .typeFile none] :=
        rfl
      refine iff_of_true (truthfulLabels_of_noRange expanded ?_) (.inl le_rfl)
      rw [List.forall_mem_singleton]
      rfl
    · rw [truthfulLabels_unlink_iff fs name inode parent positive,
        or_iff_right (Nat.not_le.2 positive)]
  | _ => cases change

/-- A file of ten bytes that loses its last link. -/
theorem truthful_labels_iff_unlink :
    Defaultfs.TruthfulLabels ⟨.aligned, 4, by decide, .unrounded⟩
        (.unlink [] 7 0 10 1) 7 10 0 ↔
      10 ≤ 0 ∨
        Defaultfs.OneSlice ⟨.aligned, 4, by decide, .unrounded⟩ 0 10 :=
  truthful_labels_iff _ _ 7 10 0 rfl

/-- A file of eight bytes that becomes empty, cut at multiples of four. -/
theorem halved_file_mislabelled :
    ¬ Defaultfs.TruthfulLabels ⟨.aligned, 4, by decide, .unrounded⟩
      (.trunc 7 8 0) 7 8 0 := by
  rw [truthfulLabels_shrink_iff _ _ (by decide)]
  intro one
  exact absurd (one 1 (by decide)) (by decide)

end Defaultfs

end Alice
