import Alice.DefaultFs.Completion
import Alice.Posix.Calls

/-! # The branch of the write family

A write is divided at the end of the file into an overwritten and an appended
part.  The inode of the operations comes from the descriptor, while the size
is looked up, and set, by the name that the descriptor was opened by. -/

namespace Alice

open Checked Scratchpad ParserState
open Posix (Ino Path Bytes)

theorem assertThat_eq_ok_iff {condition : Prop} [Decidable condition] :
    assertThat condition = .ok () ↔ condition := by
  unfold assertThat
  by_cases holds : condition <;> simp [holds]

/-! ## Sizes of the scratchpad -/

namespace Scratchpad

def sizeOf? (pad : Scratchpad) (ino : Ino) : Option ℕ :=
  (pad.tree.content ino).map List.length

variable {pad : Scratchpad} {ino : Ino} {bytes : Bytes} {dirStat : DirStat} {stat : Stat}
  {path : Path}

theorem sizeOf?_of_content (isFile : pad.tree.content ino = some bytes) :
    pad.sizeOf? ino = some bytes.length := by
  rw [sizeOf?, isFile]
  rfl

theorem statInode_of_content (isFile : pad.tree.content ino = some bytes) :
    pad.statInode dirStat ino = some ⟨ino, bytes.length, pad.links ino, false⟩ := by
  rw [Posix.Tree.content_eq_some_iff] at isFile
  simp [statInode, isFile]

theorem ino_of_statInode (found : pad.statInode dirStat ino = some stat) : stat.ino = ino := by
  unfold statInode at found
  split at found <;> cases found <;> rfl

theorem resolve_of_replayedStat (found : pad.replayedStat dirStat path = some stat) :
    pad.tree.resolve path = some stat.ino ∧ pad.statInode dirStat stat.ino = some stat := by
  rcases Option.bind_eq_some_iff.1 found with ⟨ino, resolved, found⟩
  have equal := ino_of_statInode found
  subst equal
  exact ⟨resolved, found⟩

/-- Anything but a directory is a file of the size that `stat` tells. -/
theorem content_of_statInode (found : pad.statInode dirStat stat.ino = some stat)
    (notDir : stat.isDir = false) : ∃ bytes, pad.tree.content stat.ino = some bytes ∧
      bytes.length = stat.size := by
  unfold statInode at found
  split at found
  · rename_i bytes isFile
    refine ⟨bytes, Posix.Tree.content_eq_some_iff.2 isFile, ?_⟩
    exact congrArg Stat.size (Option.some.inj found)
  · have isDir := congrArg Stat.isDir (Option.some.inj found)
    rw [notDir] at isDir
    cases isDir
  · cases found

theorem content_eq_none_of_statInode (found : pad.statInode dirStat stat.ino = some stat)
    (isDir : stat.isDir = true) : pad.tree.content stat.ino = none := by
  cases content : pad.tree.content stat.ino with
  | none => rfl
  | some bytes =>
    rw [statInode_of_content content] at found
    have notDir := congrArg Stat.isDir (Option.some.inj found)
    rw [isDir] at notDir
    cases notDir

theorem replayedTruncate_of_content (resolved : pad.tree.resolve path = some ino)
    (isFile : pad.tree.content ino = some bytes) (newSize : ℕ) : pad.replayedTruncate path newSize =
      .ok { pad with
        tree := pad.tree.setNode ino (.file (FileContent.ftruncate bytes newSize)) } := by
  simp only [replayedTruncate, osCall, Posix.Tree.modify_resolve resolved isFile]

theorem replayedTruncate_of_directory (resolved : pad.tree.resolve path = some ino)
    (notFile : pad.tree.content ino = none) (newSize : ℕ) :
    pad.replayedTruncate path newSize = .error (.osError .eisdir) := by
  simp only [replayedTruncate, osCall, Posix.Tree.modify, resolved, notFile]

end Scratchpad

/-! ## The split -/

def overwriteSize (pos count size : ℕ) : ℕ :=
  if pos < size then
    if pos + count < size then count else size - pos
  else
    0

/-- The `file_sync_range` that follows a write through a descriptor with
`O_SYNC`. -/
def syncedRange (details : FdDetails) (offset count : ℕ) : List MicroOpKind :=
  if FdAttrib.oSync ∈ details.attribs then
    [.fileSyncRange details.inode offset count]
  else
    []

def overwriteOps (details : FdDetails) (dump : Dump) (pos count size : ℕ) : List MicroOpKind :=
  if pos < size then
    [.write ⟨details.inode, pos, overwriteSize pos count size, dump.file,
        dump.offset⟩] ++
      syncedRange details pos (overwriteSize pos count size)
  else
    []

/-- The operation that fills a gap behind the end of the file. -/
def gapOps (details : FdDetails) (pos size : ℕ) : List MicroOpKind :=
  if size < pos then [.trunc details.inode size pos] else []

def appendOps (details : FdDetails) (dump : Dump) (pos count size : ℕ) : List MicroOpKind :=
  if max size pos < pos + count then
    [.append ⟨details.inode, pos, count, dump.file, dump.offset⟩] ++ syncedRange details pos count
  else
    []

/-- The operations of a write at `pos` to a file of the given size. -/
def splitOps (details : FdDetails) (dump : Dump) (pos count size : ℕ) : List MicroOpKind :=
  let overwritten := overwriteSize pos count size
  overwriteOps details dump pos count size ++
    gapOps details (pos + overwritten) size ++
      appendOps details ⟨dump.file, dump.offset + overwritten⟩
        (pos + overwritten) (count - overwritten) size

namespace ParserState

def growFile (env : ParserEnv) (state : ParserState) (name : Path)
    (pos count size : ℕ) : Except PyError ParserState :=
  let start := pos + overwriteSize pos count size
  (if size < start then state.replayedTruncate env name size
    else .ok state) >>= fun filled =>
      if max size start < pos + count then
        filled.replayedTruncate env name (pos + count)
      else
        .ok filled

def movePos (state : ParserState) (fd : ℤ) (position : Option ℕ) (pos : ℕ) :
    Except PyError ParserState :=
  match position with
  | some _ => .ok state
  | none => (state.tracker.fdtracker.setPos fd pos).map state.withFds

theorem movePos_pair (state : ParserState) (fd : ℤ) (position : Option ℕ) (pos : ℕ)
    (ops : List MicroOpKind) : (match position with
      | some _ =>
        (pure (state.withFds state.tracker.fdtracker, ops) : Emission)
      | none => do
          let fds ← state.tracker.fdtracker.setPos fd pos
          pure (state.withFds fds, ops)) =
      (state.movePos fd position pos >>= fun moved => pure (moved, ops)) := by
  cases position with
  | some _ => rfl
  | none =>
    simp only [movePos]
    cases state.tracker.fdtracker.setPos fd pos <;> rfl

variable {env : ParserEnv} {state : ParserState} {fd : ℤ} {count size : ℕ} {name : Path} {ino : Ino}

theorem writeBranch_of_alias (aliased : (fd, 1) ∈ state.myTracker) (line : Line)
    (thirdArg count : ℕ) (position : Option ℕ) (dump : Dump) :
    state.writeBranch env line fd thirdArg count position dump =
      (readDump env dump thirdArg).map fun data =>
        (state, [.stdout data]) := by
  rw [writeBranch, if_pos aliased]
  cases readDump env dump thirdArg <;> rfl

theorem writeBranch_of_unwatched (notAlias : (fd, 1) ∉ state.myTracker)
    (unwatched : state.tracker.fdtracker.isWatched fd = false) (line : Line) (thirdArg count : ℕ)
    (position : Option ℕ) (dump : Dump) :
    state.writeBranch env line fd thirdArg count position dump = .ok (state, []) := by
  rw [writeBranch, if_neg notAlias, if_neg (by simp [unwatched])]
  rfl

theorem isWatched_of_details {fds : FileDescriptorTracker} {details : FdDetails}
    (found : fds.details fd = .ok details) : fds.isWatched fd = true := by
  unfold FileDescriptorTracker.details at found
  unfold FileDescriptorTracker.isWatched
  cases lookup : fds.fds.lookup fd with
  | none =>
    rw [lookup] at found
    cases found
  | some i => rfl

theorem overwriteSize_le (pos count size : ℕ) : overwriteSize pos count size ≤ count := by
  unfold overwriteSize
  split_ifs <;> omega

theorem add_overwriteSize (pos count size : ℕ) : pos + overwriteSize pos count size +
      (count - overwriteSize pos count size) = pos + count := by
  have bounded := overwriteSize_le pos count size
  omega

/-- The exact result for a watched descriptor. -/
theorem writeBranch_of_watched {details : FdDetails} (notAlias : (fd, 1) ∉ state.myTracker)
    (found : state.tracker.fdtracker.details fd = .ok details) (line : Line) (thirdArg count : ℕ)
    (position : Option ℕ) (dump : Dump) :
    state.writeBranch env line fd thirdArg count position dump = (do
      assertThat (line.ret = count)
      let stat ← state.stat env details.name
      let pos := position.getD details.pos
      assertThat (pos < stat.size → 0 < overwriteSize pos count stat.size)
      let grown ← state.growFile env details.name pos count stat.size
      let moved ← grown.movePos fd position (pos + count)
      pure (moved, splitOps details dump pos count stat.size)) := by
  have watched := isWatched_of_details found
  simp only [writeBranch, if_neg notAlias, watched, if_true, found, ok_bind]
  congr 1
  funext _
  cases statEq : state.stat env details.name with
  | error error => rfl
  | ok stat =>
    simp only [ok_bind]
    congr 1
    funext _
    generalize position.getD details.pos = pos
    have fold : (if pos < stat.size then
        if pos + count < stat.size then count else stat.size - pos
      else 0) = overwriteSize pos count stat.size := rfl
    have total := add_overwriteSize pos count stat.size
    simp only [fold, growFile, splitOps, overwriteOps, gapOps, appendOps, syncedRange]
    generalize overwriteSize pos count stat.size = width at total ⊢
    rw [total]
    by_cases gap : stat.size < pos + width
    · simp only [gap, if_true]
      cases state.replayedTruncate env details.name stat.size with
      | error error => rfl
      | ok filled =>
        by_cases tail : max stat.size (pos + width) < pos + count
        · simp only [tail, if_true, ok_bind, pure_bind]
          cases filled.replayedTruncate env details.name (pos + count)
          · rfl
          · exact movePos_pair _ fd position (pos + count) _
        · simp only [tail, if_false, ok_bind]
          exact movePos_pair filled fd position (pos + count) _
    · simp only [gap, if_false, pure_bind, ok_bind]
      by_cases tail : max stat.size (pos + width) < pos + count
      · simp only [tail, if_true]
        cases state.replayedTruncate env details.name (pos + count)
        · rfl
        · exact movePos_pair _ fd position (pos + count) _
      · simp only [tail, if_false]
        exact movePos_pair state fd position (pos + count) _

/-! ## Growing the file -/

theorem growFile_within (env : ParserEnv) (state : ParserState) (name : Path) {pos : ℕ}
    (within : pos + count ≤ size) : state.growFile env name pos count size = .ok state := by
  have bounded := overwriteSize_le pos count size
  have noGap : ¬ size < pos + overwriteSize pos count size := by omega
  have noTail : ¬ max size (pos + overwriteSize pos count size) < pos + count := by omega
  simp only [growFile, if_neg noGap, ok_bind, if_neg noTail]

section

variable (resolved : state.pad.tree.resolve (env.replayedPath name) = some ino)
include resolved

theorem replayedTruncate_same {bytes : Bytes} (isFile : state.pad.tree.content ino = some bytes) :
    state.replayedTruncate env name bytes.length = .ok state := by
  have unchanged : state.pad.tree.setNode ino (.file bytes) = state.pad.tree := by
    have node := Posix.Tree.content_eq_some_iff.1 isFile
    simp only [Posix.Tree.setNode, ← node, Function.update_eq_self]
  rw [replayedTruncate, replayedTruncate_of_content resolved
    isFile, FileContent.ftruncate_length, unchanged]
  rfl

/-- A file is given its new size in one go, and only if a byte is written
behind its end. -/
theorem growFile_of_file {bytes : Bytes} (isFile : state.pad.tree.content ino = some bytes)
    (pos count : ℕ) : state.growFile env name pos count bytes.length =
      if 0 < count ∧ bytes.length < pos + count then
        state.replayedTruncate env name (pos + count)
      else
        .ok state := by
  have filled : (if bytes.length < pos + overwriteSize pos count bytes.length then
        state.replayedTruncate env name bytes.length
      else .ok state) = .ok state := by
    split_ifs
    · exact replayedTruncate_same resolved isFile
    · rfl
  have tail : max bytes.length (pos + overwriteSize pos count bytes.length) <
      pos + count ↔ 0 < count ∧ bytes.length < pos + count := by
    unfold overwriteSize
    split_ifs <;> omega
  simp only [growFile, filled, ok_bind, tail]

theorem growFile_of_directory (notFile : state.pad.tree.content ino = none) {pos : ℕ}
    (beyond : size < pos + count) : state.growFile env name pos count size =
      .error (.osError .eisdir) := by
  have fails : ∀ newSize, state.replayedTruncate env name newSize = .error (.osError .eisdir) := by
    intro newSize
    rw [replayedTruncate, replayedTruncate_of_directory resolved notFile]
    rfl
  have grows : size < pos + overwriteSize pos count size ∨
      max size (pos + overwriteSize pos count size) < pos + count := by
    unfold overwriteSize
    split_ifs <;> omega
  simp only [growFile, fails]
  by_cases gap : size < pos + overwriteSize pos count size
  · rw [if_pos gap, error_bind]
  · rw [if_neg gap, ok_bind, if_pos (grows.resolve_left gap), fails]

end

section

variable {env : ParserEnv} {state : ParserState} {name : Path} {stat : Stat}
  {pos count : ℕ}

/-- Only a directory that is to grow makes it fail. -/
theorem growFile_returns_iff (statEq : state.stat? env name = some stat) :
    (∃ grown, state.growFile env name pos count stat.size = .ok grown) ↔
      stat.isDir = false ∨ pos + count ≤ stat.size := by
  rcases resolve_of_replayedStat statEq with ⟨resolved, found⟩
  by_cases within : pos + count ≤ stat.size
  · rw [growFile_within env state name within]
    simp [within]
  · cases isDir : stat.isDir with
    | true =>
      have notFile := content_eq_none_of_statInode found isDir
      rw [growFile_of_directory resolved notFile (not_le.1 within)]
      simp [within]
    | false =>
      rcases content_of_statInode found isDir with
        ⟨bytes, isFile, sizeEq⟩
      rw [← sizeEq, growFile_of_file resolved isFile]
      split_ifs
      · rw [replayedTruncate, replayedTruncate_of_content resolved isFile]
        exact iff_of_true ⟨_, rfl⟩ (Or.inl rfl)
      · simp

theorem sizeOf?_growFile {grown : ParserState} (statEq : state.stat? env name = some stat)
    (nonempty : 0 < count) (ran : state.growFile env name pos count stat.size = .ok grown)
    (ino : Ino) : grown.pad.sizeOf? ino =
      if ino = stat.ino ∧ stat.size < pos + count then
        some (pos + count)
      else
        state.pad.sizeOf? ino := by
  by_cases within : pos + count ≤ stat.size
  · rw [growFile_within env state name within] at ran
    cases ran
    simp [within]
  · rcases resolve_of_replayedStat statEq with ⟨resolved, found⟩
    have notDir : stat.isDir = false :=
      ((growFile_returns_iff statEq).1 ⟨grown, ran⟩).resolve_right within
    rcases content_of_statInode found notDir with
      ⟨bytes, isFile, sizeEq⟩
    have beyond := not_le.1 within
    rw [← sizeEq] at ran beyond ⊢
    rw [growFile_of_file resolved isFile, if_pos ⟨nonempty, beyond⟩, replayedTruncate,
      replayedTruncate_of_content resolved isFile] at ran
    cases ran
    simp only [Scratchpad.sizeOf?, Posix.Tree.content_setNode_file, beyond, and_true]
    split_ifs
    · simp
    · rfl

end

theorem movePos_pad {moved : ParserState} {position : Option ℕ} {pos : ℕ}
    (ran : state.movePos fd position pos = .ok moved) : moved.pad = state.pad := by
  cases position with
  | some _ =>
    cases ran
    rfl
  | none =>
    rcases map_eq_ok_iff.1 ran with ⟨fds, -, equal⟩
    rw [← equal]
    rfl

theorem movePos_of_watched (watched : state.tracker.fdtracker.isWatched fd = true)
    (position : Option ℕ) (pos : ℕ) : ∃ moved, state.movePos fd position pos = .ok moved := by
  cases position with
  | some _ => exact ⟨_, rfl⟩
  | none =>
    unfold movePos FileDescriptorTracker.setPos
    cases lookup : state.tracker.fdtracker.fds.lookup fd with
    | none => simp [FileDescriptorTracker.isWatched, lookup] at watched
    | some i => exact ⟨_, rfl⟩

theorem replayedTruncate_tracker {after : ParserState} {newSize : ℕ}
    (ran : state.replayedTruncate env name newSize = .ok after) :
    after.tracker = state.tracker := by
  rcases map_eq_ok_iff.1 ran with ⟨pad, -, equal⟩
  rw [← equal]

theorem growFile_tracker {after : ParserState} {pos : ℕ}
    (ran : state.growFile env name pos count size = .ok after) : after.tracker = state.tracker := by
  rcases bind_eq_ok_iff.1 ran with ⟨filled, first, ran⟩
  have firstTracker : filled.tracker = state.tracker := by
    split_ifs at first
    · exact replayedTruncate_tracker first
    · cases first
      rfl
  split_ifs at ran
  · rw [replayedTruncate_tracker ran, firstTracker]
  · cases ran
    exact firstTracker

end ParserState

/-! ## What the operations of a split are -/

/-- An operation on the data of the given inode. -/
def MicroOpKind.OnData (inode : Inode) : MicroOpKind → Prop
  | .write range | .append range => range.inode = inode
  | .trunc target _ _ => target = inode
  | .fileSyncRange target _ _ => target = inode
  | _ => False

variable {count size : ℕ}

theorem onData_of_mem_splitOps {details : FdDetails} {dump : Dump} {pos : ℕ} {op : MicroOpKind}
    (member : op ∈ splitOps details dump pos count size) : op.OnData details.inode := by
  simp only [splitOps, overwriteOps, gapOps, appendOps, syncedRange] at member
  grind [MicroOpKind.OnData]

section

variable (details : FdDetails) (dump : Dump)
include details dump

theorem splitOps_within {pos : ℕ} (nonempty : 0 < count) (within : pos + count ≤ size)
    : splitOps details dump pos count size =
      [.write ⟨details.inode, pos, count, dump.file, dump.offset⟩] ++
        syncedRange details pos count := by
  have overwritten : overwriteSize pos count size = count := by
    unfold overwriteSize
    split_ifs <;> omega
  have starts : pos < size := by omega
  have noGap : ¬ size < pos + count := by omega
  have noTail : ¬ max size (pos + count) < pos + count + (count - count) := by omega
  simp only [splitOps, overwriteOps, gapOps, appendOps, overwritten,
    if_pos starts, if_neg noGap, if_neg noTail, List.append_nil]

theorem exists_append_mem_splitOps {pos : ℕ} (nonempty : 0 < count) (beyond : size < pos + count) :
    ∃ range, .append range ∈ splitOps details dump pos count size := by
  have tail : max size (pos + overwriteSize pos count size) < pos + overwriteSize pos count size +
        (count - overwriteSize pos count size) := by
    unfold overwriteSize
    split_ifs <;> omega
  simp only [splitOps, appendOps, if_pos tail]
  exact ⟨_, List.mem_append_right _ (List.mem_append_left _ (List.mem_singleton.2 rfl))⟩

theorem splitOps_at_end (count size : ℕ) :
    splitOps details dump size count size =
      if count = 0 then
        []
      else
        [.append ⟨details.inode, size, count, dump.file, dump.offset⟩] ++
          syncedRange details size count := by
  have nothing : overwriteSize size count size = 0 := by simp [overwriteSize]
  by_cases empty : count = 0
  · subst empty
    simp [splitOps, overwriteOps, gapOps, appendOps, nothing]
  · simp [splitOps, overwriteOps, gapOps, appendOps, nothing, empty, Nat.pos_of_ne_zero empty]

theorem splitOps_of_lt {pos : ℕ} (count : ℕ) (starts : pos < size) : ∃ range rest,
      splitOps details dump pos count size = .write range :: rest := by
  simp only [splitOps, overwriteOps, if_pos starts, List.append_assoc]
  exact ⟨_, _, rfl⟩

theorem splitOps_of_gt {pos : ℕ} (count : ℕ) (beyond : size < pos)
    : ∃ rest, splitOps details dump pos count size =
      .trunc details.inode size pos :: rest := by
  have notBefore : ¬ pos < size := by omega
  have nothing : overwriteSize pos count size = 0 := by simp [overwriteSize, notBefore]
  simp only [splitOps, overwriteOps, gapOps, nothing, if_neg notBefore,
    Nat.add_zero, if_pos beyond, List.nil_append]
  exact ⟨_, rfl⟩

end

/-! ## Calls of the write family -/

/-- The arguments of a call of the write family. -/
structure WriteArgs where
  fd : ℤ
  /-- `args[2]`. -/
  thirdArg : ℕ
  count : ℕ
  /-- The position, if it is an argument. -/
  position : Option ℕ
  dump : Dump

def Call.writeArgs? : Call → Option WriteArgs
  | .write fd count dump => some ⟨fd, count, count, none, dump⟩
  | .writev fd iovcnt count dump => some ⟨fd, iovcnt, count, none, dump⟩
  | .pwrite fd count pos dump => some ⟨fd, count, count, some pos, dump⟩
  | .pwritev fd iovcnt pos count dump =>
      some ⟨fd, iovcnt, count, some pos, dump⟩
  | _ => none

theorem emit_of_writeArgs {env : ParserEnv} {state : ParserState} {line : Line} {args : WriteArgs}
    (isWrite : line.call.writeArgs? = some args) : emit env state line =
      state.writeBranch env line args.fd args.thirdArg args.count args.position args.dump := by
  unfold emit
  cases call : line.call with
  | write | writev | pwrite | pwritev =>
    rw [call] at isWrite
    cases isWrite
    rfl
  | _ =>
    rw [call] at isWrite
    cases isWrite

/-- Where a call through a descriptor begins to write. -/
def WriteArgs.pos (args : WriteArgs) (details : FdDetails) : ℕ :=
  args.position.getD details.pos

section

variable {env : ParserEnv} {state : ParserState} {line : Line}
  {args : WriteArgs} {details : FdDetails}

/-- What has happened when a write to a watched descriptor has been
translated. -/
structure Written (env : ParserEnv) (state : ParserState) (line : Line)
    (args : WriteArgs) (details : FdDetails) (after : ParserState)
    (ops : List MicroOpKind) (stat : Stat) : Prop where
  ret_eq : line.ret = args.count
  stat_eq : state.stat? env details.name = some stat
  overwrites : args.pos details < stat.size →
    0 < overwriteSize (args.pos details) args.count stat.size
  ops_eq : ops = splitOps details args.dump (args.pos details) args.count stat.size
  moves : ∃ grown,
    state.growFile env details.name (args.pos details) args.count
      stat.size = .ok grown ∧
    grown.movePos args.fd args.position
      (args.pos details + args.count) = .ok after

variable {stat : Stat} {after : ParserState} {ops : List MicroOpKind}

theorem stat_eq_ok_iff {path : Path} :
    state.stat env path = .ok stat ↔ state.stat? env path = some stat := by
  unfold ParserState.stat
  cases state.stat? env path <;> simp

section

variable (isWrite : line.call.writeArgs? = some args)
include isWrite

theorem emit_write_eq_ok_iff (notAlias : (args.fd, 1) ∉ state.myTracker)
    (watched : state.tracker.fdtracker.details args.fd = .ok details) (after : ParserState)
    (ops : List MicroOpKind) : emit env state line = .ok (after, ops) ↔
      ∃ stat, Written env state line args details after ops stat := by
  rw [emit_of_writeArgs isWrite, writeBranch_of_watched notAlias watched]
  constructor
  · intro ran
    rcases bind_eq_ok_iff.1 ran with ⟨⟨⟩, returned, ran⟩
    rcases bind_eq_ok_iff.1 ran with ⟨stat, statEq, ran⟩
    rcases bind_eq_ok_iff.1 ran with ⟨⟨⟩, positive, ran⟩
    rcases bind_eq_ok_iff.1 ran with ⟨grown, growth, ran⟩
    rcases bind_eq_ok_iff.1 ran with ⟨moved, movement, ran⟩
    cases ran
    exact ⟨stat, assertThat_eq_ok_iff.1 returned, stat_eq_ok_iff.1 statEq,
      assertThat_eq_ok_iff.1 positive, rfl, grown, growth, movement⟩
  · intro returns
    rcases returns with ⟨stat, written⟩
    rcases written.moves with ⟨grown, growth, movement⟩
    rw [written.ops_eq]
    apply bind_eq_ok_iff.2 ⟨(), assertThat_eq_ok_iff.2 written.ret_eq, _⟩
    apply bind_eq_ok_iff.2 ⟨stat, stat_eq_ok_iff.2 written.stat_eq, _⟩
    apply bind_eq_ok_iff.2 ⟨(), assertThat_eq_ok_iff.2 written.overwrites, _⟩
    apply bind_eq_ok_iff.2 ⟨grown, growth, _⟩
    exact bind_eq_ok_iff.2 ⟨after, movement, rfl⟩

/-- A write is taken for terminal output, or goes to a descriptor that is not
watched, or changes a file. -/
theorem emit_write_cases (ran : emit env state line = .ok (after, ops)) :
    ((args.fd, 1) ∈ state.myTracker ∧ after = state ∧ ∃ data, ops = [.stdout data]) ∨
      (state.tracker.fdtracker.isWatched args.fd = false ∧ after = state ∧ ops = []) ∨
      ∃ details stat, (args.fd, 1) ∉ state.myTracker ∧
        state.tracker.fdtracker.details args.fd = .ok details ∧
        Written env state line args details after ops stat := by
  by_cases aliased : (args.fd, 1) ∈ state.myTracker
  · left
    rw [emit_of_writeArgs isWrite, writeBranch_of_alias aliased] at ran
    rcases map_eq_ok_iff.1 ran with ⟨data, -, equal⟩
    cases equal
    exact ⟨aliased, rfl, data, rfl⟩
  · right
    cases watched : state.tracker.fdtracker.isWatched args.fd with
    | false =>
      left
      rw [emit_of_writeArgs isWrite, writeBranch_of_unwatched aliased watched] at ran
      cases ran
      exact ⟨rfl, rfl, rfl⟩
    | true =>
      right
      cases found : state.tracker.fdtracker.details args.fd with
      | error error =>
        rw [emit_of_writeArgs isWrite] at ran
        simp only [ParserState.writeBranch, if_neg aliased, watched,
          if_true, found, error_bind] at ran
        cases ran
      | ok details =>
        rcases (emit_write_eq_ok_iff isWrite aliased found after ops).1 ran with ⟨stat, written⟩
        exact ⟨details, stat, aliased, rfl, written⟩

/-- A write that is taken for terminal output yields no operation on
data. -/
theorem ops_of_alias (aliased : (args.fd, 1) ∈ state.myTracker)
    (ran : emit env state line = .ok (after, ops)) : ∃ data, ops = [.stdout data] := by
  rw [emit_of_writeArgs isWrite, writeBranch_of_alias aliased] at ran
  rcases map_eq_ok_iff.1 ran with ⟨data, -, equal⟩
  cases equal
  exact ⟨data, rfl⟩

theorem not_alias_of_onData {inode : Inode} (ran : emit env state line = .ok (after, ops))
    (onData : ∀ op ∈ ops, op.OnData inode) : (args.fd, 1) ∉ state.myTracker := by
  intro aliased
  rcases ops_of_alias isWrite aliased ran with ⟨data, terminal⟩
  rw [terminal] at onData
  exact onData _ (List.mem_singleton_self _)

end

theorem exists_written (watched : state.tracker.fdtracker.details args.fd = .ok details)
    (returned : line.ret = args.count) (statEq : state.stat? env details.name = some stat)
    (grows : stat.isDir = false ∨ args.pos details + args.count ≤ stat.size)
    (reaches : 0 < args.count ∨ stat.size ≤ args.pos details) :
    ∃ after, Written env state line args details after
      (splitOps details args.dump (args.pos details) args.count stat.size)
      stat := by
  rcases (growFile_returns_iff statEq).2 grows with
    ⟨grown, growth⟩
  have stillWatched : grown.tracker.fdtracker.isWatched args.fd = true := by
    rw [growFile_tracker growth]
    exact isWatched_of_details watched
  rcases movePos_of_watched stillWatched args.position
    (args.pos details + args.count) with ⟨after, movement⟩
  refine ⟨after, returned, statEq, ?_, rfl, grown, growth, movement⟩
  unfold overwriteSize
  split_ifs <;> omega

section

variable (written : Written env state line args details after ops stat) (nonempty : 0 < args.count)
include written nonempty

theorem Written.sizeOf? (ino : Ino) : after.pad.sizeOf? ino =
      if ino = stat.ino ∧ stat.size < args.pos details + args.count then
        some (args.pos details + args.count)
      else
        state.pad.sizeOf? ino := by
  rcases written.moves with ⟨grown, growth, movement⟩
  rw [movePos_pad movement, sizeOf?_growFile written.stat_eq nonempty growth]

/-! ## The inode of the descriptor -/

/-- If the name leads elsewhere, what it leads to is grown unless it is large
enough. -/
theorem Written.within_of_kept (kept : after.pad.sizeOf? stat.ino = state.pad.sizeOf? stat.ino) :
    args.pos details + args.count ≤ stat.size := by
  by_contra beyond
  rcases written.moves with ⟨grown, growth, -⟩
  have notDir : stat.isDir = false := ((growFile_returns_iff written.stat_eq).1
      ⟨grown, growth⟩).resolve_right beyond
  rcases content_of_statInode (resolve_of_replayedStat written.stat_eq).2 notDir with
    ⟨foreign, foreignFile, foreignSize⟩
  rw [written.sizeOf? nonempty, if_pos ⟨rfl, not_le.1 beyond⟩,
    Scratchpad.sizeOf?, foreignFile] at kept
  have sizes := Option.some.inj kept
  omega

/-- Nothing grows if what the name leads to is large enough. -/
theorem Written.sizeOf?_of_within (within : args.pos details + args.count ≤ stat.size) (ino : Ino) :
    after.pad.sizeOf? ino = state.pad.sizeOf? ino := by
  rw [written.sizeOf? nonempty, if_neg (by omega)]

end

/-- A write is divided at the end of the file if the name still leads to
it. -/
theorem emit_write_of_sameInode {bytes : Bytes} (isWrite : line.call.writeArgs? = some args)
    (notAlias : (args.fd, 1) ∉ state.myTracker)
    (watched : state.tracker.fdtracker.details args.fd = .ok details) (nonempty : 0 < args.count)
    (isFile : state.pad.tree.content details.inode = some bytes)
    (returned : line.ret = args.count) (statEq : state.stat? env details.name = some stat)
    (same : stat.ino = details.inode) : ∃ after ops, emit env state line = .ok (after, ops) ∧
      ops = splitOps details args.dump (args.pos details) args.count bytes.length ∧
      after.pad.sizeOf? details.inode = some (max bytes.length (args.pos details + args.count)) ∧
      ∀ other, other ≠ details.inode → after.pad.sizeOf? other = state.pad.sizeOf? other := by
  have found := (resolve_of_replayedStat statEq).2
  rw [same, statInode_of_content isFile] at found
  have statIs := Option.some.inj found
  subst statIs
  rcases exists_written watched returned statEq (Or.inl rfl) (Or.inl nonempty) with ⟨after, written⟩
  refine ⟨after, _, (emit_write_eq_ok_iff isWrite notAlias watched
    after _).2 ⟨_, written⟩, rfl, ?_, ?_⟩
  · rw [written.sizeOf? nonempty, sizeOf?_of_content isFile]
    split_ifs with grows
    · rw [max_eq_right (le_of_lt grows.2)]
    · rw [max_eq_left (by simpa using grows)]
  · intro other different
    rw [written.sizeOf? nonempty, if_neg]
    intro both
    exact different both.1

/-- For a write of at least one byte through a watched descriptor of a file:
the call is translated, divided at the end of this file, and changes the size
of this file alone, exactly if the descriptor is not taken for the terminal,
every byte is written, and the name that the file was opened by still leads
to it.  Otherwise the name has to lead to something else that has all the
written positions, as the file itself does. -/
theorem write_on_own_inode_iff
    {bytes : Bytes}
    (isWrite : line.call.writeArgs? = some args)
    (watched : state.tracker.fdtracker.details args.fd = .ok details)
    (nonempty : 0 < args.count)
    (isFile : state.pad.tree.content details.inode = some bytes) :
    (∃ after ops,
      emit env state line = .ok (after, ops) ∧
      ops = splitOps details args.dump (args.pos details) args.count
        bytes.length ∧
      after.pad.sizeOf? details.inode =
        some (max bytes.length (args.pos details + args.count)) ∧
      ∀ other, other ≠ details.inode →
        after.pad.sizeOf? other = state.pad.sizeOf? other) ↔
      (args.fd, 1) ∉ state.myTracker ∧ line.ret = args.count ∧
        ∃ stat, state.stat? env details.name = some stat ∧
          (stat.ino = details.inode ∨
            args.pos details + args.count ≤ bytes.length ∧
              args.pos details + args.count ≤ stat.size) := by
  have sizeBefore := sizeOf?_of_content isFile
  constructor
  · intro translated
    rcases translated with ⟨after, ops, ran, opsEq, ownSize, otherSizes⟩
    have notAlias : (args.fd, 1) ∉ state.myTracker := by
      apply not_alias_of_onData isWrite ran
      intro op member
      rw [opsEq] at member
      exact onData_of_mem_splitOps member
    rcases (emit_write_eq_ok_iff isWrite notAlias watched after ops).1 ran with ⟨stat, written⟩
    refine ⟨notAlias, written.ret_eq, stat, written.stat_eq, ?_⟩
    by_cases same : stat.ino = details.inode
    · exact Or.inl same
    · have within := written.within_of_kept nonempty (otherSizes stat.ino same)
      rw [written.sizeOf?_of_within nonempty within, sizeBefore, Option.some.injEq] at ownSize
      have own : args.pos details + args.count ≤ bytes.length := by
        omega
      exact Or.inr ⟨own, within⟩
  · intro condition
    rcases condition with ⟨notAlias, returned, stat, statEq, agrees⟩
    rcases agrees with same | ⟨own, within⟩
    · exact emit_write_of_sameInode isWrite notAlias watched nonempty isFile returned statEq same
    · rcases exists_written watched returned statEq
        (Or.inr within) (Or.inl nonempty) with ⟨after, written⟩
      refine ⟨after, _, (emit_write_eq_ok_iff isWrite notAlias watched
        after _).2 ⟨_, written⟩, ?_, ?_, ?_⟩
      · rw [splitOps_within details args.dump nonempty within,
          splitOps_within details args.dump nonempty own]
      · rw [written.sizeOf?_of_within nonempty within, sizeBefore, max_eq_left own]
      · intro other _
        exact written.sizeOf?_of_within nonempty within other

end

/-- A new file is opened, renamed, and written to. -/
def renamedWrite : List Line :=
  [⟨.openFile ["workload", "log"] [.oCreat, .oWronly] (some "0666"), 3, 12,
      ""⟩,
    ⟨.rename ["workload", "log"] ["workload", "old"], 0, 0, ""⟩,
    ⟨.write 3 2 ⟨"dump", 0⟩, 2, 0, ""⟩]

theorem write_on_own_inode_iff_opened :
    ∃ opened ops,
      emit workloadEnv (.init emptyScratchpad)
        ⟨.openFile ["workload", "log"] [.oCreat, .oWronly] (some "0666"), 3,
          12, ""⟩ = .ok (opened, ops) ∧
      ((∃ after ops,
        emit workloadEnv opened ⟨.write 3 2 ⟨"dump", 0⟩, 2, 0, ""⟩ =
          .ok (after, ops) ∧
        ops = splitOps ⟨["workload", "log"], 0, [], 12⟩ ⟨"dump", 0⟩ 0 2 0 ∧
        after.pad.sizeOf? 12 = some (max 0 (0 + 2)) ∧
        ∀ other, other ≠ 12 →
          after.pad.sizeOf? other = opened.pad.sizeOf? other) ↔
        (3, 1) ∉ opened.myTracker ∧ (2 : ℤ) = (2 : ℕ) ∧
          ∃ stat, opened.stat? workloadEnv ["workload", "log"] =
              some stat ∧
            (stat.ino = 12 ∨ 0 + 2 ≤ 0 ∧ 0 + 2 ≤ stat.size)) :=
  ⟨_, _, rfl, @write_on_own_inode_iff workloadEnv _
    ⟨.write 3 2 ⟨"dump", 0⟩, 2, 0, ""⟩ ⟨3, 2, 2, none, ⟨"dump", 0⟩⟩
    ⟨["workload", "log"], 0, [], 12⟩ [] rfl rfl (by decide) rfl⟩

/-- The size is looked up by the name that the file does not have any
more. -/
theorem renamedWrite_raises :
    (∃ ops, getMicroOps workloadEnv (.init emptyScratchpad)
      (renamedWrite.take 2) = .ok ops) ∧
    getMicroOps workloadEnv (.init emptyScratchpad) renamedWrite =
      .error .attributeError := by
  exact ⟨⟨_, rfl⟩, by decide⟩

section

variable {env : ParserEnv} {state : ParserState} {line : Line}
  {args : WriteArgs} {details : FdDetails}

/-! ## Appending -/

/-- The operations of a write that goes to the end of the file. -/
def appendedAtEnd (details : FdDetails) (args : WriteArgs) (size : ℕ) : List MicroOpKind :=
  if args.count = 0 then
    []
  else
    [.append ⟨details.inode, size, args.count, args.dump.file,
        args.dump.offset⟩] ++
      syncedRange details size args.count

/-- Only a split at the position itself is an append. -/
theorem eq_size_of_splitOps_eq {details : FdDetails} {args : WriteArgs} {pos size fileSize : ℕ}
    (equal : splitOps details args.dump pos args.count size = appendedAtEnd details args fileSize)
    (overwrites : pos < size → 0 < overwriteSize pos args.count size) :
    size = pos ∧ (0 < args.count → pos = fileSize) := by
  have sameSize : size = pos := by
    rcases lt_trichotomy pos size with starts | same | beyond
    · rcases splitOps_of_lt details args.dump args.count starts with
        ⟨range, rest, split⟩
      rw [split, appendedAtEnd] at equal
      split_ifs at equal
      cases equal
    · exact same.symm
    · rcases splitOps_of_gt details args.dump args.count beyond with
        ⟨rest, split⟩
      rw [split, appendedAtEnd] at equal
      split_ifs at equal
      cases equal
  refine ⟨sameSize, ?_⟩
  intro nonempty
  subst sameSize
  rw [splitOps_at_end, appendedAtEnd, if_neg (by omega), if_neg (by omega)] at equal
  have heads := (List.cons.inj equal).1
  cases heads
  rfl

end

/-- A new file is opened with `O_APPEND`, written to, and written to again
after the position has been set back. -/
def rewoundAppend : List Line :=
  [⟨.openFile ["workload", "log"] [.oCreat, .oWronly, .oAppend]
      (some "0666"), 3, 12, ""⟩,
    ⟨.write 3 2 ⟨"dump", 0⟩, 2, 0, ""⟩,
    ⟨.lseek 3, 0, 0, ""⟩,
    ⟨.write 3 2 ⟨"dump", 2⟩, 2, 0, ""⟩]

end Alice
