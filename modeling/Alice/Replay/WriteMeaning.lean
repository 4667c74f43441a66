import Alice.Parser.WriteSplit
import Alice.Replay.CrashedDir
import Alice.Replay.Refinement

/-! # What a write means

A write is split into an overwritten part, a gap and an appended part, these
are cut into slices, and the replay of the slices leaves what `pwrite` leaves.
`CarriesSizes` says that each operation in between carries the size that the
file then has.  At the end is `fallocate`. -/

namespace Alice

open Posix (Ino Bytes Tree)
open FileContent Checked

/-! ## Replaying on one file -/

namespace ReplayState

def setFile (state : ReplayState) (ino : Ino) (bytes : Bytes) : ReplayState :=
  { state with tree := state.tree.setNode ino (.file bytes) }

/-- The replay directory has a file for the inode, with this content. -/
structure HasFile (state : ReplayState) (inode : Inode) (ino : Ino) (bytes : Bytes) : Prop where
  resolve : state.tree.resolve (inodePath inode) = some ino
  content : state.tree.content ino = some bytes

variable
  {state : ReplayState} {inode : Inode} {ino : Ino} {bytes : Bytes}
  {env : ReplayEnv} {i : ℕ}

theorem setFile_setFile (first second : Bytes) : (state.setFile ino first).setFile ino second =
      state.setFile ino second := by
  simp [setFile, Tree.setNode]

section

variable (hasFile : state.HasFile inode ino bytes)
include hasFile

theorem HasFile.setFile_self :
    state.setFile ino bytes = state := by
  have isFile := Tree.content_eq_some_iff.1 hasFile.content
  have sameNodes : Function.update state.tree.node ino (some (.file bytes)) = state.tree.node := by
    rw [← isFile, Function.update_eq_self]
  rw [setFile, Tree.setNode, sameNodes]

theorem HasFile.setFile (content : Bytes) :
    (state.setFile ino content).HasFile inode ino content := by
  constructor
  · exact Tree.keepsPaths_setNode_file hasFile.content content _ _ hasFile.resolve
  · exact (Tree.content_setNode_file ino content ino).trans (if_pos rfl)

theorem HasFile.getInodeFile (mode : Option Mode) :
    state.getInodeFile inode mode = .ok state := by
  have found : state.pathExists (inodePath inode) = true := by
    rw [pathExists, hasFile.resolve]
    rfl
  rw [ReplayState.getInodeFile, if_pos found]

theorem HasFile.modifyFile (change : Bytes → Bytes) :
    state.modifyFile inode change = .ok (state.setFile ino (change bytes)) := by
  have modified := Tree.modify_resolve hasFile.resolve hasFile.content change
  rw [ReplayState.modifyFile, hasFile.getInodeFile, ok_bind]
  exact osCall_eq_ok modified

end

end ReplayState

/-- The operation changes the content of the file or nothing at all. -/
def DiskOp.Concerns (file : Inode) : DiskOp → Prop
  | .write op => op.inode = file
  | .truncate inode _ _ _ => inode = file
  | .sync .. => True
  | _ => False

theorem DiskOp.Changes.concerns {op : DiskOp} {file : Inode} {source : Option String}
    (changes : op.Changes file source) : op.Concerns file := by
  cases op with
  | write op => exact changes.1
  | truncate inode initialSize finalSize atomicity => exact changes
  | sync => trivial
  | createDirEntry => exact changes.elim
  | deleteDirEntry => exact changes.elim
  | stdout => exact changes.elim

namespace ReplayState

variable
  {state : ReplayState} {inode : Inode} {ino : Ino} {bytes : Bytes}
  {env : ReplayEnv} {i : ℕ}

theorem HasFile.replayRow (hasFile : state.HasFile inode ino bytes) {op : DiskOp}
    (concerns : op.Concerns inode) (reads : env.Reads op) : state.replayRow env i op =
      .ok (state.setFile ino (op.applyTo inode (env.written i op) bytes)) := by
  cases op with
  | write op =>
    have sameInode : op.inode = inode := concerns
    subst sameInode
    obtain ⟨data, read⟩ := reads (env.garbage i)
    simp only [ReplayState.replayRow, hasFile.getInodeFile, ok_bind, read,
      hasFile.modifyFile, DiskOp.applyTo, if_true, ReplayEnv.written]
  | truncate target initialSize finalSize atomicity =>
    have sameInode : target = inode := concerns
    subst sameInode
    simp only [ReplayState.replayRow, hasFile.modifyFile, DiskOp.applyTo, if_true]
  | sync =>
    simp only [ReplayState.replayRow, DiskOp.applyTo]
    rw [hasFile.setFile_self]
  | createDirEntry => exact concerns.elim
  | deleteDirEntry => exact concerns.elim
  | stdout => exact concerns.elim

theorem HasFile.replayFrom (hasFile : state.HasFile inode ino bytes) {rows : List DiskOp}
    (concern : ∀ row ∈ rows, row.Concerns inode) (reads : ∀ row ∈ rows, env.Reads row)
    {store : Inode → Bytes} (stored : store inode = bytes) : state.replayFrom env i rows =
      .ok (state.setFile ino (env.storeFrom i rows store inode)) := by
  induction rows generalizing state bytes store i with
  | nil => rw [ReplayState.replayFrom, ReplayEnv.storeFrom, stored, hasFile.setFile_self]
  | cons row rest ih =>
    have here := hasFile.replayRow (i := i) (concern row List.mem_cons_self)
      (reads row List.mem_cons_self)
    have next := hasFile.setFile (row.applyTo inode (env.written i row) bytes)
    have stored' : env.storeAfter i row store inode =
          row.applyTo inode (env.written i row) bytes := by
      rw [ReplayEnv.storeAfter, stored]
    rw [ReplayState.replayFrom, here, ok_bind, ih next
        (fun other member => concern other (List.mem_cons_of_mem _ member))
        (fun other member => reads other (List.mem_cons_of_mem _ member)) stored', setFile_setFile]
    rfl

end ReplayState

/-! ## Operations on the data of one file -/

namespace MicroOpKind

/-- What an operation on data does to the content. -/
def effect (dumps : DumpFiles) (content : Bytes) : MicroOpKind → Bytes
  | .trunc _ _ finalSize => ftruncate content finalSize
  | .append range | .write range =>
      pwrite content range.offset (range.bytes dumps)
  | _ => content

/-- The dump file holds the bytes of the operation, and a `write` has
some. -/
def Supplied (dumps : DumpFiles) : MicroOpKind → Prop
  | .append range => range.Dumped dumps
  | .write range => range.Dumped dumps ∧ 0 < range.count
  | _ => True

end MicroOpKind

def MicroOpKind.sizeAfter (size : ℕ) : MicroOpKind → ℕ
  | .trunc _ _ finalSize => finalSize
  | .append range => range.offset + range.count
  | _ => size

/-- The operation carries the size that the file has: a `trunc` starts from
it, an `append` goes there, and a `write` stays below. -/
def MicroOpKind.CarriesSize (size : ℕ) : MicroOpKind → Prop
  | .trunc _ initialSize _ => initialSize = size
  | .append range => range.offset = size
  | .write range => range.offset + range.count ≤ size
  | _ => True

/-- Every operation carries the size that the file has at that point. -/
def CarriesSizes : ℕ → List MicroOpKind → Prop
  | _, [] => True
  | size, op :: rest =>
      op.CarriesSize size ∧ CarriesSizes (op.sizeAfter size) rest

theorem carriesSizes_append_iff {size : ℕ} {front back : List MicroOpKind} :
    CarriesSizes size (front ++ back) ↔ CarriesSizes size front ∧
        CarriesSizes (front.foldl MicroOpKind.sizeAfter size) back := by
  induction front generalizing size with
  | nil => simp [CarriesSizes]
  | cons op rest ih => simp only [List.cons_append, CarriesSizes, ih, List.foldl_cons, and_assoc]

section

variable
  {env : ReplayEnv} {inode : Inode} {content : Bytes} {op : MicroOpKind}

theorem DataRange.Dumped.length_bytes {range : DataRange} {dumps : DumpFiles}
    (dumped : range.Dumped dumps) : (range.bytes dumps).length = range.count := by
  obtain ⟨dump, available, inDump⟩ := dumped
  rw [DataRange.bytes, available, Option.getD_some, List.length_take, List.length_drop]
  omega

theorem length_effect (carries : op.CarriesSize content.length) (supplied : op.Supplied env.dumps) :
    (op.effect env.dumps content).length = op.sizeAfter content.length := by
  cases op with
  | trunc target initialSize finalSize => exact length_ftruncate content finalSize
  | append range =>
    have atEnd : range.offset = content.length := carries
    have full : (range.bytes env.dumps).length = range.count :=
      DataRange.Dumped.length_bytes supplied
    simp only [MicroOpKind.effect, MicroOpKind.sizeAfter]
    by_cases empty : range.bytes env.dumps = []
    · have none : range.count = 0 := by
        rw [← full, empty]
        rfl
      rw [empty, pwrite_nil, none, atEnd]
      rfl
    · rw [length_pwrite _ _ empty, full]
      omega
  | write range =>
    have inside : range.offset + range.count ≤ content.length := carries
    have full : (range.bytes env.dumps).length = range.count :=
      DataRange.Dumped.length_bytes supplied.1
    have some : range.bytes env.dumps ≠ [] := by
      intro empty
      have positive := supplied.2
      rw [empty] at full
      simp only [List.length_nil] at full
      omega
    simp only [MicroOpKind.effect, MicroOpKind.sizeAfter]
    rw [length_pwrite _ _ some, full]
    omega
  | _ => rfl

/-- The disk operations of an operation on data concern its file and do to
the content what it does. -/
theorem expands_onData (onData : op.OnData inode) (carries : op.CarriesSize content.length)
    (supplied : op.Supplied env.dumps) (fs : Defaultfs) : ∃ rows, fs.getDiskOps op = .ok rows ∧
        (∀ row ∈ rows, row.Concerns inode ∧ env.Reads row) ∧ ∀ i store, store inode = content →
          env.storeFrom i rows store inode = op.effect env.dumps content := by
  cases op with
  | trunc target initialSize finalSize =>
    have sameInode : target = inode := onData
    subst sameInode
    obtain ⟨rows, expanded, sets⟩ := fs.truncDiskOps_sets target initialSize finalSize ""
    have isExpansion : fs.getDiskOps (.trunc target initialSize finalSize) = .ok rows := expanded
    refine ⟨rows, expanded, ?_, ?_⟩
    · intro row member
      have emitted := Defaultfs.emits_getDiskOps isExpansion row member
      exact ⟨(Defaultfs.changes_truncDiskOps expanded row member).concerns, emitted.reads trivial⟩
    · intro i store stored
      have size : (store target).length = initialSize := by
        rw [stored]
        exact carries.symm
      rw [sets env i store size, stored]
      rfl
  | append range =>
    have sameInode : range.inode = inode := onData
    subst sameInode
    obtain ⟨dump, available, inDump⟩ := supplied
    obtain ⟨rows, expanded, writes⟩ := fs.appendDiskOps_writes range ""
    have isExpansion : fs.getDiskOps (.append range) = .ok rows := expanded
    refine ⟨rows, expanded, ?_, ?_⟩
    · intro row member
      have emitted := Defaultfs.emits_getDiskOps isExpansion row member
      refine ⟨(Defaultfs.changes_truncDiskOps expanded row member).concerns, emitted.reads ?_⟩
      simp [ReplayEnv.ReadsKind, available]
    · intro i store stored
      rw [writes env i store dump available inDump, stored]
      simp [MicroOpKind.effect, DataRange.bytes, available]
  | write range =>
    have sameInode : range.inode = inode := onData
    subst sameInode
    obtain ⟨⟨dump, available, inDump⟩, positive⟩ := supplied
    obtain ⟨rows, expanded, writes⟩ := fs.writeDiskOps_writes positive
    refine ⟨rows, expanded, ?_, ?_⟩
    · intro row member
      have emitted := Defaultfs.emits_getDiskOps expanded row member
      refine ⟨(Defaultfs.changes_writeDiskOps expanded row member).concerns, emitted.reads ?_⟩
      simp [ReplayEnv.ReadsKind, available]
    · intro i store stored
      rw [writes env i store dump available inDump, stored]
      simp [MicroOpKind.effect, DataRange.bytes, available]
  | fileSyncRange target offset count =>
    refine ⟨_, rfl, ?_, ?_⟩
    · intro row member
      rw [List.mem_singleton] at member
      subst member
      exact ⟨trivial, trivial⟩
    · intro i store stored
      exact stored
  | _ => exact onData.elim

theorem expands_all_onData {ops : List MicroOpKind} (onData : ∀ op ∈ ops, op.OnData inode)
    (carries : CarriesSizes content.length ops) (supplied : ∀ op ∈ ops, op.Supplied env.dumps)
    (fs : Defaultfs) : ∃ parts, ops.mapM fs.getDiskOps = .ok parts ∧
        (∀ row ∈ parts.flatten, row.Concerns inode ∧ env.Reads row) ∧
        ∀ i store, store inode = content → env.storeFrom i parts.flatten store inode =
            ops.foldl (MicroOpKind.effect env.dumps) content := by
  induction ops generalizing content with
  | nil =>
    refine ⟨[], rfl, by simp, ?_⟩
    intro i store stored
    exact stored
  | cons op rest ih =>
    have here := supplied op List.mem_cons_self
    obtain ⟨rows, expanded, concern, does⟩ :=
      expands_onData (onData op List.mem_cons_self) carries.1 here fs
    have size := length_effect carries.1 here
    have carriesRest : CarriesSizes (op.effect env.dumps content).length rest := by
      rw [size]
      exact carries.2
    obtain ⟨parts, others, concernRest, doRest⟩ := ih
        (fun other member => onData other (List.mem_cons_of_mem _ member)) carriesRest
        (fun other member => supplied other (List.mem_cons_of_mem _ member))
    refine ⟨rows :: parts, ?_, ?_, ?_⟩
    · rw [List.mapM_cons, expanded, ok_bind, others, ok_bind]
      rfl
    · intro row member
      rw [List.flatten_cons, List.mem_append] at member
      rcases member with first | later
      · exact concern row first
      · exact concernRest row later
    · intro i store stored
      rw [List.flatten_cons, ReplayEnv.storeFrom_append, List.foldl_cons]
      exact doRest _ _ (does i store stored)

end

/-! ## The split -/

section

variable
  (details : FdDetails) (dump : Dump) {pos count size : ℕ}

theorem foldl_effect_syncedRange (dumps : DumpFiles) (offset size : ℕ) (content : Bytes) :
    (syncedRange details offset size).foldl (MicroOpKind.effect dumps) content = content := by
  unfold syncedRange
  split_ifs <;> rfl

theorem carriesSizes_syncedRange (offset count size : ℕ) :
    CarriesSizes size (syncedRange details offset count) := by
  unfold syncedRange
  split_ifs
  · exact ⟨trivial, trivial⟩
  · trivial

theorem foldl_sizeAfter_syncedRange (offset count size : ℕ) :
    (syncedRange details offset count).foldl MicroOpKind.sizeAfter size =
      size := by
  unfold syncedRange
  split_ifs <;> rfl

variable {dumps : DumpFiles}

theorem supplied_of_mem_syncedRange {offset count : ℕ} {op : MicroOpKind}
    (member : op ∈ syncedRange details offset count) : op.Supplied dumps := by
  unfold syncedRange at member
  split_ifs at member
  · rw [List.mem_singleton] at member
    subst member
    trivial
  · cases member

theorem splitOps_across (starts : pos < size) (ends : size < pos + count) :
    splitOps details dump pos count size =
      [.write ⟨details.inode, pos, size - pos, dump.file, dump.offset⟩] ++
        syncedRange details pos (size - pos) ++
          ([.append ⟨details.inode, size, count - (size - pos), dump.file,
              dump.offset + (size - pos)⟩] ++ syncedRange details size (count - (size - pos))) := by
  have overwritten : overwriteSize pos count size = size - pos := by
    rw [overwriteSize, if_pos starts, if_neg (by omega)]
  have atEnd : pos + (size - pos) = size := by omega
  have more : size < size + (count - (size - pos)) := by omega
  simp only [splitOps, overwriteOps, gapOps, appendOps, overwritten, atEnd,
    if_pos starts, if_neg (lt_irrefl size), max_self, if_pos more, List.append_nil]

theorem splitOps_beyond (nonempty : 0 < count) (beyond : size < pos) :
    splitOps details dump pos count size = .trunc details.inode size pos ::
        .append ⟨details.inode, pos, count, dump.file, dump.offset⟩ ::
          syncedRange details pos count := by
  have notBefore : ¬ pos < size := by omega
  have nothing : overwriteSize pos count size = 0 := by rw [overwriteSize, if_neg notBefore]
  have more : max size pos < pos + count := by omega
  simp only [splitOps, overwriteOps, gapOps, appendOps, nothing, if_neg notBefore, Nat.add_zero,
    Nat.sub_zero, if_pos beyond, if_pos more, List.nil_append, List.cons_append]

/-- The four ways in which a write lies to the end of the file. -/
theorem splitOps_cases (nonempty : 0 < count) {motive : List MicroOpKind → Prop}
    (within : pos + count ≤ size →
      motive ([.write ⟨details.inode, pos, count, dump.file, dump.offset⟩] ++
        syncedRange details pos count)) (across : pos < size → size < pos + count →
      motive ([.write ⟨details.inode, pos, size - pos, dump.file,
          dump.offset⟩] ++ syncedRange details pos (size - pos) ++
        ([.append ⟨details.inode, size, count - (size - pos), dump.file,
            dump.offset + (size - pos)⟩] ++ syncedRange details size (count - (size - pos)))))
    (atEnd : pos = size → motive ([.append ⟨details.inode, pos, count, dump.file,
          dump.offset⟩] ++ syncedRange details pos count)) (beyond : size < pos →
      motive (.trunc details.inode size pos ::
        .append ⟨details.inode, pos, count, dump.file, dump.offset⟩ ::
          syncedRange details pos count)) : motive (splitOps details dump pos count size) := by
  rcases lt_trichotomy pos size with starts | same | behind
  · by_cases ends : pos + count ≤ size
    · rw [splitOps_within details dump nonempty ends]
      exact within ends
    · rw [splitOps_across details dump starts (not_le.1 ends)]
      exact across starts (not_le.1 ends)
  · subst same
    rw [splitOps_at_end, if_neg (by omega)]
    exact atEnd rfl
  · rw [splitOps_beyond details dump nonempty behind]
    exact beyond behind

theorem carriesSizes_splitOps (nonempty : 0 < count) :
    CarriesSizes size (splitOps details dump pos count size) := by
  apply splitOps_cases details dump nonempty
  · intro within
    exact ⟨within, carriesSizes_syncedRange ..⟩
  · intro starts ends
    have inside : pos + (size - pos) ≤ size := by omega
    rw [carriesSizes_append_iff, List.foldl_append, foldl_sizeAfter_syncedRange]
    exact ⟨⟨inside, carriesSizes_syncedRange ..⟩, rfl, carriesSizes_syncedRange ..⟩
  · intro same
    exact ⟨same, carriesSizes_syncedRange ..⟩
  · intro beyond
    exact ⟨rfl, rfl, carriesSizes_syncedRange ..⟩

theorem supplied_splitOps {bytes : Bytes} (nonempty : 0 < count)
    (available : dumps dump.file = some bytes) (inDump : dump.offset + count ≤ bytes.length) :
    ∀ op ∈ splitOps details dump pos count size, op.Supplied dumps := by
  have part : ∀ offset amount, offset + amount ≤ count → ∀ position,
      DataRange.Dumped dumps ⟨details.inode, position, amount, dump.file,
        dump.offset + offset⟩ := by
    intro offset amount inside position
    refine ⟨bytes, available, ?_⟩
    simp only
    omega
  apply splitOps_cases details dump nonempty (motive := fun ops => ∀ op ∈ ops, op.Supplied dumps)
  · intro within op member
    rcases List.mem_append.1 member with first | synced
    · rw [List.mem_singleton] at first
      subst first
      exact ⟨part 0 count (by omega) pos, nonempty⟩
    · exact supplied_of_mem_syncedRange details synced
  · intro starts ends op member
    rcases List.mem_append.1 member with front | back
    · rcases List.mem_append.1 front with first | synced
      · rw [List.mem_singleton] at first
        subst first
        exact ⟨part 0 (size - pos) (by omega) pos, Nat.sub_pos_of_lt starts⟩
      · exact supplied_of_mem_syncedRange details synced
    · rcases List.mem_append.1 back with first | synced
      · rw [List.mem_singleton] at first
        subst first
        exact part (size - pos) (count - (size - pos)) (by omega) size
      · exact supplied_of_mem_syncedRange details synced
  · intro same op member
    rcases List.mem_append.1 member with first | synced
    · rw [List.mem_singleton] at first
      subst first
      exact part 0 count (by omega) pos
    · exact supplied_of_mem_syncedRange details synced
  · intro beyond op member
    rcases List.mem_cons.1 member with first | later
    · subst first
      trivial
    · rcases List.mem_cons.1 later with second | synced
      · subst second
        exact part 0 count (by omega) pos
      · exact supplied_of_mem_syncedRange details synced

/-- A gap that is filled first does not show. -/
theorem pwrite_ftruncate_same (content : Bytes) {pos : ℕ} (beyond : content.length ≤ pos)
    {data : Bytes} (some : data ≠ []) :
    pwrite (ftruncate content pos) pos data = pwrite content pos data := by
  apply ext_byteAt
  · rw [length_pwrite _ _ some, length_pwrite _ _ some, length_ftruncate]
    omega
  · intro position _
    rw [byteAt_pwrite, byteAt_pwrite, byteAt_ftruncate]
    by_cases before : position < pos
    · rw [if_pos before]
    · have past : byteAt content position = 0 := byteAt_of_le (by omega)
      rw [if_neg before, past]

/-- The parts of a split write what the whole call writes. -/
theorem foldl_effect_splitOps {bytes content : Bytes} (nonempty : 0 < count)
    (available : dumps dump.file = some bytes) (inDump : dump.offset + count ≤ bytes.length) :
    (splitOps details dump pos count content.length).foldl (MicroOpKind.effect dumps) content =
      pwrite content pos ((bytes.drop dump.offset).take count) := by
  have some : (bytes.drop dump.offset).take count ≠ [] := by
    intro empty
    have lengths := congrArg List.length empty
    rw [List.length_take, List.length_drop, List.length_nil] at lengths
    omega
  apply splitOps_cases details dump nonempty (motive := fun ops => ops.foldl
    (MicroOpKind.effect dumps) content = pwrite content pos ((bytes.drop dump.offset).take count))
  · intro within
    rw [List.foldl_append, foldl_effect_syncedRange]
    simp [MicroOpKind.effect, DataRange.bytes, available]
  · intro starts ends
    have first : ((bytes.drop dump.offset).take (content.length - pos)).length =
          content.length - pos := by
      rw [List.length_take, List.length_drop]
      omega
    have total : count = content.length - pos + (count - (content.length - pos)) := by omega
    have meets : pos + (content.length - pos) = content.length := by omega
    have joined := pwrite_pwrite_append content pos
      ((bytes.drop dump.offset).take (content.length - pos))
      (((bytes.drop dump.offset).drop (content.length - pos)).take (count - (content.length - pos)))
    rw [first, meets, ← List.take_add, ← total] at joined
    simp only [List.foldl_append, foldl_effect_syncedRange, List.foldl_cons,
      List.foldl_nil, MicroOpKind.effect, DataRange.bytes, available, Option.getD_some]
    rw [← joined, List.drop_drop]
  · intro same
    rw [List.foldl_append, foldl_effect_syncedRange]
    simp [MicroOpKind.effect, DataRange.bytes, available]
  · intro beyond
    rw [List.foldl_cons, List.foldl_cons, foldl_effect_syncedRange]
    simp only [MicroOpKind.effect, DataRange.bytes, available, Option.getD_some]
    exact pwrite_ftruncate_same content beyond.le some

end

/-! ## From the call to the file -/

/-- A call of the write family on a watched file whose name still leads to it
is translated; the operations carry the current sizes; and their disk
operations, split in any way, leave in the file what `pwrite` leaves.  The
size that is kept is then the size of the file. -/
theorem write_means_pwrite
    {env : ParserEnv} {state : ParserState} {line : Line}
    {args : WriteArgs} {details : FdDetails} {stat : Stat}
    {tracked content dump : Bytes} {replayEnv : ReplayEnv}
    (isWrite : line.call.writeArgs? = some args)
    (notAlias : (args.fd, 1) ∉ state.myTracker)
    (watched : state.tracker.fdtracker.details args.fd = .ok details)
    (named : state.stat? env details.name = some stat)
    (sameInode : stat.ino = details.inode)
    (isFile : state.pad.tree.content details.inode = some tracked)
    (sameSize : tracked.length = content.length)
    (returned : line.ret = args.count) (nonempty : 0 < args.count)
    (available : replayEnv.dumps args.dump.file = some dump)
    (inDump : args.dump.offset + args.count ≤ dump.length)
    (fs : Defaultfs) :
    ∃ after ops parts,
      emit env state line = .ok (after, ops) ∧
      CarriesSizes content.length ops ∧
      ops.mapM fs.getDiskOps = .ok parts ∧
      after.pad.sizeOf? details.inode =
        some (max content.length (args.pos details + args.count)) ∧
      ∀ (replay : ReplayState) (ino : Ino) (i : ℕ),
        replay.HasFile details.inode ino content →
          ∃ written,
            replay.replayFrom replayEnv i parts.flatten =
              .ok (replay.setFile ino written) ∧
            written.length =
              max content.length (args.pos details + args.count) ∧
            ∀ position, byteAt written position =
              if args.pos details ≤ position ∧ position < args.pos details + args.count then
                byteAt ((dump.drop args.dump.offset).take args.count) (position - args.pos details)
              else
                byteAt content position := by
  obtain ⟨after, ops, ran, opsEq, size, -⟩ :=
    emit_write_of_sameInode isWrite notAlias watched nonempty isFile returned named sameInode
  rw [sameSize] at opsEq size
  have carries : CarriesSizes content.length ops := by
    rw [opsEq]
    exact carriesSizes_splitOps details args.dump nonempty
  have onData : ∀ op ∈ ops, op.OnData details.inode := by
    intro op member
    rw [opsEq] at member
    exact onData_of_mem_splitOps member
  have supplied : ∀ op ∈ ops, op.Supplied replayEnv.dumps := by
    rw [opsEq]
    exact supplied_splitOps details args.dump nonempty available inDump
  obtain ⟨parts, expanded, concern, does⟩ := expands_all_onData onData carries supplied fs
  refine ⟨after, ops, parts, ran, carries, expanded, size, ?_⟩
  intro replay ino i hasFile
  have dataLength : ((dump.drop args.dump.offset).take args.count).length = args.count := by
    rw [List.length_take, List.length_drop]
    omega
  have some : (dump.drop args.dump.offset).take args.count ≠ [] := by
    intro empty
    rw [empty, List.length_nil] at dataLength
    omega
  let store : Inode → Bytes := fun _ => content
  have stored : store details.inode = content := rfl
  have replayed := hasFile.replayFrom (i := i) (fun row member => (concern row member).1)
    (fun row member => (concern row member).2) stored
  rw [does i store stored, opsEq, foldl_effect_splitOps details args.dump nonempty available inDump]
    at replayed
  refine ⟨_, replayed, ?_, ?_⟩
  · rw [length_pwrite _ _ some, dataLength]
  · intro position
    rw [byteAt_pwrite, dataLength]

/-- Two bytes are written at position 4 of a new file. -/
theorem write_means_pwrite_gap :
    ∃ opened created,
      emit workloadEnv (.init emptyScratchpad)
        ⟨.openFile ["workload", "log"] [.oCreat, .oWronly] (some "0666"), 3,
          12, ""⟩ = .ok (opened, created) ∧
      ∃ after ops parts,
        emit workloadEnv opened ⟨.pwrite 3 2 4 ⟨"dump", 1⟩, 2, 0, ""⟩ =
          .ok (after, ops) ∧
        CarriesSizes 0 ops ∧
        ops.mapM (Defaultfs.getDiskOps Replayer.wholeWrites) = .ok parts ∧
        after.pad.sizeOf? 12 = some (max 0 (4 + 2)) ∧
        ∀ (replay : ReplayState) (ino : Ino) (i : ℕ),
          replay.HasFile 12 ino [] →
            ∃ written,
              replay.replayFrom ⟨threeBytes, fun _ _ => 0⟩ i parts.flatten =
                .ok (replay.setFile ino written) ∧
              written.length = max 0 (4 + 2) ∧
              ∀ position, byteAt written position =
                if 4 ≤ position ∧ position < 4 + 2 then
                  byteAt ([6, 7] : Bytes) (position - 4)
                else
                  byteAt ([] : Bytes) position :=
  ⟨_, _, rfl, @write_means_pwrite workloadEnv _
    ⟨.pwrite 3 2 4 ⟨"dump", 1⟩, 2, 0, ""⟩ ⟨3, 2, 2, some 4, ⟨"dump", 1⟩⟩
    ⟨["workload", "log"], 0, [], 12⟩ ⟨12, 0, 1, false⟩ [] [] [5, 6, 7]
    ⟨threeBytes, fun _ _ => 0⟩ rfl (by decide) rfl rfl rfl rfl rfl rfl
    (by decide) rfl (by decide) Replayer.wholeWrites⟩

/-! ## `fallocate` -/

/-- The call is translated, and if it is one on a watched file, then the disk
operations extend the file with zeros up to the end of the range, and the size
that is kept is then the size of the file. -/
def FallocateExtends (env : ParserEnv) (state : ParserState) (line : Line) (fd : ℤ)
    (offset count : ℕ) (fs : Defaultfs) (replayEnv : ReplayEnv) : Prop :=
  ∃ after ops, emit env state line = .ok (after, ops) ∧
    ∀ details tracked (content : Bytes),
      state.tracker.fdtracker.details fd = .ok details →
      state.pad.tree.content details.inode = some tracked →
      tracked.length = content.length →
        after.pad.sizeOf? details.inode =
            some (max content.length (offset + count)) ∧
          ∃ parts, ops.mapM fs.getDiskOps = .ok parts ∧
            ∀ (replay : ReplayState) (ino : Ino) (i : ℕ),
              replay.HasFile details.inode ino content →
                replay.replayFrom replayEnv i parts.flatten =
                  .ok (replay.setFile ino (ftruncate content
                    (max content.length (offset + count))))

section

variable {env : ParserEnv} {state : ParserState} {line : Line} {fd : ℤ}
  {mode : String} {offset count : ℕ}

/-- On a watched file the branch stops at a variable without a value. -/
theorem emit_fallocate_of_watched (isCall : line.call = .fallocate fd mode offset count)
    (succeeded : line.ret ≠ -1) (watched : state.tracker.fdtracker.isWatched fd = true) :
    ∃ error, emit env state line = .error error := by
  simp only [emit, isCall, ParserState.fallocateBranch]
  rw [if_pos ⟨succeeded, watched⟩]
  cases assertThat (mode = "0") with
  | error error => exact ⟨error, rfl⟩
  | ok _ => exact ⟨.nameError, rfl⟩

/-- A successful call is translated only if its file is not watched. -/
theorem fallocate_extends_iff
    (isCall : line.call = .fallocate fd "0" offset count)
    (succeeded : line.ret ≠ -1) (fs : Defaultfs) (replayEnv : ReplayEnv) :
    FallocateExtends env state line fd offset count fs replayEnv ↔
      state.tracker.fdtracker.isWatched fd = false := by
  constructor
  · rintro ⟨after, ops, ran, _⟩
    by_contra watched
    obtain ⟨error, failed⟩ := emit_fallocate_of_watched isCall succeeded
      (Bool.not_eq_false _ ▸ watched)
    rw [failed] at ran
    cases ran
  · intro unwatched
    refine ⟨state, [], ?_, ?_⟩
    · simp only [emit, isCall, ParserState.fallocateBranch, unwatched]
      rw [if_neg (by simp)]
      rfl
    · intro details tracked content watched _ _
      have isWatched := ParserState.isWatched_of_details watched
      rw [unwatched] at isWatched
      cases isWatched

end

/-- Before anything is opened no descriptor is watched. -/
theorem fallocate_extends_iff_init :
    FallocateExtends workloadEnv (.init emptyScratchpad)
      ⟨.fallocate 3 "0" 0 4096, 0, 0, ""⟩ 3 0 4096 Replayer.wholeWrites
      ⟨threeBytes, fun _ _ => 0⟩ :=
  (fallocate_extends_iff rfl (by decide) Replayer.wholeWrites ⟨threeBytes, fun _ _ => 0⟩).2 rfl

/-- A new file is opened and extended. -/
theorem fallocate_not_translated :
    ∃ opened created,
      emit workloadEnv (.init emptyScratchpad)
        ⟨.openFile ["workload", "log"] [.oCreat, .oWronly] (some "0666"), 3,
          12, ""⟩ = .ok (opened, created) ∧
      ¬ FallocateExtends workloadEnv opened
        ⟨.fallocate 3 "0" 0 4096, 0, 0, ""⟩ 3 0 4096 Replayer.wholeWrites
        ⟨threeBytes, fun _ _ => 0⟩ := by
  refine ⟨_, _, rfl, ?_⟩
  rintro ⟨after, ops, ran, _⟩
  cases ran

end Alice
