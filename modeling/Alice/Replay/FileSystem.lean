import Mathlib.Data.Set.Card
import Alice.Replay.Contents

/-! # The file system that the logical operations describe

A logical operation is applied in one step, without disk operations.
`Matches` says that what it records is what the file system has.

The contents on disk agree with those of the file system on the files that
have a name: removing the last name of a file truncates it on disk. -/

namespace Alice

open Posix (Name Bytes)
open FileContent

structure FileSystem where
  names : Naming
  content : Inode → Bytes

def DataRange.bytes (dumps : DumpFiles) (range : DataRange) : Bytes :=
  (((dumps range.dumpFile).getD []).drop range.dumpOffset).take range.count

def DataRange.Dumped (dumps : DumpFiles) (range : DataRange) : Prop :=
  ∃ dump, dumps range.dumpFile = some dump ∧ range.dumpOffset + range.count ≤ dump.length

namespace Naming

def Named (names : Naming) (inode : Inode) : Prop :=
  ∃ parent name, names.child parent name = some inode

noncomputable def links (names : Naming) (inode : Inode) : ℕ :=
  {entry : Inode × Name | names.child entry.1 entry.2 = some inode}.ncard

end Naming

namespace FileSystem

def setContent (state : FileSystem) (file : Inode) (bytes : Bytes) : FileSystem :=
  { state with content := Function.update state.content file bytes }

def setNames (state : FileSystem) (names : Naming) : FileSystem :=
  { state with names := names }

def apply (dumps : DumpFiles) (state : FileSystem) (kind : MicroOpKind) : FileSystem :=
  match kind with
  | .creat _ _ inode _ =>
      (state.setContent inode []).setNames (state.names.applyKind kind)
  | .trunc inode _ finalSize =>
      state.setContent inode (ftruncate (state.content inode) finalSize)
  | .append range | .write range =>
      state.setContent range.inode
        (pwrite (state.content range.inode) range.offset (range.bytes dumps))
  | .link .. | .unlink .. | .rename _ | .mkdir .. | .rmdir .. =>
      state.setNames (state.names.applyKind kind)
  | .fsync .. | .fdatasync .. | .fileSyncRange .. | .sync _ => state
  | .stdout _ => state

def Matches (root : Inode) (dumps : DumpFiles) (state : FileSystem) : MicroOpKind → Prop
  | .creat name mode inode parent =>
      state.names.Live root parent ∧
        state.names.child parent (basename name) = none ∧
        inode ∉ state.names.dirs ∧ inode ∉ state.names.files ∧
        ReplayState.checkMode (some mode) = .ok ()
  | .link dest sourceInode destParent =>
      state.names.Live root destParent ∧
        state.names.child destParent (basename dest) = none ∧
        sourceInode ∈ state.names.files ∧ state.names.Named sourceInode
  | .unlink name inode parent size hardlinks =>
      state.names.child parent (basename name) = some inode ∧
        inode ∈ state.names.files ∧ size = (state.content inode).length ∧
        hardlinks = state.names.links inode
  | .rename info =>
      state.names.child info.sourceParent (basename info.source) =
          some info.sourceInode ∧
        info.sourceInode ∈ state.names.files ∧
        state.names.Live root info.destParent ∧
        state.names.child info.destParent (basename info.dest) =
          info.destInode ∧
        match info.destInode with
        | none => info.destHardlinks = 0
        | some inode =>
            inode ∈ state.names.files ∧ inode ≠ info.sourceInode ∧
              info.destSize = (state.content inode).length ∧
              info.destHardlinks = state.names.links inode
  | .trunc inode initialSize _ =>
      inode ∈ state.names.files ∧ initialSize = (state.content inode).length
  | .append range =>
      range.inode ∈ state.names.files ∧
        range.offset = (state.content range.inode).length ∧
        range.Dumped dumps
  | .write range => range.inode ∈ state.names.files ∧ range.Dumped dumps
  | .mkdir name mode inode parent =>
      state.names.Live root parent ∧
        state.names.child parent (basename name) = none ∧
        inode ∉ state.names.dirs ∧ inode ∉ state.names.files ∧
        ∃ value, evalMode mode = .ok value
  | .rmdir name inode parent =>
      state.names.child parent (basename name) = some inode ∧
        inode ∈ state.names.dirs ∧ state.names.Empty inode
  | .fsync .. | .fdatasync .. | .fileSyncRange .. | .sync _ => True
  | .stdout data => ∃ text, ReplayState.decodeUtf8 data = .ok text

def MatchesAll (root : Inode) (dumps : DumpFiles) : FileSystem → List MicroOpKind → Prop
  | _, [] => True
  | state, kind :: rest =>
      state.Matches root dumps kind ∧ MatchesAll root dumps (state.apply dumps kind) rest

variable
  {root : Inode} {dumps : DumpFiles} {state : FileSystem}
  {kind : MicroOpKind}

theorem names_apply (dumps : DumpFiles) (state : FileSystem) (kind : MicroOpKind) :
    (state.apply dumps kind).names = state.names.applyKind kind := by
  cases kind <;> rfl

/-! ## What a matching operation guarantees -/

private theorem noDirAt_of_unbound {names : Naming} {parent : Inode} {name : Name}
    (unbound : names.child parent name = none) : names.NoDirAt parent name := by
  intro existing bound
  rw [unbound] at bound
  cases bound

private theorem noDirAt_of_file {names : Naming} (wellFormed : names.WellFormed root)
    {parent file : Inode} {name : Name} (bound : names.child parent name = some file)
    (isFile : file ∈ names.files) : names.NoDirAt parent name := by
  intro existing alsoBound isDir
  rw [bound] at alsoBound
  cases alsoBound
  exact wellFormed.apart file isDir isFile

theorem Matches.performs (wellFormed : state.names.WellFormed root)
    (matching : state.Matches root dumps kind) : state.names.Performs root kind := by
  cases kind with
  | creat name mode inode parent =>
    obtain ⟨live, unbound, notDir, _, _⟩ := matching
    exact ⟨⟨live, noDirAt_of_unbound unbound⟩, notDir⟩
  | link dest sourceInode destParent =>
    obtain ⟨live, unbound, isFile, _⟩ := matching
    exact ⟨⟨live, noDirAt_of_unbound unbound⟩, isFile⟩
  | unlink name inode parent size hardlinks =>
    obtain ⟨bound, isFile, _, _⟩ := matching
    exact ⟨⟨wellFormed.parent_live _ _ _ bound, noDirAt_of_file wellFormed bound isFile⟩, isFile⟩
  | rename info =>
    obtain ⟨bound, isFile, live, destBound, destMatches⟩ := matching
    have atSource : state.names.FileName root info.sourceParent info.source :=
      ⟨wellFormed.parent_live _ _ _ bound, noDirAt_of_file wellFormed bound isFile⟩
    cases destInode : info.destInode with
    | none =>
      rw [destInode] at destBound destMatches
      refine ⟨atSource, ⟨live, noDirAt_of_unbound destBound⟩, isFile, ?_⟩
      rw [destInode]
      exact destMatches
    | some inode =>
      rw [destInode] at destBound destMatches
      refine ⟨atSource, ⟨live, noDirAt_of_file wellFormed destBound destMatches.1⟩, isFile, ?_⟩
      rw [destInode]
      exact destMatches.1
  | trunc inode initialSize finalSize => exact matching.1
  | append range => exact matching.1
  | write range => exact matching.1
  | mkdir name mode inode parent =>
    obtain ⟨live, unbound, notDir, notFile, _⟩ := matching
    exact ⟨live, unbound, notDir, notFile⟩
  | rmdir name inode parent =>
    obtain ⟨bound, isDir, empty⟩ := matching
    exact ⟨wellFormed.parent_live _ _ _ bound, bound, isDir, empty⟩
  | fsync => trivial
  | fdatasync => trivial
  | fileSyncRange => trivial
  | sync => trivial
  | stdout => trivial

theorem Matches.readsKind {env : ReplayEnv} (matching : state.Matches root env.dumps kind) :
    env.ReadsKind kind := by
  cases kind with
  | creat name mode inode parent => exact matching.2.2.2.2
  | append range =>
    obtain ⟨_, _, dump, available, _⟩ := matching
    exact Option.isSome_iff_exists.2 ⟨dump, available⟩
  | write range =>
    obtain ⟨_, dump, available, _⟩ := matching
    exact Option.isSome_iff_exists.2 ⟨dump, available⟩
  | stdout data => exact matching
  | link => trivial
  | unlink => trivial
  | rename => trivial
  | trunc => trivial
  | mkdir => trivial
  | rmdir => trivial
  | fsync => trivial
  | fdatasync => trivial
  | fileSyncRange => trivial
  | sync => trivial

/-! ## Agreement with the contents on disk -/

structure Agrees (state : FileSystem) (store : Inode → Bytes) : Prop where
  content : ∀ file ∈ state.names.files, state.names.Named file → store file = state.content file
  unknown : ∀ file ∉ state.names.files, store file = []

section

variable {store after : Inode → Bytes}

theorem Agrees.setContent (agrees : state.Agrees store) {file : Inode}
    (isFile : file ∈ state.names.files) {bytes : Bytes}
    (others : ∀ other, other ≠ file → after other = store other)
    (here : state.names.Named file → after file = bytes) :
    (state.setContent file bytes).Agrees after where
  content := by
    intro other otherFile named
    by_cases same : other = file
    · subst same
      rw [here named]
      exact (Function.update_self other bytes state.content).symm
    · rw [others other same, agrees.content other otherFile named]
      exact (Function.update_of_ne same ..).symm
  unknown := by
    intro other notFile
    rw [others other fun same => notFile (same ▸ isFile)]
    exact agrees.unknown other notFile

/-- Files that have a name afterwards had one before, and are unchanged. -/
theorem Agrees.setNames (agrees : state.Agrees store) {names : Naming}
    (sameFiles : names.files = state.names.files)
    (named : ∀ file ∈ state.names.files, names.Named file →
      state.names.Named file ∧ after file = store file)
    (others : ∀ file ∉ state.names.files, after file = store file) :
    (state.setNames names).Agrees after where
  content := by
    intro file isFile hasName
    have wasFile : file ∈ state.names.files := sameFiles ▸ isFile
    obtain ⟨hadName, unchanged⟩ := named file wasFile hasName
    rw [unchanged]
    exact agrees.content file wasFile hadName
  unknown := by
    intro file notFile
    have wasNot : file ∉ state.names.files := fun wasFile => notFile (sameFiles.symm ▸ wasFile)
    rw [others file wasNot]
    exact agrees.unknown file wasNot

end

end FileSystem

namespace Naming

variable {names : Naming} {parent inode : Inode} {name : Name}

variable {other : Inode}

theorem Named.of_setEntry_none (named : (names.setEntry parent name none).Named other) :
    names.Named other := by
  obtain ⟨otherParent, tested, bound⟩ := named
  rw [child_setEntry] at bound
  split at bound
  · cases bound
  · exact ⟨otherParent, tested, bound⟩

theorem Named.of_setEntry_some {target : Inode}
    (named : (names.setEntry parent name (some target)).Named other) :
    other = target ∨ names.Named other := by
  obtain ⟨otherParent, tested, bound⟩ := named
  rw [child_setEntry] at bound
  split at bound
  · exact Or.inl (Option.some.inj bound).symm
  · exact Or.inr ⟨otherParent, tested, bound⟩

theorem not_named_of_links_eq_one (bound : names.child parent name = some inode)
    (last : names.links inode = 1) : ¬(names.setEntry parent name none).Named inode := by
  rintro ⟨other, tested, stillBound⟩
  obtain ⟨entry, only⟩ := Set.ncard_eq_one.1 last
  have isEntry : (parent, name) ∈ {entry : Inode × Name |
        names.child entry.1 entry.2 = some inode} := bound
  rw [child_setEntry] at stillBound
  split at stillBound
  · cases stillBound
  · rename_i different
    have isEntry' : (other, tested) ∈ {entry : Inode × Name |
          names.child entry.1 entry.2 = some inode} := stillBound
    rw [only, Set.mem_singleton_iff] at isEntry isEntry'
    have same : (other, tested) = (parent, name) := isEntry'.trans isEntry.symm
    exact different (Prod.mk.inj same)

/-- After a renaming the target has its name, and others have what is left
without the destination. -/
theorem Named.of_renamed {source target : Inode} {sourceName : Name}
    (named : ((names.setEntry source sourceName none).setEntry parent name
      (some target)).Named other) :
    other = target ∨ (names.setEntry parent name none).Named other := by
  obtain ⟨otherParent, tested, bound⟩ := named
  rw [child_setEntry] at bound
  split at bound
  · exact Or.inl (Option.some.inj bound).symm
  · rename_i different
    rw [child_setEntry] at bound
    split at bound
    · cases bound
    · refine Or.inr ⟨otherParent, tested, ?_⟩
      rw [child_setEntry, if_neg different]
      exact bound

end Naming

/-! ## One logical operation -/

namespace FileSystem

variable
  {root : Inode} {env : ReplayEnv} {state : FileSystem}
  {store : Inode → Bytes} {kind : MicroOpKind}

private theorem agrees_append_or_write (agrees : state.Agrees store) {range : DataRange}
    (isFile : range.inode ∈ state.names.files) (dumped : range.Dumped env.dumps)
    {ops : List DiskOp} {i : ℕ} (changes : ∀ op ∈ ops, op.Changes range.inode (some range.dumpFile))
    (writes : ∀ env i store dump, env.dumps range.dumpFile = some dump →
        range.dumpOffset + range.count ≤ dump.length →
          ReplayEnv.storeFrom env i ops store range.inode = pwrite (store range.inode) range.offset
              ((dump.drop range.dumpOffset).take range.count)) : (state.setContent range.inode
      (pwrite (state.content range.inode) range.offset
        (range.bytes env.dumps))).Agrees (env.storeFrom i ops store) := by
  obtain ⟨dump, available, inDump⟩ := dumped
  apply agrees.setContent isFile
  · intro other different
    exact ReplayEnv.storeFrom_of_changes changes different
  · intro named
    rw [writes env i store dump available inDump,
      agrees.content range.inode isFile named, DataRange.bytes, available, Option.getD_some]

private theorem agrees_unlink (agrees : state.Agrees store) {parent file : Inode} {name : Name}
    {after : Inode → Bytes} (bound : state.names.child parent name = some file)
    (isFile : file ∈ state.names.files)
    (kept : ∀ other, (state.names.links file = 1 → other ≠ file) → after other = store other) :
    (state.setNames (state.names.setEntry parent name none)).Agrees
      after := by
  refine agrees.setNames ?_ ?_ ?_
  · rfl
  · intro other _ named
    refine ⟨named.of_setEntry_none, kept other ?_⟩
    intro last same
    subst same
    exact Naming.not_named_of_links_eq_one bound last named
  · intro other notFile
    apply kept
    intro _ same
    exact notFile (same ▸ isFile)

private theorem agrees_rename (agrees : state.Agrees store) {info : RenameInfo}
    (matching : state.Matches root env.dumps (.rename info)) {after : Inode → Bytes}
    (kept : ∀ other, (info.destHardlinks = 1 → other ≠ info.destInode.getD 0) →
        after other = store other) : (state.apply env.dumps (.rename info)).Agrees after := by
  obtain ⟨bound, _, _, destBound, destMatches⟩ := matching
  have sourceNamed : state.names.Named info.sourceInode := ⟨_, _, bound⟩
  refine agrees.setNames ?_ ?_ ?_
  · rfl
  · intro other _ named
    have hadName : state.names.Named other := by
      rcases named.of_renamed with isSource | remains
      · exact isSource ▸ sourceNamed
      · exact remains.of_setEntry_none
    refine ⟨hadName, kept other ?_⟩
    intro last
    cases destInode : info.destInode with
    | none =>
      simp only [destInode] at destMatches
      omega
    | some dest =>
      simp only [destInode] at destMatches destBound
      intro same
      subst same
      rcases named.of_renamed with isSource | remains
      · exact destMatches.2.1 isSource
      · exact Naming.not_named_of_links_eq_one destBound (destMatches.2.2.2 ▸ last) remains
  · intro other notFile
    apply kept
    intro last
    cases destInode : info.destInode with
    | none =>
      simp only [destInode] at destMatches
      omega
    | some dest =>
      simp only [destInode] at destMatches
      intro same
      exact notFile (same ▸ destMatches.1)

/-- A matching operation is expanded, and its disk operations do to contents
what it does. -/
theorem Matches.expands (matching : state.Matches root env.dumps kind)
    (nonempty : ∀ range, kind = .write range → 0 < range.count) (agrees : state.Agrees store)
    (fs : Defaultfs) : ∃ ops, fs.getDiskOps kind = .ok ops ∧
        ∀ i, (state.apply env.dumps kind).Agrees (env.storeFrom i ops store) := by
  cases kind with
  | creat name mode inode parent =>
    obtain ⟨_, _, _, notFile, _⟩ := matching
    refine ⟨_, rfl, ?_⟩
    intro i
    refine ⟨?_, ?_⟩
    · intro file isFile named
      by_cases same : file = inode
      · subst same
        exact (agrees.unknown file notFile).trans (Function.update_self file [] state.content).symm
      · have wasFile : file ∈ state.names.files := (Set.mem_insert_iff.1 isFile).resolve_left same
        have wasNamed : state.names.Named file := named.of_setEntry_some.resolve_left same
        refine (agrees.content file wasFile wasNamed).trans ?_
        exact (Function.update_of_ne same ([] : Bytes) state.content).symm
    · intro file notThen
      exact agrees.unknown file fun isFile => notThen (Set.mem_insert_of_mem inode isFile)
  | link dest sourceInode destParent =>
    obtain ⟨_, _, _, sourceNamed⟩ := matching
    refine ⟨_, rfl, ?_⟩
    intro i
    refine agrees.setNames rfl ?_ (fun _ _ => rfl)
    intro file _ named
    refine ⟨?_, rfl⟩
    rcases named.of_setEntry_some with isSource | before
    · exact isSource ▸ sourceNamed
    · exact before
  | unlink name inode parent size hardlinks =>
    obtain ⟨bound, isFile, _, counted⟩ := matching
    obtain ⟨ops, expanded⟩ := fs.unlinkDiskOps_returns parent inode name size hardlinks .typeFile ""
    refine ⟨ops, expanded, ?_⟩
    intro i
    apply agrees_unlink agrees bound isFile
    intro other kept
    exact Defaultfs.storeFrom_unlinkDiskOps expanded (counted ▸ kept)
  | rename info =>
    obtain ⟨ops, expanded⟩ := fs.renameDiskOps_returns info
    refine ⟨ops, expanded, ?_⟩
    intro i
    apply agrees_rename agrees matching
    intro other kept
    exact Defaultfs.storeFrom_renameDiskOps expanded kept
  | trunc inode initialSize finalSize =>
    obtain ⟨isFile, size⟩ := matching
    obtain ⟨ops, expanded, sets⟩ := fs.truncDiskOps_sets inode initialSize finalSize ""
    refine ⟨ops, expanded, ?_⟩
    intro i
    apply agrees.setContent isFile
    · intro other different
      exact ReplayEnv.storeFrom_of_changes (Defaultfs.changes_truncDiskOps expanded) different
    · intro named
      have same := agrees.content inode isFile named
      rw [sets env i store (by rw [same, size]), same]
  | append range =>
    obtain ⟨isFile, _, dumped⟩ := matching
    obtain ⟨ops, expanded, writes⟩ := fs.appendDiskOps_writes range ""
    refine ⟨ops, expanded, ?_⟩
    intro i
    exact agrees_append_or_write agrees isFile dumped
      (Defaultfs.changes_truncDiskOps expanded) writes
  | write range =>
    obtain ⟨isFile, dumped⟩ := matching
    obtain ⟨ops, expanded, writes⟩ := fs.writeDiskOps_writes (nonempty range rfl)
    refine ⟨ops, expanded, ?_⟩
    intro i
    exact agrees_append_or_write agrees isFile dumped
      (Defaultfs.changes_writeDiskOps expanded) writes
  | mkdir name mode inode parent =>
    obtain ⟨_, _, _, notFile, value, evaluated⟩ := matching
    refine ⟨Defaultfs.linkDiskOps parent inode name (some (.number value)) .typeDir, ?_, ?_⟩
    · simp only [Defaultfs.getDiskOps, evaluated, Checked.ok_bind]
      rfl
    · intro i
      refine agrees.setNames rfl ?_ (fun _ _ => rfl)
      intro file isFile named
      refine ⟨?_, rfl⟩
      rcases named.of_setEntry_some with isNew | before
      · exact False.elim (notFile (isNew ▸ isFile))
      · exact before
  | rmdir name inode parent =>
    refine ⟨_, rfl, ?_⟩
    intro i
    refine agrees.setNames rfl ?_ (fun _ _ => rfl)
    intro file _ named
    exact ⟨named.of_setEntry_none, rfl⟩
  | fsync inode size => exact ⟨_, rfl, fun _ => agrees⟩
  | fdatasync inode size => exact ⟨_, rfl, fun _ => agrees⟩
  | fileSyncRange inode offset count => exact ⟨_, rfl, fun _ => agrees⟩
  | sync hiddenFiles =>
    refine ⟨_, rfl, ?_⟩
    intro i
    suffices unchanged : ∀ i, env.storeFrom i
        (hiddenFiles.map fun file => .sync file.inode 0 file.size) store = store by
      rw [unchanged]
      exact agrees
    induction hiddenFiles with
    | nil =>
      intro i
      rfl
    | cons file rest ih =>
      intro i
      exact ih trivial (by simp) (i + 1)
  | stdout data => exact ⟨_, rfl, fun _ => agrees⟩

end FileSystem

end Alice
