import Alice.Replay.DirEntries

/-! # Whole replays

A replay of any selection of a trace goes through exactly if every selected
operation fits what the selected operations before it have left behind. -/

namespace Alice

open Posix (Ino Path Bytes Tree)
open Checked

/-- The modes, the dump files and the texts that an operation needs can be
read. -/
def ReplayEnv.Reads (env : ReplayEnv) : DiskOp → Prop
  | .createDirEntry _ _ _ mode _ => ReplayState.checkMode mode = .ok ()
  | .write op =>
      ∀ garbage, ∃ data, op.buffer env.dumps garbage = .ok data
  | .stdout data => ∃ text, ReplayState.decodeUtf8 data = .ok text
  | .deleteDirEntry .. => True
  | .truncate .. => True
  | .sync .. => True

def ReplayEnv.written (env : ReplayEnv) (i : ℕ) : DiskOp → Bytes
  | .write op =>
      match op.buffer env.dumps (env.garbage i) with
      | .ok data => data
      | .error _ => []
  | _ => []

/-- The contents after the row at position `i`. -/
def ReplayEnv.storeAfter (env : ReplayEnv) (i : ℕ) (op : DiskOp) (store : Inode → Bytes) :
    Inode → Bytes :=
  fun file => op.applyTo file (env.written i op) (store file)

/-- The contents after rows of which the first is at position `i`. -/
def ReplayEnv.storeFrom (env : ReplayEnv) : ℕ → List DiskOp → (Inode → Bytes) → Inode → Bytes
  | _, [], store => store
  | i, op :: rest, store =>
      env.storeFrom (i + 1) rest (env.storeAfter i op store)

variable
  {root : Inode} {trace names : Naming} {store : Inode → Bytes}
  {state : ReplayState} {place : Inode → Ino} {hub : Ino}
  {env : ReplayEnv} {i : ℕ}

namespace ReplayEnv

theorem update_eq_storeAfter_write (op : WriteOp) {data : Bytes}
    (read : op.buffer env.dumps (env.garbage i) = .ok data) : Function.update store op.inode
        (FileContent.pwrite (store op.inode) op.offset data) =
      env.storeAfter i (.write op) store := by
  funext file
  unfold ReplayEnv.storeAfter ReplayEnv.written DiskOp.applyTo
  simp only [read]
  by_cases same : op.inode = file
  · subst same
    rw [Function.update_self, if_pos rfl]
  · rw [Function.update_of_ne (Ne.symm same), if_neg same]

theorem update_eq_storeAfter_truncate (file : Inode) (initialSize finalSize : ℕ)
    (atomicity : String) : Function.update store file
        (FileContent.ftruncate (store file) finalSize) =
      env.storeAfter i (.truncate file initialSize finalSize atomicity)
        store := by
  funext other
  simp only [ReplayEnv.storeAfter, DiskOp.applyTo]
  by_cases same : file = other
  · subst same
    rw [Function.update_self, if_pos rfl]
  · rw [Function.update_of_ne (Ne.symm same), if_neg same]

end ReplayEnv

namespace Simulates

/-! ## Contents -/

section

variable (simulates : Simulates root trace names store state place hub)
include simulates

private theorem setContent {file : Inode} (isFile : file ∈ names.files) (bytes : Bytes) :
    Simulates root trace names (Function.update store file bytes) { state with
        tree := state.tree.setNode (place file) (.file bytes) }
      place hub := by
  have sameChild := Tree.child_setNode_file (simulates.holds.not_isDir isFile) bytes
  refine ⟨simulates.wellFormed, simulates.lags, simulates.holds.setContent isFile bytes, ?_, ?_, ?_⟩
  · refine ⟨simulates.placed.root_path, simulates.placed.unknown_path, ?_, ?_⟩
    · intro inode unknown notDead
      rw [sameChild]
      exact simulates.placed.unknown_hub inode unknown notDead
    · intro dir member live notRoot
      rcases simulates.placed.somewhere dir member live notRoot with
        waits | ⟨parent, name, path, linked⟩
      · exact Or.inl ⟨waits.unbound, waits.path, (sameChild ..).trans waits.hub_entry⟩
      · exact Or.inr ⟨parent, name, path, linked.bound, linked.parent_path,
          linked.path, (sameChild ..).trans linked.hub_entry⟩
  · intro ino beyond
    have unused := simulates.unused ino beyond
    rw [Tree.node_setNode_of_ne]
    · exact unused
    · intro same
      exact simulates.holds.place_unused (Or.inr isFile) (same ▸ unused)
  · intro other unknown
    rw [Function.update_of_ne]
    · exact simulates.store_unknown other unknown
    · intro same
      exact unknown (same ▸ isFile)

theorem modifyFile {file : Inode} (inTrace : file ∈ trace.files) (change : Bytes → Bytes) :
    ∃ after place',
      state.modifyFile file change = .ok after ∧ Simulates root trace (names.touchFile file)
          (Function.update store file (change (store file))) after place'
          hub := by
  have noMode : ReplayState.checkMode none = .ok () := rfl
  obtain ⟨opened, place', returned, _, following⟩ := simulates.getInodeFile inTrace noMode
  have isFile : file ∈ (names.touchFile file).files := Set.mem_insert _ _
  have resolved : opened.tree.resolve (inodePath file) = some (place' file) := by
    rw [following.resolve_inodePath]
    exact following.holds.hub_file file isFile
  have modified := Tree.modify_resolve resolved (following.holds.content file isFile) change
  refine ⟨_, place', ?_, following.setContent isFile _⟩
  simp only [ReplayState.modifyFile, returned, ok_bind]
  exact ReplayState.osCall_eq_ok modified

omit simulates in
private theorem touchFile_touchFile (names : Naming) (file : Inode) :
    (names.touchFile file).touchFile file = names.touchFile file := by
  simp [Naming.touchFile]

/-! ## One row -/

/-- What is known about a directory that the trace has just made. -/
private theorem made_facts {parent made : Inode} {entry : Path} {mode : Option Mode}
    (allowed : trace.Allows root (.createDirEntry parent entry made mode .typeDir)) :
    let later := trace.apply (.createDirEntry parent entry made mode .typeDir)
    later.Live root parent ∧ later.Live root made ∧
      later.child parent (basename entry) = some made ∧ ¬names.Known made ∧ parent ≠ made := by
  have wellFormed := (simulates.wellFormed.apply allowed).1
  obtain ⟨live, free, notDir, notFile⟩ := allowed
  have bound : (trace.apply (.createDirEntry parent entry made mode .typeDir)).child
        parent (basename entry) = some made := by
    simp [Naming.apply]
  refine ⟨wellFormed.parent_live _ _ _ bound,
    ⟨Set.mem_insert _ _, Or.inr ⟨_, _, bound⟩⟩, bound, ?_, ?_⟩
  · rintro (isDir | isFile)
    · exact notDir (simulates.lags.dirs isDir)
    · exact notFile (simulates.lags.files isFile)
  · intro same
    exact notDir (same ▸ live.1)

/-- A row that fits is replayed, and the simulation goes on. -/
theorem replayRow {op : DiskOp} (allowed : trace.Allows root op) (avoids : op.AvoidsHub root)
    (reads : env.Reads op) (fits : names.Fits op) :
    ∃ after place', state.replayRow env i op = .ok after ∧
        Simulates root (trace.apply op) (names.apply op)
          (env.storeAfter i op store) after place' hub := by
  obtain ⟨wellFormed, advances⟩ := simulates.wellFormed.apply allowed
  have advanced := simulates.advance wellFormed advances
  cases op with
  | createDirEntry parent entry inode mode entryType =>
    cases entryType with
    | typeFile =>
      have bound : (trace.apply (.createDirEntry parent entry inode mode .typeFile)).child
            parent (basename entry) = some inode := by
        simp [Naming.apply]
      exact advanced.createFileEntry
        (wellFormed.parent_live _ _ _ bound) (Set.mem_insert _ _) avoids reads fits
    | typeDir =>
      obtain ⟨live, madeLive, bound, unknown, different⟩ := simulates.made_facts allowed
      exact advanced.createDirectoryEntry live madeLive bound unknown different avoids reads fits
  | deleteDirEntry parent entry inode entryType atomicity =>
    cases entryType with
    | typeFile =>
      obtain ⟨after, place', returned, done⟩ :=
        simulates.deleteFileEntry allowed.1 avoids fits atomicity
      exact ⟨after, place', returned, done.advance wellFormed advances⟩
    | typeDir =>
      obtain ⟨live, bound, isDir, empty⟩ := allowed
      have sameTrace : trace.apply (.deleteDirEntry parent entry inode .typeDir atomicity) =
            trace.setEntry parent (basename entry) none := by
        simp only [Naming.apply, live.touchDir]
      rw [sameTrace]
      exact simulates.deleteDirectoryEntry live avoids bound isDir empty fits
  | truncate inode initialSize finalSize atomicity =>
    obtain ⟨after, place', returned, done⟩ := advanced.modifyFile (Set.mem_insert _ _)
        fun content => FileContent.ftruncate content finalSize
    rw [ReplayEnv.update_eq_storeAfter_truncate] at done
    exact ⟨after, place', returned, done⟩
  | write op =>
    obtain ⟨data, read⟩ := reads (env.garbage i)
    have noMode : ReplayState.checkMode none = .ok () := rfl
    obtain ⟨opened, place₁, returned, _, following⟩ :=
      advanced.getInodeFile (Set.mem_insert _ _) noMode
    obtain ⟨after, place', modified, done⟩ := following.modifyFile (Set.mem_insert _ _)
        fun content => FileContent.pwrite content op.offset data
    rw [touchFile_touchFile, ReplayEnv.update_eq_storeAfter_write op read] at done
    refine ⟨after, place', ?_, done⟩
    simp only [ReplayState.replayRow, returned, ok_bind, read]
    exact modified
  | sync inode offset count => exact ⟨state, place, rfl, simulates⟩
  | stdout data =>
    obtain ⟨text, decoded⟩ := reads
    refine ⟨{ state with stdout := state.stdout ++ text }, place, ?_, simulates.wellFormed,
      simulates.lags, simulates.holds, ?_, simulates.unused, simulates.store_unknown⟩
    · simp only [ReplayState.replayRow, decoded, ok_bind]
      rfl
    · refine ⟨simulates.placed.root_path, simulates.placed.unknown_path,
        simulates.placed.unknown_hub, ?_⟩
      intro dir member live notRoot
      rcases simulates.placed.somewhere dir member live notRoot with
        waits | ⟨parent, name, path, linked⟩
      · exact Or.inl ⟨waits.unbound, waits.path, waits.hub_entry⟩
      · exact Or.inr ⟨parent, name, path, linked.bound,
          linked.parent_path, linked.path, linked.hub_entry⟩

theorem replayRow_blocked {op : DiskOp} (allowed : trace.Allows root op)
    (avoids : op.AvoidsHub root) (reads : env.Reads op) (clash : ¬names.Fits op) :
    ∃ errno, state.replayRow env i op = .error (.osError errno) := by
  obtain ⟨wellFormed, advances⟩ := simulates.wellFormed.apply allowed
  have advanced := simulates.advance wellFormed advances
  cases op with
  | createDirEntry parent entry inode mode entryType =>
    cases entryType with
    | typeFile => exact ⟨.eisdir, simulates.createFileEntry_blocked allowed.1 avoids clash⟩
    | typeDir =>
      obtain ⟨live, madeLive, bound, unknown, different⟩ := simulates.made_facts allowed
      exact advanced.createDirectoryEntry_blocked live madeLive bound
        unknown different avoids reads clash
  | deleteDirEntry parent entry inode entryType atomicity =>
    cases entryType with
    | typeFile => exact ⟨.eisdir, simulates.deleteFileEntry_blocked inode allowed.1 avoids clash⟩
    | typeDir =>
      obtain ⟨live, bound, isDir, empty⟩ := allowed
      exact simulates.deleteDirectoryEntry_blocked live avoids bound isDir empty clash
  | truncate inode initialSize finalSize atomicity => exact False.elim (clash trivial)
  | write op => exact False.elim (clash trivial)
  | sync inode offset count => exact False.elim (clash trivial)
  | stdout data => exact False.elim (clash trivial)

end

/-! ## The name of `.inodes` -/

section Hub

variable {entry : Path} {mode : Option Mode}

section

variable (simulates : Simulates root trace names store state place hub)
include simulates

private theorem lookupRoot (mode : Option Mode) :
    state.getInodeDirectory root mode = .ok (state, []) := by
  simp only [ReplayState.getInodeDirectory, simulates.placed.root_path]

private theorem pathExists_hub : state.pathExists ([] ++ [inodesName]) = true := by
  rw [List.nil_append, ReplayState.pathExists, simulates.resolve_hub]
  rfl

private theorem resolve_nil : state.tree.resolve [] = some (place root) := by
  rw [← simulates.holds.root_eq]
  rfl

private theorem unlink_hub : (state.osCall fun tree => tree.unlink ([] ++ [inodesName])) =
      .error (.osError .eisdir) := by
  have holds := simulates.holds
  have refused := Tree.unlink_concat simulates.resolve_nil
      (holds.isDir root simulates.lags.root_mem) holds.hub_entry
  rw [holds.hub_isDir, if_pos rfl] at refused
  simp only [ReplayState.osCall, refused]

private theorem createDirectory_hub {made : Inode} (live : trace.Live root made)
    (notRoot : made ≠ root) (unknown : ¬names.Known made) (isHub : basename entry = inodesName)
    (modeOk : ReplayState.checkMode mode = .ok ()) : ∃ errno,
      state.createDirEntry root entry made mode .typeDir = .error (.osError errno) := by
  have noPath : state.dirinodeMap made = none :=
    simulates.placed.unknown_path made fun isDir => unknown (Or.inl isDir)
  have notLinked : state.isLinkedInodeDirectory made = false := by
    simp only [ReplayState.isLinkedInodeDirectory, noPath]
  obtain ⟨ready, path, place', looked, lookup, _, prepared⟩ :=
    simulates.getInodeDirectory live modeOk
  have member : made ∈ (names.touchDir made).dirs := Set.mem_insert _ _
  have waits : Waits (names.touchDir made) ready place' hub made := by
    rcases prepared.placed.somewhere made member live notRoot with
      waits | ⟨other, tested, otherPath, linked⟩
    · exact waits
    · exact False.elim (simulates.lags.unbound_of_unknown unknown other tested linked.bound)
  have samePath : inodePath made = path := by
    rw [waits.path] at lookup
    exact Option.some.inj lookup
  subst samePath
  have holds := prepared.holds
  have elsewhere : ready.tree.child (place' root) inodesName ≠ some (place' made) := by
    rw [holds.hub_entry]
    intro same
    exact holds.hub_apart made member (Option.some.inj same).symm
  have renamed : ready.tree.rename (inodePath made) ([] ++ [inodesName]) = _ := Tree.rename_concat
    prepared.resolve_hub holds.hub_isDir prepared.resolve_nil
    (holds.isDir root prepared.lags.root_mem) waits.hub_entry elsewhere (by simp [List.isPrefixOf])
  rw [holds.hub_entry] at renamed
  cases result : ready.tree.renameOver (place' made) (some hub) with
  | ok =>
    have replaceable := Tree.renameOver_eq_ok_iff.1 result hub rfl
    have noEntry := replaceable.2 holds.hub_isDir (toString made)
    rw [waits.hub_entry] at noEntry
    exact False.elim (Option.some_ne_none _ noEntry)
  | error errno =>
    refine ⟨errno, ?_⟩
    simp only [ReplayState.createDirEntry, simulates.lookupRoot, ok_bind, assertThat, notLinked,
      if_true, looked, ReplayState.osCall, isHub, renamed, result, Except.map, error_bind]

private theorem deleteDirectory_hub {removed : Inode} (isHub : basename entry = inodesName)
    (inTrace : trace.child root (basename entry) = some removed) (isDir : removed ∈ trace.dirs) :
    state.deleteDirEntry root entry removed .typeDir = .error (.osError .einval) := by
  have holds := simulates.holds
  have elsewhere : state.tree.child hub (toString removed) ≠ some hub := by
    obtain ⟨target, hubChild, targetIff⟩ := simulates.hub_child_removed inTrace isDir
    rw [hubChild]
    intro same
    obtain ⟨inode, isTarget, samePlace⟩ := Option.map_eq_some_iff.1 same
    obtain ⟨isRemoved, member, _⟩ := (targetIff inode).1 isTarget
    exact holds.hub_apart inode (isRemoved ▸ member) samePlace
  have refused : state.tree.rename ([] ++ [inodesName]) (inodePath removed) = _ := Tree.rename_below
    simulates.resolve_nil (holds.isDir root simulates.lags.root_mem) simulates.resolve_hub
    holds.hub_isDir holds.hub_entry holds.hub_isDir elsewhere (by simp [List.isPrefixOf])
  have present := simulates.pathExists_hub
  simp only [ReplayState.deleteDirEntry, simulates.lookupRoot, ok_bind, isHub,
    present, if_true, ReplayState.osCall, refused]

/-- A row that concerns the name `.inodes` stops the replay. -/
theorem replayRow_hub {op : DiskOp} (allowed : trace.Allows root op) (reads : env.Reads op)
    (atHub : ¬op.AvoidsHub root) : ∃ errno, state.replayRow env i op = .error (.osError errno) := by
  obtain ⟨wellFormed, advances⟩ := simulates.wellFormed.apply allowed
  have advanced := simulates.advance wellFormed advances
  have present := simulates.pathExists_hub
  have refused := simulates.unlink_hub
  cases op with
  | createDirEntry parent entry inode mode entryType =>
    obtain ⟨isRoot, isHub⟩ := Classical.not_not.1 atHub
    subst isRoot
    cases entryType with
    | typeFile =>
      refine ⟨.eisdir, ?_⟩
      simp only [ReplayState.replayRow, ReplayState.createDirEntry,
        simulates.lookupRoot, ok_bind, isHub, present, if_true, refused, error_bind]
    | typeDir =>
      obtain ⟨_, madeLive, bound, unknown, different⟩ := simulates.made_facts allowed
      exact advanced.createDirectory_hub madeLive different.symm unknown isHub reads
  | deleteDirEntry parent entry inode entryType atomicity =>
    obtain ⟨isRoot, isHub⟩ := Classical.not_not.1 atHub
    subst isRoot
    cases entryType with
    | typeFile =>
      refine ⟨.eisdir, ?_⟩
      simp only [ReplayState.replayRow, ReplayState.deleteDirEntry,
        simulates.lookupRoot, ok_bind, isHub, present, if_true, refused]
    | typeDir =>
      obtain ⟨_, bound, isDir, _⟩ := allowed
      exact ⟨.einval, simulates.deleteDirectory_hub isHub bound isDir⟩
  | truncate inode initialSize finalSize atomicity => exact False.elim (atHub trivial)
  | write op => exact False.elim (atHub trivial)
  | sync inode offset count => exact False.elim (atHub trivial)
  | stdout data => exact False.elim (atHub trivial)

end

end Hub

/-! ## All rows -/

theorem replayFrom_iff (simulates : Simulates root trace names store state place hub)
    {ops rows : List DiskOp} (selected : rows.Sublist ops) (allowed : trace.AllowsAll root ops)
    (reads : ∀ op ∈ ops, env.Reads op) : (∃ after, state.replayFrom env i rows = .ok after) ↔
      (∀ op ∈ rows, op.AvoidsHub root) ∧ names.FitsAll rows := by
  induction selected generalizing trace names store state place i with
  | slnil => simp [ReplayState.replayFrom, Naming.FitsAll]
  | @cons rows ops op _ ih =>
    obtain ⟨wellFormed, advances⟩ := simulates.wellFormed.apply allowed.1
    exact ih (simulates.advance wellFormed advances)
      allowed.2 fun op member => reads op (List.mem_cons_of_mem _ member)
  | @cons_cons rows ops op _ ih =>
    have opReads := reads op List.mem_cons_self
    simp only [ReplayState.replayFrom, Naming.FitsAll, List.forall_mem_cons]
    by_cases avoids : op.AvoidsHub root
    · by_cases fits : names.Fits op
      · obtain ⟨after, place', returned, following⟩ :=
          simulates.replayRow (i := i) allowed.1 avoids opReads fits
        have rest := ih (i := i + 1) following allowed.2
            fun op member => reads op (List.mem_cons_of_mem _ member)
        simp only [returned, ok_bind, fits, avoids, true_and]
        exact rest
      · obtain ⟨errno, stopped⟩ := simulates.replayRow_blocked (i := i) allowed.1 avoids opReads
            fits
        simp [stopped, fits]
    · obtain ⟨errno, stopped⟩ := simulates.replayRow_hub (i := i) allowed.1 opReads avoids
      simp [stopped, avoids]

theorem replayFrom_all (simulates : Simulates root trace names store state place hub)
    {ops : List DiskOp} (allowed : trace.AllowsAll root ops)
    (avoids : ∀ op ∈ ops, op.AvoidsHub root) (reads : ∀ op ∈ ops, env.Reads op)
    (fits : names.FitsAll ops) : ∃ after place', state.replayFrom env i ops = .ok after ∧
        Simulates root (ops.foldl Naming.apply trace)
          (ops.foldl Naming.apply names) (env.storeFrom i ops store) after
          place' hub := by
  induction ops generalizing trace names store state place i with
  | nil => exact ⟨state, place, rfl, simulates⟩
  | cons op rest ih =>
    obtain ⟨after, place', returned, following⟩ := simulates.replayRow (i := i) allowed.1
      (avoids op List.mem_cons_self) (reads op List.mem_cons_self) fits.1
    obtain ⟨final, place'', finished, done⟩ := ih (i := i + 1) following allowed.2
        (fun op member => avoids op (List.mem_cons_of_mem _ member))
        (fun op member => reads op (List.mem_cons_of_mem _ member)) fits.2
    refine ⟨final, place'', ?_, done⟩
    simp only [ReplayState.replayFrom, returned, ok_bind]
    exact finished

end Simulates

end Alice
