import Alice.Posix.Shape
import Alice.Replay.Rows

/-! # What a replay does not look at

The text in `stdout_file` and the data of files do not decide what a replay
does next or whether it raises. -/

namespace Alice

open Checked

namespace ReplayState

/-- A change that leaves alone all that a replay looks at: the paths that
exist, and `dirinode_map`. -/
structure Unseen (change : ReplayState → ReplayState) : Prop where
  dirinodeMap : ∀ state, (change state).dirinodeMap = state.dirinodeMap
  pathExists : ∀ state path, (change state).pathExists path = state.pathExists path
  setInodeDirectory : ∀ state inode path,
    (change state).setInodeDirectory inode path =
      change (state.setInodeDirectory inode path)
  create : ∀ state path,
    ((change state).osCreate fun tree fresh => tree.create path fresh) =
      (state.osCreate fun tree fresh => tree.create path fresh).map change
  mkdir : ∀ state path,
    ((change state).osCreate fun tree fresh => tree.mkdir path fresh) =
      (state.osCreate fun tree fresh => tree.mkdir path fresh).map change
  link : ∀ state source target,
    ((change state).osCall fun tree => tree.link source target) =
      (state.osCall fun tree => tree.link source target).map change
  unlink : ∀ state path,
    ((change state).osCall fun tree => tree.unlink path) =
      (state.osCall fun tree => tree.unlink path).map change
  rename : ∀ state source target,
    ((change state).osCall fun tree => tree.rename source target) =
      (state.osCall fun tree => tree.rename source target).map change

section

variable {change : ReplayState → ReplayState}

section

variable (unseen : Unseen change) (state : ReplayState)
include unseen state

theorem Unseen.isLinkedInodeDirectory (inode : Inode)
    : (change state).isLinkedInodeDirectory inode =
      state.isLinkedInodeDirectory inode := by
  unfold ReplayState.isLinkedInodeDirectory
  rw [unseen.dirinodeMap]

theorem Unseen.getInodeFile (inode : Inode) (mode : Option Mode)
    : (change state).getInodeFile inode mode =
      (state.getInodeFile inode mode).map change := by
  simp only [ReplayState.getInodeFile, unseen.pathExists, unseen.create]
  cases state.pathExists (inodePath inode) with
  | true => rfl
  | false => exact (bind_map_eq (checkMode mode) _ _).symm

theorem Unseen.getInodeDirectory (inode : Inode) (mode : Option Mode)
    : (change state).getInodeDirectory inode mode =
      (state.getInodeDirectory inode mode).map fun found =>
        (change found.1, found.2) := by
  simp only [ReplayState.getInodeDirectory, unseen.dirinodeMap]
  cases state.dirinodeMap inode with
  | some path => rfl
  | none =>
    simp only [unseen.mkdir, bind_map_eq, map_bind_eq, unseen.setInodeDirectory]
    rfl

theorem Unseen.createDirEntry (parent : Inode) (entry : Posix.Path) (inode : Inode)
    (mode : Option Mode) (entryType : EntryType) :
    (change state).createDirEntry parent entry inode mode entryType =
      (state.createDirEntry parent entry inode mode entryType).map
        change := by
  simp only [ReplayState.createDirEntry, unseen.getInodeDirectory, map_bind_eq, bind_map_eq]
  congr 1
  funext found
  cases entryType with
  | typeFile =>
    simp only [unseen.pathExists, unseen.unlink]
    cases found.1.pathExists (found.2 ++ [basename entry]) with
    | true =>
      simp only [if_true, map_bind_eq, bind_map_eq, unseen.pathExists,
        unseen.getInodeFile, unseen.link]
    | false =>
      simp only [Bool.false_eq_true, if_false, pure_bind, map_bind_eq,
        bind_map_eq, unseen.pathExists, unseen.getInodeFile, unseen.link]
  | typeDir =>
    simp only [unseen.isLinkedInodeDirectory, map_bind_eq, bind_map_eq,
      unseen.rename, unseen.setInodeDirectory]
    rfl

theorem Unseen.deleteDirEntry (parent : Inode) (entry : Posix.Path) (inode : Inode)
    (entryType : EntryType) :
    (change state).deleteDirEntry parent entry inode entryType =
      (state.deleteDirEntry parent entry inode entryType).map change := by
  simp only [ReplayState.deleteDirEntry, unseen.getInodeDirectory, map_bind_eq, bind_map_eq]
  congr 1
  funext found
  simp only [unseen.pathExists, unseen.unlink, unseen.rename]
  cases found.1.pathExists (found.2 ++ [basename entry]) with
  | true => cases entryType <;> rfl
  | false => rfl

end

end

/-! ## The text -/

def withStdout (state : ReplayState) (text : String) : ReplayState :=
  { state with stdout := text }

@[simp]
theorem withStdout_stdout (state : ReplayState) (text : String) :
    (state.withStdout text).stdout = text :=
  rfl

@[simp]
theorem withStdout_withStdout (state : ReplayState) (before text : String) :
    (state.withStdout before).withStdout text = state.withStdout text :=
  rfl

@[simp]
theorem withStdout_self (state : ReplayState) : state.withStdout state.stdout = state :=
  rfl

theorem osCall_withStdout (state : ReplayState) (text : String)
    (call : Posix.Tree → Except Posix.Errno Posix.Tree) : (state.withStdout text).osCall call =
      (state.osCall call).map fun after => after.withStdout text := by
  simp only [osCall, withStdout]
  cases call state.tree <;> rfl

theorem osCreate_withStdout (state : ReplayState) (text : String)
    (call : Posix.Tree → Posix.Ino → Except Posix.Errno Posix.Tree) :
    (state.withStdout text).osCreate call =
      (state.osCreate call).map fun after => after.withStdout text := by
  simp only [osCreate, osCall, withStdout]
  cases call state.tree state.next <;> rfl

theorem unseen_withStdout (text : String) : Unseen fun state => state.withStdout text where
  dirinodeMap _ := rfl
  pathExists _ _ := rfl
  setInodeDirectory _ _ _ := rfl
  create state _ := osCreate_withStdout state text _
  mkdir state _ := osCreate_withStdout state text _
  link state _ _ := osCall_withStdout state text _
  unlink state _ := osCall_withStdout state text _
  rename state _ _ := osCall_withStdout state text _

theorem modifyFile_withStdout (state : ReplayState) (text : String) (inode : Inode)
    (change : Posix.Bytes → Posix.Bytes) : (state.withStdout text).modifyFile inode change =
      (state.modifyFile inode change).map fun after =>
        after.withStdout text := by
  simp only [modifyFile, (unseen_withStdout text).getInodeFile, map_bind_eq,
    bind_map_eq, osCall_withStdout]

theorem replayRow_silent (env : ReplayEnv) (i : ℕ) (state : ReplayState) (text : String)
    {op : DiskOp} (silent : ∀ data, op ≠ .stdout data) :
    (state.withStdout text).replayRow env i op =
      (state.replayRow env i op).map fun after => after.withStdout text := by
  cases op with
  | createDirEntry => exact (unseen_withStdout text).createDirEntry ..
  | deleteDirEntry => exact (unseen_withStdout text).deleteDirEntry ..
  | truncate => exact modifyFile_withStdout ..
  | write op =>
    simp only [replayRow, (unseen_withStdout text).getInodeFile,
      map_bind_eq, bind_map_eq, modifyFile_withStdout]
  | stdout data => exact absurd rfl (silent data)
  | sync => rfl

theorem replayRow_withStdout (env : ReplayEnv) (i : ℕ) (state : ReplayState) (text : String)
    (op : DiskOp) : (state.withStdout text).replayRow env i op =
      ((state.withStdout "").replayRow env i op).map fun after =>
        after.withStdout (text ++ after.stdout) := by
  by_cases silent : ∀ data, op ≠ .stdout data
  · rw [replayRow_silent env i state text silent, replayRow_silent env i state "" silent]
    cases state.replayRow env i op <;> simp [Except.map]
  · push Not at silent
    rcases silent with ⟨data, equal⟩
    subst equal
    simp only [replayRow, bind_map_eq]
    congr 1

theorem replayFrom_withStdout (env : ReplayEnv) (rows : List DiskOp) :
    ∀ (i : ℕ) (state : ReplayState) (text : String), (state.withStdout text).replayFrom env i rows =
        ((state.withStdout "").replayFrom env i rows).map fun after =>
          after.withStdout (text ++ after.stdout) := by
  induction rows with
  | nil =>
    simp [replayFrom, Except.map]
  | cons op rest ih =>
    intro i state text
    simp only [replayFrom, replayRow_withStdout env i state text, map_bind_eq, bind_map_eq]
    congr 1
    funext next
    have anew := ih (i + 1) next next.stdout
    rw [withStdout_self] at anew
    rw [ih (i + 1) next (text ++ next.stdout), anew]
    cases (next.withStdout "").replayFrom env (i + 1) rest with
    | error error => rfl
    | ok after => simp [Except.map, String.append_assoc]

/-! ## The data -/

def shape (state : ReplayState) : ReplayState :=
  { state with tree := state.tree.shape }

@[simp]
theorem shape_shape (state : ReplayState) : state.shape.shape = state.shape := by
  simp only [shape, Posix.Tree.shape_shape]

theorem osCall_shape {call : Posix.Tree → Except Posix.Errno Posix.Tree}
    (commutes : ∀ tree, call tree.shape = (call tree).map Posix.Tree.shape) (state : ReplayState) :
    state.shape.osCall call = (state.osCall call).map shape := by
  simp only [osCall, shape, commutes]
  cases call state.tree <;> rfl

theorem osCreate_shape {call : Posix.Tree → Posix.Ino → Except Posix.Errno Posix.Tree}
    (commutes : ∀ tree fresh, call tree.shape fresh = (call tree fresh).map Posix.Tree.shape)
    (state : ReplayState) : state.shape.osCreate call = (state.osCreate call).map shape := by
  simp only [osCreate, osCall, shape, commutes]
  cases call state.tree state.next <;> rfl

theorem unseen_shape : Unseen shape where
  dirinodeMap _ := rfl
  pathExists state path := by
    unfold pathExists shape
    rw [Posix.Tree.resolve_shape]
  setInodeDirectory _ _ _ := rfl
  create state path := osCreate_shape (fun tree fresh => tree.create_shape path fresh) state
  mkdir state path := osCreate_shape (fun tree fresh => tree.mkdir_shape path fresh) state
  link state source target := osCall_shape (fun tree => tree.link_shape source target) state
  unlink state path := osCall_shape (fun tree => tree.unlink_shape path) state
  rename state source target := osCall_shape (fun tree => tree.rename_shape source target) state

theorem modifyFile_shape (state : ReplayState) (inode : Inode)
    (change : Posix.Bytes → Posix.Bytes) : (state.modifyFile inode change).map shape =
      state.shape.modifyFile inode fun _ => [] := by
  have unread : ∀ (state : ReplayState) path,
      (state.osCall fun tree => tree.modify path change).map shape =
        state.shape.osCall fun tree => tree.modify path fun _ => [] := by
    intro state path
    simp only [osCall, shape, ← Posix.Tree.modify_shape _ path change]
    cases state.tree.modify path change <;> rfl
  simp only [modifyFile, unseen_shape.getInodeFile, map_bind_eq, bind_map_eq, unread]

/-- Random bytes are there whenever they are needed. -/
theorem buffer_bind_congr {α : Type} (dumps : DumpFiles) (left right : ℕ → UInt8) (op : WriteOp)
    (result : Except PyError α) : (op.buffer dumps left >>= fun _ => result) =
      op.buffer dumps right >>= fun _ => result := by
  unfold WriteOp.buffer
  cases op.specialWrite with
  | none => rfl
  | some kind => cases kind <;> rfl

/-- The shape after a row depends on the shape before it, and on no random
byte. -/
theorem replayRow_shape (dumps : DumpFiles) (left right : ℕ → ℕ → UInt8) (i j : ℕ)
    (state : ReplayState) (op : DiskOp) : (state.replayRow ⟨dumps, left⟩ i op).map shape =
      (state.shape.replayRow ⟨dumps, right⟩ j op).map shape := by
  have twice : ∀ x : Except PyError ReplayState, (x.map shape).map shape = x.map shape := by
    intro x
    cases x with
    | error error => rfl
    | ok after => exact congrArg Except.ok after.shape_shape
  cases op with
  | createDirEntry => simp only [replayRow, unseen_shape.createDirEntry, twice]
  | deleteDirEntry => simp only [replayRow, unseen_shape.deleteDirEntry, twice]
  | truncate => simp only [replayRow, modifyFile_shape, shape_shape]
  | write op =>
    simp only [replayRow, unseen_shape.getInodeFile, map_bind_eq,
      bind_map_eq, modifyFile_shape, shape_shape]
    congr 1
    funext found
    exact buffer_bind_congr ..
  | stdout data =>
    simp only [replayRow, bind_map_eq]
    congr 1
    funext text
    exact congrArg Except.ok (shape_shape _).symm
  | sync => exact congrArg Except.ok state.shape_shape.symm

theorem replayFrom_shape
    {dumps : DumpFiles} {left right : ℕ → ℕ → UInt8} {rows : List DiskOp} :
    ∀ {i j : ℕ} {state state' : ReplayState}, state.shape = state'.shape →
      (state.replayFrom ⟨dumps, left⟩ i rows).map shape =
        (state'.replayFrom ⟨dumps, right⟩ j rows).map shape := by
  induction rows with
  | nil =>
    intro i j state state' same
    exact congrArg Except.ok same
  | cons op rest ih =>
    intro i j state state' same
    have row : (state.replayRow ⟨dumps, left⟩ i op).map shape =
        (state'.replayRow ⟨dumps, right⟩ j op).map shape := by
      rw [replayRow_shape dumps left right i j state op,
        replayRow_shape dumps right right j j state' op, same]
    simp only [replayFrom]
    cases first : state.replayRow ⟨dumps, left⟩ i op with
    | error error =>
      cases second : state'.replayRow ⟨dumps, right⟩ j op with
      | error error' =>
        rw [first, second] at row
        cases row
        rfl
      | ok next' =>
        rw [first, second] at row
        cases row
    | ok next =>
      cases second : state'.replayRow ⟨dumps, right⟩ j op with
      | error error' =>
        rw [first, second] at row
        cases row
      | ok next' =>
        rw [first, second] at row
        exact ih (Except.ok.inj row)

end ReplayState

theorem replayDiskOps_returns_congr {dumps : DumpFiles} {left : ℕ → ℕ → UInt8}
    {snapshot : Snapshot} {rows : List DiskOp} {crash : CrashState}
    (returned : replayDiskOps ⟨dumps, left⟩ snapshot rows = .ok crash) (right : ℕ → ℕ → UInt8) :
    ∃ crash', replayDiskOps ⟨dumps, right⟩ snapshot rows = .ok crash' := by
  rcases bind_eq_ok_iff.1 returned with ⟨start, made, returned⟩
  rcases bind_eq_ok_iff.1 returned with ⟨final, run, -⟩
  have shapes := @ReplayState.replayFrom_shape dumps left right rows 0 0 start start rfl
  rw [run] at shapes
  cases other : start.replayFrom ⟨dumps, right⟩ 0 rows with
  | error error =>
    rw [other] at shapes
    cases shapes
  | ok final' =>
    refine ⟨⟨final'.tree.dropEntry final'.tree.root inodesName, final'.stdout⟩, ?_⟩
    rw [replayDiskOps, made, ok_bind, other]
    rfl

end Alice
