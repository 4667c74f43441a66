import Alice.Parser.Renames
import Alice.Parser.TraceFiles

/-! # The modes of new directories

The tracer prints a mode in octal with a leading zero, and the text is
evaluated as an expression, where such a numeral is not allowed.  One text,
`0777`, is replaced before, but not where a symbolic link becomes a
directory. -/

namespace Alice

open Checked

open Posix (Ino Path Tree)

/-! ## Printed modes -/

/-- `%#lo`. -/
def printedMode (value : ℕ) : String :=
  if value = 0 then "0" else String.ofList ('0' :: Nat.toDigits 8 value)

theorem ofDigitChars_mono {small large : ℕ} (le : small ≤ large) (digits : List Char) :
    ∀ {first second : ℕ}, first ≤ second → Nat.ofDigitChars small digits first ≤
        Nat.ofDigitChars large digits second := by
  induction digits with
  | nil =>
    intro first second start
    exact start
  | cons digit rest ih =>
    intro first second start
    exact ih (Nat.add_le_add_right (Nat.mul_le_mul le start) _)

theorem printedMode_eq_iff {value : ℕ} : printedMode value = "0777" ↔ value = 0o777 := by
  constructor
  · intro printed
    unfold printedMode at printed
    split_ifs at printed with isZero
    · exact absurd printed (by decide)
    · have digits := congrArg String.toList printed
      rw [String.toList_ofList] at digits
      have octal : Nat.toDigits 8 value = ['7', '7', '7'] := List.tail_eq_of_cons_eq digits
      rw [← @Nat.ofDigitChars_toDigits 8 value (by decide) (by decide), octal]
      rfl
  · rintro rfl
    rfl

/-- Of the printed modes only zero can be evaluated. -/
theorem evalMode_printedMode (value : ℕ) : evalMode (printedMode value) =
      if value = 0 then .ok 0 else .error .syntaxError := by
  by_cases isZero : value = 0
  · rw [if_pos isZero, isZero]
    rfl
  · rw [if_neg isZero, printedMode, if_neg isZero]
    have isDigit : ∀ char ∈ '0' :: Nat.toDigits 8 value, char.isDigit = true := by
      intro char member
      rcases List.mem_cons.1 member with rfl | member
      · rfl
      · exact Nat.isDigit_of_mem_toDigits (by decide) (by decide) member
    have read := digitsValue_of_isDigit (List.cons_ne_nil _ _) isDigit
    have positive : 0 < Nat.ofDigitChars 10 ('0' :: Nat.toDigits 8 value) 0 := by
      calc 0 < value := Nat.pos_of_ne_zero isZero
        _ = Nat.ofDigitChars 8 (Nat.toDigits 8 value) 0 :=
          (Nat.ofDigitChars_toDigits (by decide) (by decide)).symm
        _ ≤ Nat.ofDigitChars 10 (Nat.toDigits 8 value) 0 := ofDigitChars_mono (by decide) _ le_rfl
    unfold evalMode
    rw [String.toList_ofList]
    split
    · rename_i digits octal
      have notDigit := isDigit 'o' (by rw [octal]; simp)
      cases notDigit
    · rw [read]
      split
      · rename_i isNull
        rw [Option.some.inj isNull] at positive
        cases positive
      · rfl
      · rename_i absurdity
        cases absurdity

/-! ## New directories -/

/-- An interesting path whose parent exists and that leads nowhere, and a
number that the host has not given away. -/
structure FreeName (env : ParserEnv) (state : ParserState) (name : Path) (fresh : Ino) : Prop where
  interesting : env.isInteresting name = true
  unused : state.pad.tree.node fresh = none
  parent : ∃ directory entry,
    state.pad.tree.parentOf (env.replayedPath name) =
        .ok (directory, entry) ∧
      state.pad.tree.child directory entry = none

section

variable {env : ParserEnv} {state : ParserState} {name : Path} {fresh : Ino}

theorem FreeName.makes (free : FreeName env state name fresh) : ∃ pad stat parent,
      state.pad.osCreate fresh (fun tree =>
          tree.mkdir (env.replayedPath name) fresh) = .ok pad ∧
        ParserState.stat env { state with pad := pad } name = .ok stat ∧
        ParserState.parentInode env { state with pad := pad } name = .ok parent := by
  obtain ⟨dir, entry, parentOf, absent⟩ := free.parent
  obtain ⟨front, isConcat, resolved, isDirectory⟩ := Tree.parentOf_eq_ok_iff.1 parentOf
  have made := Tree.mkdir_concat resolved isDirectory absent fresh
  have adds := Tree.adds_emptyDir free.unused isDirectory entry
  have different : dir ≠ fresh := by
    intro same
    rw [same] at isDirectory
    exact Tree.node_isSome_of_isDir isDirectory free.unused
  let after := (state.pad.tree.setNode fresh (.dir ∅)).bindEntry dir entry fresh
  let pad : Scratchpad := ⟨after, state.pad.inodes.insert fresh⟩
  have frontAfter : after.resolve front = some dir := adds.keepsPaths absent front dir resolved
  have directoryAfter : after.isDir dir = true := by
    rw [adds.isDir dir different]
    exact isDirectory
  have found : after.resolve (env.replayedPath name) = some fresh := by
    rw [isConcat, Tree.resolve_concat, frontAfter, Option.bind_some, adds.child, if_pos ⟨rfl, rfl⟩]
  have isDirAfter : after.isDir fresh = true := by
    have stillDir : (state.pad.tree.setNode fresh (.dir ∅)).isDir dir = true := by
      simpa [Tree.isDir, Tree.entries, Tree.setNode, different] using isDirectory
    rw [(Tree.rebinds_bindEntry stillDir entry fresh).isDir]
    simp [Tree.isDir, Tree.entries, Tree.setNode]
  obtain ⟨entries, node⟩ := Tree.isDir_iff.1 isDirAfter
  refine ⟨pad, ⟨fresh, (env.dirStat after fresh).1,
    (env.dirStat after fresh).2, true⟩, dir, ?_, ?_, ?_⟩
  · unfold Scratchpad.osCreate Scratchpad.osCall
    simp only [isConcat, made]
    rfl
  · rw [stat_eq_ok_iff, ParserState.stat?_of_resolve found]
    simp only [Scratchpad.statInode, pad, node]
  · apply Scratchpad.parentInode_of_parentOf
    exact Tree.parentOf_eq_ok_iff.2 ⟨front, isConcat, frontAfter, directoryAfter⟩

end

/-- The calls that make a directory, with its name and mode. -/
inductive MakesDir (env : ParserEnv) (state : ParserState) : Call → Path → ℕ → Prop
  | mkdir (name : Path) (value : ℕ) :
      MakesDir env state (.mkdir name (printedMode value)) name value
  | symlink (source dest : Path)
      (interesting : env.isInteresting source = true)
      (isDir : ((state.stat? env source).any Stat.isDir) = true) :
      MakesDir env state (.symlink source dest) dest 0o777

/-- One logical operation, and one entry with the mode as a number. -/
def MadeWithMode (fs : Defaultfs) (env : ParserEnv) (state : ParserState) (line : Line)
    (name : Path) (value : ℕ) : Prop :=
  ∃ after mode inode parent syscall,
    getMicroOp env state line =
        .ok (after, [⟨.mkdir name mode inode parent, syscall⟩]) ∧
      fs.getDiskOps (.mkdir name mode inode parent) =
        .ok [.createDirEntry parent name inode (some (.number value))
          .typeDir]

section

variable {fs : Defaultfs} {env : ParserEnv} {state : ParserState}
  {line : Line} {name : Path} {value : ℕ}

theorem getDiskOps_mkdir_eq_ok_iff {mode : String} {inode parent : Inode} :
    fs.getDiskOps (.mkdir name mode inode parent) =
        .ok [.createDirEntry parent name inode (some (.number value)) .typeDir] ↔
      evalMode mode = .ok value := by
  simp only [Defaultfs.getDiskOps, Defaultfs.linkDiskOps, bind_eq_ok_iff, pure_eq_ok_iff]
  simp

theorem evalMode_replaced (value : ℕ) : evalMode (if printedMode value = "0777" then "0o777"
        else printedMode value) =
      if value = 0 ∨ value = 0o777 then .ok value
      else .error .syntaxError := by
  by_cases isAll : value = 0o777
  · rw [if_pos (printedMode_eq_iff.2 isAll), if_pos (Or.inr isAll), isAll]
    rfl
  · rw [if_neg (mt printedMode_eq_iff.1 isAll), evalMode_printedMode]
    by_cases isZero : value = 0
    · rw [if_pos isZero, if_pos (Or.inl isZero), isZero]
    · rw [if_neg isZero, if_neg (not_or.2 ⟨isZero, isAll⟩)]

theorem madeWithMode_mkdir_iff (call : line.call = .mkdir name (printedMode value))
    (free : FreeName env state name line.fresh) (succeeded : line.ret ≠ -1) :
    MadeWithMode fs env state line name value ↔ value = 0 ∨ value = 0o777 := by
  have evaluated := evalMode_replaced value
  constructor
  · rintro ⟨after, mode, inode, parent, syscall, ran, -⟩
    by_contra other
    rw [if_neg other] at evaluated
    simp only [getMicroOp, emit, call, ParserState.mkdirBranch,
      if_pos (And.intro succeeded free.interesting), evaluated, error_bind] at ran
    cases ran
  · intro works
    rw [if_pos works] at evaluated
    obtain ⟨pad, stat, parent, made, statEq, parentEq⟩ := free.makes
    refine ⟨{ state with pad := pad }, _, stat.ino, parent, .mkdir, ?_,
      getDiskOps_mkdir_eq_ok_iff.2 evaluated⟩
    simp only [getMicroOp, emit, call, ParserState.mkdirBranch,
      if_pos (And.intro succeeded free.interesting), evaluated, ok_bind, made, statEq, parentEq]
    rfl

theorem not_madeWithMode_symlink {source : Path} (call : line.call = .symlink source name)
    (interesting : env.isInteresting source = true)
    (isDir : ((state.stat? env source).any Stat.isDir) = true)
    (free : FreeName env state name line.fresh) (succeeded : line.ret ≠ -1) :
    ¬ MadeWithMode fs env state line name value := by
  rintro ⟨after, mode, inode, parent, syscall, ran, expanded⟩
  obtain ⟨pad, stat, above, made, statEq, parentEq⟩ := free.makes
  simp only [getMicroOp, emit, call, ParserState.symlinkBranch,
    if_pos (And.intro succeeded free.interesting), interesting, isDir,
    Bool.and_self, if_true, ok_bind, made, statEq, parentEq] at ran
  cases ran
  cases expanded

end

theorem freeName_workload : FreeName workloadEnv (.init emptyScratchpad)
    ["workload", "d"] 12 :=
  ⟨rfl, rfl, 2, "d", rfl, rfl⟩

end Alice
