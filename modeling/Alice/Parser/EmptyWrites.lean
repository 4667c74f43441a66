import Alice.Parser.WriteSplit

/-! # Writes of no bytes

In front of the end the branch of the write family asserts that something is
overwritten, behind the end it fills the gap that a write would leave, and
only at the end nothing happens. -/

namespace Alice

/-- No error, no operation, and the sizes of all files and the descriptor are
as before. -/
def EmptyWriteHarmless (env : ParserEnv) (state : ParserState) (line : Line) (fd : ℤ) : Prop :=
  ∃ after, getMicroOp env state line = .ok (after, []) ∧
    (∀ ino, after.pad.sizeOf? ino = state.pad.sizeOf? ino) ∧
    after.tracker.fdtracker.details fd = state.tracker.fdtracker.details fd

section

variable {env : ParserEnv} {state after : ParserState} {line : Line}
  {args : WriteArgs} {details : FdDetails}

theorem getMicroOp_eq_nil_iff (isWrite : line.call.writeArgs? = some args) :
    getMicroOp env state line = .ok (after, []) ↔ emit env state line = .ok (after, []) := by
  have isCall : ∃ syscall, line.call.syscall = some syscall := by
    cases call : line.call with
    | write | writev | pwrite | pwritev => exact ⟨_, rfl⟩
    | _ =>
      rw [call] at isWrite
      cases isWrite
  obtain ⟨syscall, isCall⟩ := isCall
  unfold getMicroOp
  cases emit env state line with
  | error => simp
  | ok emission => simp [isCall, Prod.ext_iff]

theorem setPos_same {fds : FileDescriptorTracker} {fd : ℤ} (found : fds.details fd = .ok details) :
    fds.setPos fd details.pos = .ok fds := by
  unfold FileDescriptorTracker.details at found
  unfold FileDescriptorTracker.setPos
  cases lookup : fds.fds.lookup fd with
  | none =>
    rw [lookup] at found
    cases found
  | some i =>
    rw [lookup, Option.bind_some] at found
    cases entry : fds.structs[i]? with
    | none =>
      rw [entry] at found
      cases found
    | some here =>
      rw [entry] at found
      obtain rfl := Except.ok.inj found
      have unchanged : fds.structs.modify i (fun other => { other with pos := here.pos }) =
            fds.structs := by
        apply List.ext_getElem?
        intro k
        by_cases same : i = k
        · subst same
          simp [entry]
        · simp [same]
      simp only [unchanged]

theorem movePos_same (watched : state.tracker.fdtracker.details args.fd = .ok details) :
    state.movePos args.fd args.position (args.pos details) = .ok state := by
  unfold ParserState.movePos WriteArgs.pos
  cases args.position with
  | some position => rfl
  | none =>
    simp only [Option.getD_none, setPos_same watched]
    rfl

theorem emit_of_atEnd {stat : Stat} (isWrite : line.call.writeArgs? = some args)
    (empty : args.count = 0) (succeeded : line.ret = 0) (notAlias : (args.fd, 1) ∉ state.myTracker)
    (watched : state.tracker.fdtracker.details args.fd = .ok details)
    (statEq : state.stat? env details.name = some stat) (atEnd : args.pos details = stat.size) :
    emit env state line = .ok (state, []) := by
  rw [emit_write_eq_ok_iff isWrite notAlias watched]
  refine ⟨stat, ?_, statEq, ?_, ?_, state, ?_, ?_⟩
  · rw [succeeded, empty]
    rfl
  · intro less
    omega
  · rw [atEnd, splitOps_at_end, if_pos empty]
  · exact ParserState.growFile_within env state details.name (by omega)
  · rw [empty, Nat.add_zero]
    exact movePos_same watched

end

/-- An empty write is harmless exactly at the end of the file. -/
theorem empty_write_harmless_iff
    (env : ParserEnv) (state : ParserState) (line : Line) (args : WriteArgs)
    (details : FdDetails)
    (isWrite : line.call.writeArgs? = some args)
    (empty : args.count = 0)
    (succeeded : line.ret = 0)
    (watched : state.tracker.fdtracker.details args.fd = .ok details) :
    EmptyWriteHarmless env state line args.fd ↔
      (args.fd, 1) ∉ state.myTracker ∧
        ∃ stat, state.stat? env details.name = some stat ∧
          args.pos details = stat.size := by
  constructor
  · rintro ⟨after, ran, _⟩
    rw [getMicroOp_eq_nil_iff isWrite] at ran
    have notAlias : (args.fd, 1) ∉ state.myTracker := by
      intro aliased
      obtain ⟨data, isStdout⟩ := ops_of_alias isWrite aliased ran
      cases isStdout
    obtain ⟨stat, written⟩ := (emit_write_eq_ok_iff isWrite notAlias watched after []).1 ran
    refine ⟨notAlias, stat, written.stat_eq, ?_⟩
    have noOps := written.ops_eq
    rcases Nat.lt_trichotomy (args.pos details) stat.size with
      before | atEnd | behind
    · obtain ⟨range, rest, isWrite⟩ := splitOps_of_lt details args.dump args.count before
      rw [isWrite] at noOps
      cases noOps
    · exact atEnd
    · obtain ⟨rest, isTrunc⟩ := splitOps_of_gt details args.dump args.count behind
      rw [isTrunc] at noOps
      cases noOps
  · rintro ⟨notAlias, stat, statEq, atEnd⟩
    refine ⟨state, ?_, fun _ => rfl, rfl⟩
    rw [getMicroOp_eq_nil_iff isWrite]
    exact emit_of_atEnd isWrite empty succeeded notAlias watched statEq atEnd

/-- A write of no bytes to a file that was just created. -/
theorem empty_write_harmless_iff_opened :
    ∃ opened ops,
      emit workloadEnv (.init emptyScratchpad)
        ⟨.openFile ["workload", "log"] [.oCreat, .oWronly] (some "0666"), 3,
          12, ""⟩ = .ok (opened, ops) ∧
      (EmptyWriteHarmless workloadEnv opened
          ⟨.write 3 0 ⟨"dump", 0⟩, 0, 0, ""⟩ 3 ↔
        (3, 1) ∉ opened.myTracker ∧
          ∃ stat, opened.stat? workloadEnv ["workload", "log"] =
              some stat ∧ 0 = stat.size) :=
  ⟨_, _, rfl, empty_write_harmless_iff workloadEnv _
    ⟨.write 3 0 ⟨"dump", 0⟩, 0, 0, ""⟩ ⟨3, 0, 0, none, ⟨"dump", 0⟩⟩
    ⟨["workload", "log"], 0, [], 12⟩ rfl rfl rfl rfl⟩

/-- A file is created and two bytes are written to it. -/
def twoBytesWritten : List Line :=
  [⟨.openFile ["workload", "log"] [.oCreat, .oWronly] (some "0666"), 3, 12,
      ""⟩,
    ⟨.write 3 2 ⟨"dump", 0⟩, 2, 0, ""⟩]

/-- No bytes at the start of the file violate the assertion. -/
theorem empty_pwrite_raises :
    ∃ opened written,
      (emit workloadEnv (.init emptyScratchpad) twoBytesWritten[0]).map
          Prod.fst = .ok opened ∧
        (emit workloadEnv opened twoBytesWritten[1]).map Prod.fst =
          .ok written ∧
        getMicroOp workloadEnv written
            ⟨.pwrite 3 0 0 ⟨"dump", 0⟩, 0, 0, ""⟩ =
          .error .assertionError ∧
        ¬ EmptyWriteHarmless workloadEnv written
          ⟨.pwrite 3 0 0 ⟨"dump", 0⟩, 0, 0, ""⟩ 3 := by
  refine ⟨_, _, rfl, rfl, rfl, ?_⟩
  rintro ⟨after, ran, _⟩
  cases ran

end Alice
