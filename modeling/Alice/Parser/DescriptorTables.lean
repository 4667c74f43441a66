import Alice.Parser.WriteSplit
import Alice.Posix.Descriptors

/-! # The descriptor table of a tracker

`open`, `close` and the `dup` family change the table of a tracker as they
change that of the process, except that a descriptor duplicated onto itself is
lost. -/

namespace Alice

open Checked ParserState FileDescriptorTracker
open Posix (Path Tree Descriptors DescriptorCall)

/-! ## Operations of a tracker -/

namespace FileDescriptorTracker

/-- The numbers of the `Struct`s that the descriptors lead to. -/
def table (tracker : FileDescriptorTracker) : Descriptors ℕ :=
  fun fd => tracker.fds.lookup fd

section

variable {tracker after : FileDescriptorTracker} {fd : ℤ}

theorem isWatched_eq_false_iff : tracker.isWatched fd = false ↔ tracker.table fd = none := by
  simp [isWatched, table]

theorem table_insert (tracker : FileDescriptorTracker) (fd : ℤ) (number : ℕ)
    (structs : List FdDetails) : table ⟨tracker.fds.insert fd number, structs⟩ =
      Function.update tracker.table fd (some number) := by
  funext other
  by_cases same : other = fd
  · subst same
    simp [table]
  · simp [table, same, AList.lookup_insert_ne same]

theorem table_erase (tracker : FileDescriptorTracker) (fd : ℤ) (structs : List FdDetails) :
    table ⟨tracker.fds.erase fd, structs⟩ = Function.update tracker.table fd none := by
  funext other
  by_cases same : other = fd
  · subst same
    simp [table]
  · simp [table, same, AList.lookup_erase_ne same]

theorem newFdMapping_ok {details : FdDetails} (ran : tracker.newFdMapping fd details = .ok after) :
    tracker.table fd = none ∧ after.table =
        (DescriptorCall.opens fd (some tracker.structs.length)).apply tracker.table ∧
      after.structs = tracker.structs ++ [details] := by
  unfold newFdMapping at ran
  split_ifs at ran with watched
  cases ran
  exact ⟨isWatched_eq_false_iff.1 (by simpa using watched), table_insert tracker fd _ _, rfl⟩

theorem setEquivalent_ok {oldfd newfd : ℤ} (ran : tracker.setEquivalent oldfd newfd = .ok after) :
    after.table = (DescriptorCall.dups oldfd newfd).apply tracker.table ∧
      after.structs = tracker.structs := by
  unfold setEquivalent at ran
  cases found : tracker.fds.lookup oldfd with
  | none =>
    simp only [found] at ran
    cases ran
  | some number =>
    simp only [found] at ran
    split_ifs at ran
    cases ran
    refine ⟨?_, rfl⟩
    have held : tracker.table oldfd = some number := found
    rw [DescriptorCall.apply, held]
    exact table_insert tracker newfd number tracker.structs

theorem removeFdMapping_ok (ran : tracker.removeFdMapping fd = .ok after) :
    after.table = (DescriptorCall.closes fd).apply tracker.table ∧
      after.structs = tracker.structs := by
  unfold removeFdMapping at ran
  split_ifs at ran
  cases ran
  exact ⟨table_erase tracker fd tracker.structs, rfl⟩

theorem setPos_ok {pos : ℕ} (ran : tracker.setPos fd pos = .ok after) :
    ∃ number, tracker.table fd = some number ∧ after.table = tracker.table ∧
      after.structs = tracker.structs.modify number fun details =>
        { details with pos := pos } := by
  unfold setPos at ran
  cases found : tracker.fds.lookup fd with
  | none =>
    simp only [found] at ran
    cases ran
  | some number =>
    simp only [found] at ran
    cases ran
    exact ⟨number, found, rfl, rfl⟩

theorem details_eq_ok_iff {details : FdDetails} : tracker.details fd = .ok details ↔
      ∃ number, tracker.table fd = some number ∧ tracker.structs[number]? = some details := by
  unfold FileDescriptorTracker.details table
  cases lookup : tracker.fds.lookup fd with
  | none => simp
  | some number =>
    cases found : tracker.structs[number]? with
    | none => simp [found]
    | some held => simp [found]

end

end FileDescriptorTracker

/-! ## Calls on descriptors -/

/-- How the parser follows a call: a descriptor that is duplicated onto itself
is taken for closed. -/
def followed {δ : Type} : DescriptorCall δ → DescriptorCall δ
  | .dupsOnto old new =>
      if old = new then .closes old else .dupsOnto old new
  | call => call

theorem view_followed {δ ε : Type} (see : δ → Option ε) (call : DescriptorCall δ) :
    (followed call).view see = followed (call.view see) := by
  cases call with
  | dupsOnto old new =>
    simp only [followed, DescriptorCall.view]
    split_ifs <;> rfl
  | opens | closes | dups | keeps => rfl

/-- The parser knows no other descriptors than the process has. -/
theorem within_followed {δ : Type} {known table : Descriptors δ} (within : known.Within table)
    (call : DescriptorCall δ) : ((followed call).apply known).Within (call.apply table) := by
  cases call with
  | dupsOnto old new =>
    by_cases same : old = new
    · subst same
      rw [followed, if_pos rfl, DescriptorCall.apply_dupsOnto_self]
      exact within.closes old
    · rw [followed, if_neg same]
      exact within.apply _
  | opens | closes | dups | keeps => exact within.apply _

namespace Line

/-- The path of a file that the parser is going to watch.  A directory that is
opened with `O_DIRECTORY` is not watched. -/
def watchedPath? (env : ParserEnv) (line : Line) : Option Path :=
  match line.call with
  | .openFile path flags _ | .openat path flags _ =>
      if 0 ≤ line.ret ∧ env.isInteresting path = true ∧ OpenFlag.oDirectory ∉ flags then
        some path
      else
        none
  | _ => none

/-- What the line does to the descriptor table of its process; `target` is
what a new descriptor refers to. -/
def descriptorCall {δ : Type} (line : Line) (target : Option δ) : DescriptorCall δ :=
  match line.call with
  | .openFile _ _ _ | .openat _ _ _ =>
      if 0 ≤ line.ret then .opens line.ret target else .keeps
  | .close fd => if line.ret = -1 then .keeps else .closes fd
  | .dup old | .fcntlDupfd old =>
      if line.ret = -1 then .keeps else .dups old line.ret
  | .dup2 old => if line.ret = -1 then .keeps else .dupsOnto old line.ret
  | _ => .keeps

theorem view_descriptorCall {δ ε : Type} (line : Line) (target : Option δ) (see : δ → Option ε) :
    (line.descriptorCall target).view see = line.descriptorCall (target.bind see) := by
  unfold descriptorCall
  split <;> first | rfl | (split_ifs <;> rfl)

/-- The descriptor that is taken into use does not depend on what it refers
to. -/
theorem taken_descriptorCall {δ ε : Type} (line : Line) (target : Option δ) (target' : Option ε) :
    (line.descriptorCall target).taken = (line.descriptorCall target').taken := by
  unfold descriptorCall
  split <;> first | rfl | (split_ifs <;> rfl)

theorem eq_of_opens {line : Line} {target : Option ℕ} {fd : ℤ} {number : ℕ}
    (opens : followed (line.descriptorCall target) = .opens fd (some number)) :
    target = some number := by
  unfold descriptorCall at opens
  split at opens <;> (try split_ifs at opens) <;>
    simp only [followed] at opens <;> (try split_ifs at opens) <;>
    cases opens <;> rfl

section

variable {α : Type} {values opened : List α} {table : Descriptors ℕ}
  {path? : Option Path}

/-- What is opened has the next number, and no descriptor has it yet. -/
theorem view_followed_apply (line : Line)
    (bound : ∀ fd number, table fd = some number → number < values.length) :
    ((followed (line.descriptorCall (path?.map fun _ =>
        values.length))).apply table).view (fun number => (values ++ opened)[number]?) =
      (followed (line.descriptorCall (path?.bind fun _ =>
        opened.head?))).apply (table.view fun number => values[number]?) := by
  have old : table.view (fun number => (values ++ opened)[number]?) =
      table.view fun number => values[number]? := by
    apply Descriptors.view_congr
    intro fd number held
    exact List.getElem?_append_left (bound fd number held)
  have target : ((path?.map fun _ => values.length).bind
      fun number => (values ++ opened)[number]?) = path?.bind fun _ => opened.head? := by
    cases path? with
    | none => rfl
    | some path =>
      rw [Option.map_some, Option.bind_some, Option.bind_some,
        List.getElem?_append_right (Nat.le_refl _), Nat.sub_self, List.head?_eq_getElem?]
  rw [Descriptors.view_apply, view_followed, view_descriptorCall, old, target]

theorem lt_length_of_followed_apply (line : Line)
    (bound : ∀ fd number, table fd = some number → number < values.length)
    (nonempty : path? ≠ none → opened ≠ []) {fd : ℤ} {number : ℕ}
    (held : (followed (line.descriptorCall (path?.map fun _ =>
      values.length))).apply table fd = some number) :
    number < (values ++ opened).length := by
  rw [List.length_append]
  rcases DescriptorCall.exists_of_apply held with
    ⟨other, held⟩ | ⟨other, opens⟩
  · exact Nat.lt_add_right _ (bound other number held)
  · obtain ⟨path, isPath, isNumber⟩ := Option.map_eq_some_iff.1 (eq_of_opens opens)
    rw [← isNumber]
    exact Nat.lt_add_of_pos_right (List.length_pos_iff.2
      (nonempty (isPath ▸ Option.some_ne_none path)))

end

/-- The descriptor that a line makes an alias of the terminal, as the parser
sees it. -/
def stdoutAlias? (line : Line) : Option ℤ :=
  match line.call with
  | .fcntlDupfd fd => if line.ret ≠ -1 ∧ fd = 1 then some line.ret else none
  | _ => none

end Line

/-- The table and the objects are all that changes of the tracker of watched
descriptors. -/
structure Rewired (state after : ParserState) (call : DescriptorCall ℕ) : Prop where
  pad : after.pad = state.pad
  structs : after.tracker.fdtracker.structs = state.tracker.fdtracker.structs
  table : after.tracker.fdtracker.table = call.apply state.tracker.fdtracker.table

/-- The terminal is seen as before. -/
structure SameTerminal (state after : ParserState) : Prop where
  myTracker : after.myTracker = state.myTracker
  stdtracker : after.tracker.stdtracker = state.tracker.stdtracker

namespace ParserState

variable {env : ParserEnv} {state after : ParserState} {line : Line}
  {ops : List MicroOpKind}

theorem rewired_refl (state : ParserState) : Rewired state state .keeps :=
  ⟨rfl, rfl, rfl⟩

variable {fd : ℤ} {middle : ParserState} {name : Path} {flags : List OpenFlag}
  {mode : Option String}

theorem rewired_closes_of_unwatched (unwatched : state.tracker.fdtracker.isWatched fd = false)
    (samePad : after.pad = state.pad)
    (sameFds : after.tracker.fdtracker = state.tracker.fdtracker) :
    Rewired state after (.closes fd) := by
  refine ⟨samePad, by rw [sameFds], ?_⟩
  have free := isWatched_eq_false_iff.1 unwatched
  rw [sameFds, DescriptorCall.apply, ← free, Function.update_eq_self]

theorem rewired_dups_of_unwatched {old new : ℤ}
    (unwatched : state.tracker.fdtracker.isWatched old = false)
    (free : state.tracker.fdtracker.table new = none) (samePad : after.pad = state.pad)
    (sameFds : after.tracker.fdtracker = state.tracker.fdtracker) :
    Rewired state after (.dups old new) := by
  refine ⟨samePad, by rw [sameFds], ?_⟩
  have oldFree := isWatched_eq_false_iff.1 unwatched
  rw [sameFds, DescriptorCall.apply, oldFree, ← free, Function.update_eq_self]

theorem closeBranch_spec (ran : state.closeBranch line fd = .ok (after, ops)) : Rewired state after
        (if line.ret = -1 then .keeps else .closes fd) ∧
      SameTerminal state after := by
  unfold closeBranch at ran
  split_ifs at ran ⊢ with failed watched unwatched
  · cases ran
    exact ⟨rewired_refl state, rfl, rfl⟩
  · rcases bind_eq_ok_iff.1 ran with ⟨fds, removed, ran⟩
    cases ran
    have spec := removeFdMapping_ok removed
    exact ⟨⟨rfl, spec.2, spec.1⟩, rfl, rfl⟩
  · rcases bind_eq_ok_iff.1 ran with ⟨fds, removed, ran⟩
    cases ran
    exact ⟨rewired_closes_of_unwatched (by simpa using watched) rfl rfl,
      rfl, rfl⟩
  · cases ran
    exact ⟨rewired_closes_of_unwatched (by simpa using watched) rfl rfl,
      rfl, rfl⟩

/-- The second half of the `dup` branch. -/
def setDuplicate (state : ParserState) (old new : ℤ) : Emission :=
  if state.tracker.fdtracker.isWatched old then
    (state.tracker.fdtracker.setEquivalent old new).map fun fds =>
      (state.withFds fds, [])
  else if state.tracker.fdtrackerUnwatched.isWatched old then
    (state.tracker.fdtrackerUnwatched.setEquivalent old new).map fun fds =>
      (state.withUnwatched fds, [])
  else
    .ok (state, [])

theorem setDuplicate_spec {old new : ℤ} (ran : state.setDuplicate old new = .ok (after, ops))
    (free : state.tracker.fdtracker.table new = none) :
    Rewired state after (.dups old new) ∧ SameTerminal state after := by
  unfold setDuplicate at ran
  split_ifs at ran with watched unwatched
  · rcases map_eq_ok_iff.1 ran with ⟨fds, set, equal⟩
    cases equal
    have spec := setEquivalent_ok set
    exact ⟨⟨rfl, spec.2, spec.1⟩, rfl, rfl⟩
  · rcases map_eq_ok_iff.1 ran with ⟨fds, set, equal⟩
    cases equal
    exact ⟨rewired_dups_of_unwatched (by simpa using watched) free rfl rfl,
      rfl, rfl⟩
  · cases ran
    exact ⟨rewired_dups_of_unwatched (by simpa using watched) free rfl rfl,
      rfl, rfl⟩

/-- The first half of the `dup2` branch closes the new descriptor. -/
theorem dupBranch_eq (replaces : Bool) (oldfd : ℤ) (succeeded : line.ret ≠ -1) :
    state.dupBranch replaces line oldfd =
      if replaces then
        (state.closeBranch ⟨line.call, 0, line.fresh, line.uuid⟩ line.ret) >>=
          fun closed => closed.1.setDuplicate oldfd line.ret
      else
        state.setDuplicate oldfd line.ret := by
  have second : ∀ state : ParserState, (if state.tracker.fdtracker.isWatched oldfd then do
          pure (state.withFds (← state.tracker.fdtracker.setEquivalent oldfd line.ret), [])
        else if state.tracker.fdtrackerUnwatched.isWatched oldfd then do
          pure (state.withUnwatched (← state.tracker.fdtrackerUnwatched.setEquivalent oldfd
              line.ret), [])
        else
          (pure (state, []) : Emission)) =
        state.setDuplicate oldfd line.ret := by
    intro state
    unfold setDuplicate
    split_ifs
    · cases state.tracker.fdtracker.setEquivalent oldfd line.ret <;> rfl
    · cases state.tracker.fdtrackerUnwatched.setEquivalent oldfd line.ret <;> rfl
    · rfl
  unfold dupBranch
  rw [if_neg succeeded]
  cases replaces with
  | false =>
    exact second state
  | true =>
    have closes : ¬ (0 : ℤ) = -1 := by decide
    simp only [if_true, closeBranch, if_neg closes]
    split_ifs
    · cases state.tracker.fdtracker.removeFdMapping line.ret with
      | error error => rfl
      | ok fds => exact second _
    · cases state.tracker.fdtrackerUnwatched.removeFdMapping line.ret with
      | error error => rfl
      | ok fds => exact second _
    · exact second state

theorem rewired_trans {first second : DescriptorCall ℕ} (front : Rewired state middle first)
    (back : Rewired middle after second) {call : DescriptorCall ℕ}
    (composed : second.apply (first.apply state.tracker.fdtracker.table) =
      call.apply state.tracker.fdtracker.table) :
    Rewired state after call := by
  refine ⟨back.pad.trans front.pad, back.structs.trans front.structs, ?_⟩
  rw [back.table, front.table, composed]

/-- `dup2` closes the new descriptor before it looks at the old one. -/
theorem dups_closes (old new : ℤ) (table : Descriptors ℕ) : (DescriptorCall.dups old new).apply
        ((DescriptorCall.closes new).apply table) = (followed (.dupsOnto old new)).apply table := by
  by_cases same : old = new
  · subst same
    simp [followed, DescriptorCall.apply]
  · simp [followed, DescriptorCall.apply, same]

theorem dupBranch_spec {replaces : Bool} {oldfd : ℤ}
    (ran : state.dupBranch replaces line oldfd = .ok (after, ops))
    (free : replaces = false → line.ret ≠ -1 → state.tracker.fdtracker.table line.ret = none) :
    Rewired state after (if line.ret = -1 then .keeps
          else if replaces then followed (.dupsOnto oldfd line.ret)
          else .dups oldfd line.ret) ∧
      SameTerminal state after := by
  by_cases failed : line.ret = -1
  · rw [if_pos failed]
    unfold dupBranch at ran
    rw [if_pos failed] at ran
    cases ran
    exact ⟨rewired_refl state, rfl, rfl⟩
  · rw [if_neg failed]
    rw [dupBranch_eq replaces oldfd failed] at ran
    cases replaces with
    | false => exact setDuplicate_spec ran (free rfl failed)
    | true =>
      rcases bind_eq_ok_iff.1 ran with ⟨⟨closed, none⟩, closing, ran⟩
      have front := closeBranch_spec closing
      have closes : ¬ (0 : ℤ) = -1 := by decide
      simp only [if_neg closes] at front
      have released : closed.tracker.fdtracker.table line.ret = .none := by
        rw [front.1.table, DescriptorCall.apply, Function.update_self]
      have back := setDuplicate_spec ran released
      refine ⟨rewired_trans front.1 back.1 (dups_closes _ _ _), ?_, ?_⟩
      · rw [back.2.myTracker, front.2.myTracker]
      · rw [back.2.stdtracker, front.2.stdtracker]

theorem fcntlDupfdBranch_spec (ran : state.fcntlDupfdBranch line fd = .ok (after, ops))
    (free : line.ret ≠ -1 → state.tracker.fdtracker.table line.ret = none)
    (terminal : state.tracker.stdtracker.isWatched 1 = true) : Rewired state after
        (if line.ret = -1 then .keeps else .dups fd line.ret) ∧
      after.tracker.stdtracker.isWatched 1 = true ∧ ∀ other, (other, 1) ∈ after.myTracker ↔
        (line.ret ≠ -1 ∧ fd = 1 ∧ line.ret = other) ∨ (other, 1) ∈ state.myTracker := by
  have pairs : line.ret ≠ -1 → ∀ other : ℤ, (other, 1) ∈ (line.ret, fd) :: state.myTracker ↔
        (line.ret ≠ -1 ∧ fd = 1 ∧ line.ret = other) ∨ (other, 1) ∈ state.myTracker := by
    intro succeeded other
    rw [List.mem_cons, Prod.mk.injEq]
    tauto
  unfold fcntlDupfdBranch at ran
  split_ifs at ran ⊢ with failed watched unwatched standard
  · cases ran
    exact ⟨rewired_refl state, terminal, by simp [failed]⟩
  · rcases bind_eq_ok_iff.1 ran with ⟨fds, set, ran⟩
    cases ran
    have spec := setEquivalent_ok set
    exact ⟨⟨rfl, spec.2, spec.1⟩, terminal, pairs failed⟩
  · rcases bind_eq_ok_iff.1 ran with ⟨fds, set, ran⟩
    cases ran
    exact ⟨rewired_dups_of_unwatched (by simpa using watched)
      (free failed) rfl rfl, terminal, pairs failed⟩
  · rcases bind_eq_ok_iff.1 ran with ⟨std, set, ran⟩
    cases ran
    refine ⟨rewired_dups_of_unwatched (by simpa using watched)
      (free failed) rfl rfl, ?_, pairs failed⟩
    have spec := setEquivalent_ok set
    change (std.table 1).isSome = true
    rw [spec.1, DescriptorCall.apply]
    by_cases same : 1 = line.ret
    · rw [← same, Function.update_self]
      exact standard
    · rw [Function.update_of_ne same]
      exact terminal
  · cases ran
    refine ⟨rewired_dups_of_unwatched (by simpa using watched) (free failed) rfl rfl, terminal, ?_⟩
    have different : fd ≠ 1 := by
      intro same
      subst same
      exact standard terminal
    simp [different]

/-! ## Opening -/

def Writable (flags : List OpenFlag) : Prop :=
  OpenFlag.oWronly ∈ flags ∨ OpenFlag.oRdwr ∈ flags

instance (flags : List OpenFlag) : Decidable (Writable flags) :=
  inferInstanceAs (Decidable (_ ∨ _))

section

variable (env : ParserEnv) (state : ParserState) (line : Line) (name : Path)
  (flags : List OpenFlag)

def openCreate (mode : Option String) : Emission := do
  if (state.stat? env name).isNone then
    assertThat (OpenFlag.oCreat ∈ flags)
    assertThat (Writable flags)
    assertThat (state.tracker.fdtracker.getFdsFname name = [])
    match mode with
    | none => throw .assertionError
    | some mode =>
        if (digitsValue 8 mode.toList).isNone then
          throw .valueError
        let pad ← state.pad.osCreate line.fresh fun tree =>
          tree.create (env.replayedPath name) line.fresh
        let state := { state with pad := pad }
        let stat ← state.stat env name
        let parent ← state.parentInode env name
        pure (state, [MicroOpKind.creat name (.text mode) stat.ino parent])
  else
    pure (state, [])

def openTrunc (newlyCreated : Bool) (inode : Inode) : Emission := do
  if OpenFlag.oTrunc ∈ flags then
    assertThat (Writable flags)
    if newlyCreated then
      pure (state, [])
    else do
      let stat ← state.stat env name
      pure (← state.replayedTruncate env name 0, [MicroOpKind.trunc inode stat.size 0])
  else
    pure (state, [])

def openPos : Except PyError ℕ :=
  if OpenFlag.oAppend ∈ flags then
    (state.stat env name).map Stat.size
  else
    pure 0

def openAttribs : List FdAttrib :=
  (if OpenFlag.oSync ∈ flags ∨ OpenFlag.oDsync ∈ flags ∨
      OpenFlag.oRsync ∈ flags then [FdAttrib.oSync] else []) ++
    if OpenFlag.oCloexec ∈ flags then [FdAttrib.oCloexec] else []

variable {line name flags}

/-- The exact result for a file that is going to be watched. -/
theorem openBranch_of_watched (mode : Option String) (interesting : env.isInteresting name = true)
    (opened : 0 ≤ line.ret ∧ OpenFlag.oDirectory ∉ flags) :
    state.openBranch env line name flags mode = (do
      assertThat (Writable flags → OpenFlag.oAsync ∉ flags ∧ OpenFlag.oDirectory ∉ flags)
      let created ← state.openCreate env line name flags mode
      let stat ← created.1.stat env name
      let truncated ← created.1.openTrunc env name flags (state.stat? env name).isNone stat.ino
      let pos ← truncated.1.openPos env name flags
      let fds ← truncated.1.tracker.fdtracker.newFdMapping line.ret
        ⟨name, pos, openAttribs flags, stat.ino⟩
      pure (truncated.1.withFds fds, created.2 ++ truncated.2)) := by
  have raises : ∀ (error : PyError) (next : ParserState × List MicroOpKind → Emission),
      ((throw error : Emission) >>= next) = throw error := fun _ _ => rfl
  have raisesUnit : ∀ (error : PyError) (next : PUnit → Emission),
      ((throw error : Except PyError PUnit) >>= next) = throw error := fun _ _ => rfl
  simp only [openBranch, openCreate, interesting, if_true, if_pos opened]
  congr 1
  cases new : (state.stat? env name).isNone with
  | false =>
    by_cases truncates : OpenFlag.oTrunc ∈ flags <;>
      by_cases appends : OpenFlag.oAppend ∈ flags <;>
      simp only [openTrunc, openPos, truncates, appends, if_true, if_false,
        Bool.false_eq_true, bind_assoc, pure_bind] <;>
      rfl
  | true =>
    cases mode with
    | none =>
      simp only [if_true, raises, bind_assoc]
      rfl
    | some mode =>
      by_cases digits : (digitsValue 8 mode.toList).isNone = true
      · simp only [if_true, digits, raises, raisesUnit, bind_assoc]
        rfl
      · by_cases truncates : OpenFlag.oTrunc ∈ flags <;>
          by_cases appends : OpenFlag.oAppend ∈ flags <;>
          simp only [openTrunc, openPos, truncates, digits, appends,
            if_true, if_false, Bool.false_eq_true, bind_assoc, pure_bind] <;>
          rfl

end

/-- The scratchpad may have changed, but every path leads where it led. -/
structure Extended (state after : ParserState) : Prop where
  tracker : after.tracker = state.tracker
  myTracker : after.myTracker = state.myTracker
  paths : state.pad.tree.KeepsPaths after.pad.tree

theorem extended_refl (state : ParserState) : Extended state state :=
  ⟨rfl, rfl, Tree.KeepsPaths.refl _⟩

theorem Extended.trans (front : Extended state middle) (back : Extended middle after)
    : Extended state after :=
  ⟨back.tracker.trans front.tracker, back.myTracker.trans front.myTracker,
    front.paths.trans back.paths⟩

theorem extended_replayedTruncate {newSize : ℕ}
    (ran : state.replayedTruncate env name newSize = .ok after) :
    Extended state after := by
  rcases map_eq_ok_iff.1 ran with ⟨pad, truncated, equal⟩
  subst equal
  refine ⟨rfl, rfl, ?_⟩
  obtain ⟨tree, modified, rfl⟩ := Scratchpad.osCall_eq_ok_iff.1 truncated
  exact Tree.keepsPaths_modify modified

theorem extended_growFile {pos count size : ℕ}
    (ran : state.growFile env name pos count size = .ok after) :
    Extended state after := by
  rcases bind_eq_ok_iff.1 ran with ⟨filled, first, second⟩
  have front : Extended state filled := by
    split_ifs at first
    · exact extended_replayedTruncate first
    · cases first
      exact extended_refl state
  split_ifs at second
  · exact front.trans (extended_replayedTruncate second)
  · cases second
    exact front

theorem openCreate_cases (ran : state.openCreate env line name flags mode = .ok (after, ops)) :
    (state.stat? env name).isSome = true ∧ after = state ∧ ops = [] ∨ state.stat? env name = none ∧
        ∃ pad mode stat parent, state.pad.osCreate line.fresh (fun tree =>
            tree.create (env.replayedPath name) line.fresh) = .ok pad ∧
          after = { state with pad := pad } ∧
          after.stat env name = .ok stat ∧
          ops = [.creat name mode stat.ino parent] := by
  unfold openCreate at ran
  split_ifs at ran with absent
  · right
    rcases bind_eq_ok_iff.1 ran with ⟨-, -, ran⟩
    rcases bind_eq_ok_iff.1 ran with ⟨-, -, ran⟩
    rcases bind_eq_ok_iff.1 ran with ⟨-, -, ran⟩
    cases mode with
    | none => cases ran
    | some mode =>
      simp only at ran
      split_ifs at ran
      · cases ran
      · rcases bind_eq_ok_iff.1 ran with ⟨pad, created, ran⟩
        rcases bind_eq_ok_iff.1 ran with ⟨stat, statEq, ran⟩
        rcases bind_eq_ok_iff.1 ran with ⟨parent, -, ran⟩
        cases ran
        exact ⟨Option.isNone_iff_eq_none.1 absent, pad, .text mode, stat,
          parent, created, rfl, statEq, rfl⟩
  · left
    cases ran
    exact ⟨by simpa [Option.isSome_iff_ne_none] using absent, rfl, rfl⟩

theorem tracker_openCreate (ran : state.openCreate env line name flags mode = .ok (after, ops)) :
    after.tracker = state.tracker ∧ after.myTracker = state.myTracker := by
  rcases openCreate_cases ran with
    ⟨-, same, -⟩ | ⟨-, pad, -, -, -, -, result, -⟩
  · rw [same]
    exact ⟨rfl, rfl⟩
  · rw [result]
    exact ⟨rfl, rfl⟩

theorem extended_openCreate (unused : state.pad.tree.node line.fresh = none)
    (ran : state.openCreate env line name flags mode = .ok (after, ops)) :
    Extended state after := by
  rcases openCreate_cases ran with
    ⟨-, same, -⟩ | ⟨-, pad, -, stat, -, created, result, -⟩
  · rw [same]
    exact extended_refl state
  · subst result
    refine ⟨rfl, rfl, ?_⟩
    rcases map_eq_ok_iff.1 created with ⟨bare, called, equal⟩
    subst equal
    obtain ⟨tree, createdTree, rfl⟩ := Scratchpad.osCall_eq_ok_iff.1 called
    exact Tree.keepsPaths_create unused createdTree

section

variable {newlyCreated : Bool} {inode : Inode}
  (ran : state.openTrunc env name flags newlyCreated inode = .ok (after, ops))
include ran

theorem openTrunc_cases :
    after = state ∧ ops = [] ∨ ∃ size, state.replayedTruncate env name 0 = .ok after ∧
        ops = [.trunc inode size 0] := by
  unfold openTrunc at ran
  split_ifs at ran
  · rcases bind_eq_ok_iff.1 ran with ⟨-, -, ran⟩
    cases ran
    exact Or.inl ⟨rfl, rfl⟩
  · rcases bind_eq_ok_iff.1 ran with ⟨-, -, ran⟩
    rcases bind_eq_ok_iff.1 ran with ⟨stat, -, ran⟩
    rcases bind_eq_ok_iff.1 ran with ⟨truncated, truncation, ran⟩
    cases ran
    exact Or.inr ⟨stat.size, truncation, rfl⟩
  · cases ran
    exact Or.inl ⟨rfl, rfl⟩

theorem extended_openTrunc :
    Extended state after := by
  rcases openTrunc_cases ran with ⟨same, -⟩ | ⟨size, truncation, -⟩
  · rw [same]
    exact extended_refl state
  · exact extended_replayedTruncate truncation

end

/-- What has happened when a file is watched that was not watched before. -/
structure Opened (env : ParserEnv) (state after : ParserState) (fd : ℤ) (name : Path)
    (details : FdDetails) : Prop where
  name_eq : details.name = name
  inode_eq : after.pad.tree.resolve (env.replayedPath name) = some details.inode
  table : after.tracker.fdtracker.table =
    (DescriptorCall.opens fd
      (some state.tracker.fdtracker.structs.length)).apply
        state.tracker.fdtracker.table
  structs : after.tracker.fdtracker.structs = state.tracker.fdtracker.structs ++ [details]
  paths : state.pad.tree.KeepsPaths after.pad.tree
  terminal : SameTerminal state after

section

variable (interesting : env.isInteresting name = true)
  (succeeded : 0 ≤ line.ret ∧ OpenFlag.oDirectory ∉ flags)
  (ran : state.openBranch env line name flags mode = .ok (after, ops))
include interesting succeeded ran

/-- The steps of an open of a watched path that has returned. -/
theorem steps_of_openBranch :
    ∃ created createOps stat truncated truncOps pos fds,
      state.openCreate env line name flags mode = .ok (created, createOps) ∧
      created.stat env name = .ok stat ∧
      created.openTrunc env name flags (state.stat? env name).isNone stat.ino =
        .ok (truncated, truncOps) ∧
      truncated.openPos env name flags = .ok pos ∧
      truncated.tracker.fdtracker.newFdMapping line.ret
        ⟨name, pos, openAttribs flags, stat.ino⟩ = .ok fds ∧
      (after, ops) = (truncated.withFds fds, createOps ++ truncOps) := by
  rw [openBranch_of_watched env state mode interesting succeeded] at ran
  obtain ⟨-, -, ran⟩ := bind_eq_ok_iff.1 ran
  obtain ⟨⟨created, createOps⟩, creation, ran⟩ := bind_eq_ok_iff.1 ran
  obtain ⟨stat, statEq, ran⟩ := bind_eq_ok_iff.1 ran
  obtain ⟨⟨truncated, truncOps⟩, truncation, ran⟩ := bind_eq_ok_iff.1 ran
  obtain ⟨pos, posEq, ran⟩ := bind_eq_ok_iff.1 ran
  obtain ⟨fds, mapped, ran⟩ := bind_eq_ok_iff.1 ran
  exact ⟨created, createOps, stat, truncated, truncOps, pos, fds, creation, statEq, truncation,
    posEq, mapped, (Except.ok.inj ran).symm⟩

theorem openBranch_opens :
    ∃ details, (state.pad.tree.node line.fresh = none →
        Opened env state after line.ret name details) ∧ details.name = name ∧
      after.pad.tree.resolve (env.replayedPath name) = some details.inode ∧
      after.tracker.fdtracker.table = (DescriptorCall.opens line.ret
          (some state.tracker.fdtracker.structs.length)).apply state.tracker.fdtracker.table ∧
      after.tracker.fdtracker.structs = state.tracker.fdtracker.structs ++ [details] ∧
      SameTerminal state after ∧ (OpenFlag.oAppend ∉ flags → details.pos = 0) := by
  obtain ⟨created, _, stat, truncated, _, pos, fds, creation, statEq, truncation, posEq,
    mapped, isAfter⟩ := steps_of_openBranch interesting succeeded ran
  cases isAfter
  obtain ⟨createdTracker, createdAliases⟩ := tracker_openCreate creation
  have back := extended_openTrunc truncation
  have sameTracker : truncated.tracker = state.tracker := back.tracker.trans createdTracker
  simp only [sameTracker] at mapped
  obtain ⟨-, table, structs⟩ := newFdMapping_ok mapped
  have resolved := back.paths _ _ (Scratchpad.resolve_of_replayedStat (stat_eq_ok_iff.1 statEq)).1
  have terminal : SameTerminal state (truncated.withFds fds) := by
    refine ⟨back.myTracker.trans createdAliases, ?_⟩
    change truncated.tracker.stdtracker = state.tracker.stdtracker
    rw [sameTracker]
  refine ⟨⟨name, pos, openAttribs flags, stat.ino⟩, fun unused => ?_, rfl,
    resolved, table, structs, terminal, fun notAppend => ?_⟩
  · exact ⟨rfl, resolved, table, structs,
      ((extended_openCreate unused creation).trans back).paths, terminal⟩
  · simp only [openPos, if_neg notAppend] at posEq
    exact (Except.ok.inj posEq).symm

end

theorem openBranch_watched (unused : state.pad.tree.node line.fresh = none)
    (interesting : env.isInteresting name = true)
    (succeeded : 0 ≤ line.ret ∧ OpenFlag.oDirectory ∉ flags)
    (ran : state.openBranch env line name flags mode = .ok (after, ops)) :
    ∃ details, Opened env state after line.ret name details ∧
      (OpenFlag.oAppend ∉ flags → details.pos = 0) := by
  obtain ⟨details, opened, -, -, -, -, -, starts⟩ := openBranch_opens interesting succeeded ran
  exact ⟨details, opened unused, starts⟩

theorem openBranch_unwatched
    (unwatched : ¬ (0 ≤ line.ret ∧ env.isInteresting name = true ∧ OpenFlag.oDirectory ∉ flags))
    (ran : state.openBranch env line name flags mode = .ok (after, ops)) :
    Rewired state after .keeps ∧ SameTerminal state after := by
  unfold openBranch at ran
  by_cases interesting : env.isInteresting name = true
  · have failed : ¬ (0 ≤ line.ret ∧ OpenFlag.oDirectory ∉ flags) := by
      intro both
      exact unwatched ⟨both.1, interesting, both.2⟩
    simp only [interesting, if_true, if_neg failed] at ran
    rcases bind_eq_ok_iff.1 ran with ⟨-, -, ran⟩
    cases ran
    exact ⟨rewired_refl state, rfl, rfl⟩
  · simp only [if_neg interesting] at ran
    by_cases succeeded : 0 ≤ line.ret
    · rw [if_pos succeeded] at ran
      rcases bind_eq_ok_iff.1 ran with ⟨fds, -, ran⟩
      cases ran
      exact ⟨⟨rfl, rfl, rfl⟩, rfl, rfl⟩
    · rw [if_neg succeeded] at ran
      cases ran
      exact ⟨rewired_refl state, rfl, rfl⟩

/-! ## Positions -/

/-- Only the position of one descriptor has been set, if at all. -/
structure Moved (state after : ParserState) (fd : ℤ) (pos : Option ℕ) : Prop where
  paths : state.pad.tree.KeepsPaths after.pad.tree
  table : after.tracker.fdtracker.table = state.tracker.fdtracker.table
  structs : after.tracker.fdtracker.structs =
    match pos, state.tracker.fdtracker.table fd with
    | some pos, some number =>
        state.tracker.fdtracker.structs.modify number fun details =>
          { details with pos := pos }
    | _, _ => state.tracker.fdtracker.structs
  terminal : SameTerminal state after

theorem moved_refl (state : ParserState) (fd : ℤ) :
    Moved state state fd none :=
  ⟨Tree.KeepsPaths.refl _, rfl, rfl, rfl, rfl⟩

theorem moved_withFds {pos : ℕ} {fds : FileDescriptorTracker} (extended : Extended state middle)
    (set : middle.tracker.fdtracker.setPos fd pos = .ok fds) :
    Moved state (middle.withFds fds) fd (some pos) := by
  rw [extended.tracker] at set
  rcases setPos_ok set with
    ⟨number, held, table, structs⟩
  refine ⟨extended.paths, table, ?_, extended.myTracker, ?_⟩
  · rw [held]
    exact structs
  · change middle.tracker.stdtracker = _
    rw [extended.tracker]

theorem lseekBranch_spec (ran : state.lseekBranch line fd = .ok (after, ops)) : Moved state after fd
      (if line.ret ≠ -1 ∧ state.tracker.fdtracker.isWatched fd then
        some line.ret.toNat
      else
        none) := by
  unfold lseekBranch at ran
  split_ifs at ran ⊢
  · rcases bind_eq_ok_iff.1 ran with ⟨fds, set, ran⟩
    cases ran
    exact moved_withFds (extended_refl state) set
  · cases ran
    exact moved_refl state fd

end ParserState

/-- A write through a descriptor that is not taken for the terminal moves the
position, unless it comes with one. -/
theorem emit_write_spec {env : ParserEnv} {state after : ParserState} {line : Line}
    {args : WriteArgs} {ops : List MicroOpKind} (isWrite : line.call.writeArgs? = some args)
    (ran : emit env state line = .ok (after, ops)) : ((args.fd, 1) ∈ state.myTracker ∨
        state.tracker.fdtracker.table args.fd = none) ∧ after = state ∨ ∃ details stat,
      (args.fd, 1) ∉ state.myTracker ∧ state.tracker.fdtracker.details args.fd = .ok details ∧
      Written env state line args details after ops stat ∧ ParserState.Moved state after args.fd
        (if args.position = none then
          some (args.pos details + args.count)
        else
          none) := by
  rcases emit_write_cases isWrite ran with
    ⟨aliased, same, -⟩ | ⟨unwatched, same, -⟩ | ⟨details, stat, notAlias, found, written⟩
  · exact Or.inl ⟨Or.inl aliased, same⟩
  · exact Or.inl ⟨Or.inr (isWatched_eq_false_iff.1 unwatched), same⟩
  · refine Or.inr ⟨details, stat, notAlias, found, written, ?_⟩
    rcases written.moves with ⟨grown, growth, movement⟩
    have extended := extended_growFile growth
    cases position : args.position with
    | some pos =>
      rw [position] at movement
      cases movement
      rw [if_neg (by simp)]
      exact ⟨extended.paths, by rw [extended.tracker],
        by rw [extended.tracker], extended.myTracker, by rw [extended.tracker]⟩
    | none =>
      rw [position] at movement
      rcases map_eq_ok_iff.1 movement with ⟨fds, set, equal⟩
      subst equal
      exact moved_withFds extended set

/-! ## All calls on descriptors -/

def Call.onDescriptors : Call → Bool
  | .openFile .. | .openat .. | .write .. | .writev .. | .pwrite ..
  | .pwritev .. | .close .. | .lseek .. | .dup .. | .dup2 ..
  | .fcntlDupfd .. => true
  | _ => false

def FdDetails.file (details : FdDetails) : Path × Inode :=
  (details.name, details.inode)

theorem map_modify_of_eq {α β : Type} {change : α → α} {see : α → β}
    (same : ∀ value, see (change value) = see value) (list : List α) (number : ℕ) :
    (list.modify number change).map see = list.map see := by
  induction list generalizing number with
  | nil => simp
  | cons first rest ih =>
    cases number with
    | zero => simp [same]
    | succ number => simp [ih]

/-- What a line has done to the tracker of its process. -/
structure Translated (env : ParserEnv) (state : ParserState) (line : Line)
    (after : ParserState) : Prop where
  table : after.tracker.fdtracker.table =
    (followed (line.descriptorCall ((line.watchedPath? env).map fun _ =>
      state.tracker.fdtracker.structs.length))).apply state.tracker.fdtracker.table
  files : ∃ opened,
    after.tracker.fdtracker.structs.map FdDetails.file =
        state.tracker.fdtracker.structs.map FdDetails.file ++ opened ∧
      opened.map Prod.fst = (line.watchedPath? env).toList ∧
      ∀ file ∈ opened,
        after.pad.tree.resolve (env.replayedPath file.1) = some file.2
  paths : state.pad.tree.KeepsPaths after.pad.tree
  terminal : after.tracker.stdtracker.isWatched 1 = true
  aliases : ∀ fd, (fd, 1) ∈ after.myTracker ↔
    line.stdoutAlias? = some fd ∨ (fd, 1) ∈ state.myTracker

/-- The same, whatever number a new file gets. -/
structure Registered (env : ParserEnv) (state : ParserState) (line : Line)
    (after : ParserState) : Prop where
  table : after.tracker.fdtracker.table =
    (followed (line.descriptorCall ((line.watchedPath? env).map fun _ =>
      state.tracker.fdtracker.structs.length))).apply state.tracker.fdtracker.table
  files : ∃ opened,
    after.tracker.fdtracker.structs.map FdDetails.file =
        state.tracker.fdtracker.structs.map FdDetails.file ++ opened ∧
      opened.map Prod.fst = (line.watchedPath? env).toList ∧
      ∀ file ∈ opened,
        after.pad.tree.resolve (env.replayedPath file.1) = some file.2
  paths : state.pad.tree.node line.fresh = none → state.pad.tree.KeepsPaths after.pad.tree
  terminal : after.tracker.stdtracker.isWatched 1 = true
  aliases : ∀ fd, (fd, 1) ∈ after.myTracker ↔
    line.stdoutAlias? = some fd ∨ (fd, 1) ∈ state.myTracker

section

variable {env : ParserEnv} {state after : ParserState} {line : Line}
  {ops : List MicroOpKind}

theorem Registered.of_rewired
    (rewired : Rewired state after (followed (line.descriptorCall none)))
    (unopened : line.watchedPath? env = none)
    (terminal : after.tracker.stdtracker.isWatched 1 = true)
    (aliases : ∀ fd, (fd, 1) ∈ after.myTracker ↔
      line.stdoutAlias? = some fd ∨ (fd, 1) ∈ state.myTracker) :
    Registered env state line after := by
  refine ⟨?_, ⟨[], ?_, ?_, ?_⟩, ?_, terminal, aliases⟩
  · rw [unopened]
    exact rewired.table
  · rw [rewired.structs, List.append_nil]
  · rw [unopened]
    rfl
  · simp
  · rw [rewired.pad]
    exact fun _ => Tree.KeepsPaths.refl _

theorem aliases_of_same (same : SameTerminal state after) (none : line.stdoutAlias? = .none)
    (fd : ℤ) : (fd, 1) ∈ after.myTracker ↔
      line.stdoutAlias? = some fd ∨ (fd, 1) ∈ state.myTracker := by
  rw [same.myTracker, none]
  simp

theorem Registered.of_moved {fd : ℤ} {pos : Option ℕ}
    (moved : ParserState.Moved state after fd pos)
    (keeps : line.descriptorCall (.none : Option ℕ) = .keeps)
    (unopened : line.watchedPath? env = .none) (noAlias : line.stdoutAlias? = .none)
    (terminal : state.tracker.stdtracker.isWatched 1 = true) :
    Registered env state line after := by
  refine ⟨?_, ⟨[], ?_, ?_, ?_⟩, fun _ => moved.paths, ?_, aliases_of_same moved.terminal noAlias⟩
  · rw [unopened, Option.map_none, keeps]
    exact moved.table
  · rw [moved.structs, List.append_nil]
    split
    · apply map_modify_of_eq
      intro details
      rfl
    · rfl
  · rw [unopened]
    rfl
  · simp
  · rw [moved.terminal.stdtracker]
    exact terminal

theorem Registered.of_open {path : Path} {flags : List OpenFlag} {mode : Option String}
    (isOpen : line.call = .openFile path flags mode ∨ line.call = .openat path flags mode)
    (terminal : state.tracker.stdtracker.isWatched 1 = true)
    (free : 0 ≤ line.ret → state.tracker.fdtracker.table line.ret = none)
    (ran : state.openBranch env line path flags mode = .ok (after, ops)) :
    Registered env state line after := by
  have watchedEq : line.watchedPath? env =
      if 0 ≤ line.ret ∧ env.isInteresting path = true ∧ OpenFlag.oDirectory ∉ flags then
        some path
      else
        none := by
    unfold Line.watchedPath?
    rcases isOpen with call | call <;> rw [call]
  have callEq : ∀ target : Option ℕ, line.descriptorCall target =
      if 0 ≤ line.ret then .opens line.ret target else .keeps := by
    intro target
    unfold Line.descriptorCall
    rcases isOpen with call | call <;> rw [call]
  have noAlias : line.stdoutAlias? = none := by
    unfold Line.stdoutAlias?
    rcases isOpen with call | call <;> rw [call]
  by_cases watched : 0 ≤ line.ret ∧ env.isInteresting path = true ∧ OpenFlag.oDirectory ∉ flags
  · rw [if_pos watched] at watchedEq
    obtain ⟨details, opened, nameEq, leads, table, structs, same, -⟩ :=
      openBranch_opens watched.2.1 ⟨watched.1, watched.2.2⟩ ran
    refine ⟨?_, ⟨[details.file], ?_, ?_, ?_⟩,
      fun unused => (opened unused).paths, ?_, aliases_of_same same noAlias⟩
    · rw [watchedEq, callEq, if_pos watched.1]
      exact table
    · rw [structs, List.map_append]
      rfl
    · rw [watchedEq]
      exact congrArg List.singleton nameEq
    · intro file member
      rw [List.mem_singleton.1 member]
      change after.pad.tree.resolve (env.replayedPath details.name) = _
      rw [nameEq]
      exact leads
    · rw [same.stdtracker]
      exact terminal
  · rw [if_neg watched] at watchedEq
    have spec := openBranch_unwatched watched ran
    apply Registered.of_rewired _ watchedEq
    · rw [spec.2.stdtracker]
      exact terminal
    · exact aliases_of_same spec.2 noAlias
    · refine ⟨spec.1.pad, spec.1.structs, ?_⟩
      rw [spec.1.table, callEq]
      split_ifs with succeeded
      · change _ = Function.update _ _ _
        rw [← free succeeded, Function.update_eq_self]
        rfl
      · rfl

/-- Every call on descriptors acts on the table of the tracker as it acts on
the table of the process, as the parser follows it. -/
theorem registered_of_emit (onDescriptors : line.call.onDescriptors = true)
    (terminal : state.tracker.stdtracker.isWatched 1 = true) (free : ∀ fd,
      (line.descriptorCall (none : Option ℕ)).taken = some fd →
        state.tracker.fdtracker.table fd = none) (ran : emit env state line = .ok (after, ops)) :
    Registered env state line after := by
  have written : ∀ args, line.call.writeArgs? = some args → line.descriptorCall (none : Option ℕ) =
      .keeps → line.watchedPath? env = none → line.stdoutAlias? = none →
        Registered env state line after := by
    intro args isWrite keeps unopened noAlias
    rcases emit_write_spec isWrite ran with ⟨-, same⟩ | moved
    · subst same
      exact Registered.of_moved (moved_refl after 0) keeps unopened noAlias terminal
    · rcases moved with ⟨details, stat, -, -, -, moved⟩
      exact Registered.of_moved moved keeps unopened noAlias terminal
  have rewired : ∀ {call : DescriptorCall ℕ}, followed (line.descriptorCall none) = call →
      line.watchedPath? env = none → line.stdoutAlias? = none →
      Rewired state after call ∧ SameTerminal state after →
        Registered env state line after := by
    intro call callEq unopened noAlias spec
    subst callEq
    apply Registered.of_rewired spec.1 unopened
    · rw [spec.2.stdtracker]
      exact terminal
    · exact aliases_of_same spec.2 noAlias
  unfold emit at ran
  unfold Line.descriptorCall Line.watchedPath? Line.stdoutAlias? at written rewired
  cases call : line.call <;> rw [call] at ran written rewired onDescriptors
  case openFile =>
    apply Registered.of_open (Or.inl call) terminal _ ran
    intro succeeded
    apply free
    simp [Line.descriptorCall, call, succeeded, DescriptorCall.taken]
  case openat =>
    apply Registered.of_open (Or.inr call) terminal _ ran
    intro succeeded
    apply free
    simp [Line.descriptorCall, call, succeeded, DescriptorCall.taken]
  case write => exact written _ rfl rfl rfl rfl
  case writev => exact written _ rfl rfl rfl rfl
  case pwrite => exact written _ rfl rfl rfl rfl
  case pwritev => exact written _ rfl rfl rfl rfl
  case close =>
    apply rewired _ rfl rfl (closeBranch_spec ran)
    split_ifs <;> rfl
  case lseek =>
    have moved := lseekBranch_spec ran
    apply Registered.of_moved moved _ _ _ terminal
    · simp [Line.descriptorCall, call]
    · simp [Line.watchedPath?, call]
    · simp [Line.stdoutAlias?, call]
  case dup =>
    apply rewired _ rfl rfl (dupBranch_spec ran _)
    · simp only [Bool.false_eq_true, if_false]
      split_ifs <;> rfl
    · intro _ succeeded
      apply free
      simp [Line.descriptorCall, call, succeeded, DescriptorCall.taken]
  case dup2 =>
    apply rewired _ rfl rfl (dupBranch_spec ran _)
    · simp only [if_true]
      split_ifs <;> rfl
    · intro impossible
      cases impossible
  case fcntlDupfd fd =>
    have released : line.ret ≠ -1 → state.tracker.fdtracker.table line.ret = none := by
      intro succeeded
      apply free
      simp [Line.descriptorCall, call, succeeded, DescriptorCall.taken]
    have spec := fcntlDupfdBranch_spec ran released terminal
    apply Registered.of_rewired _ _ spec.2.1
    · intro other
      simp only [Line.stdoutAlias?, call]
      split_ifs with makes <;> grind
    · have callEq : followed (line.descriptorCall (none : Option ℕ)) =
          if line.ret = -1 then .keeps else .dups fd line.ret := by
        simp only [Line.descriptorCall, call]
        split_ifs <;> rfl
      rw [callEq]
      exact spec.1
    · simp [Line.watchedPath?, call]
  all_goals cases onDescriptors

theorem translated_of_emit (onDescriptors : line.call.onDescriptors = true)
    (unused : state.pad.tree.node line.fresh = none)
    (terminal : state.tracker.stdtracker.isWatched 1 = true) (free : ∀ fd,
      (line.descriptorCall (none : Option ℕ)).taken = some fd →
        state.tracker.fdtracker.table fd = none) (ran : emit env state line = .ok (after, ops)) :
    Translated env state line after := by
  have registered := registered_of_emit onDescriptors terminal free ran
  exact ⟨registered.table, registered.files, registered.paths unused,
    registered.terminal, registered.aliases⟩

end

end Alice
