import Alice.Parser.SharedOffsets

/-! # Tables beside the trackers

What is kept for every process beside its tracker is copied with it, shared by
threads and changed by calls.  A relation between the two that the calls of
one process keep is kept by the rows of all processes. -/

namespace Alice

open Checked ParserSystem
open Posix (Processes)

/-! ## Trackers as processes -/

namespace ParserSystem

variable {env : SystemEnv} {system found after : ParserSystem} {tid : ℤ}
  {number : ℕ} {process : TracedProcess}

def asProcesses (system : ParserSystem) : Processes TracedProcess :=
  ⟨system.processes, fun tid => (system.trackersMap.lookup tid).join⟩

theorem asProcesses_stateOf (known : system.trackersMap.lookup tid = some (some number)) :
    system.asProcesses.stateOf tid = system.processes[number]? := by
  simp [asProcesses, Processes.stateOf, known]

theorem thread_insert (trackersMap : AList fun _ : ℤ => Option ℕ) (tid : ℤ) (number : ℕ) :
    (fun other => ((trackersMap.insert tid (some number)).lookup other).join) =
      Function.update (fun other => (trackersMap.lookup other).join) tid (some number) := by
  funext other
  by_cases same : other = tid
  · subst same
    simp
  · simp [same, AList.lookup_insert_ne same]

theorem asProcesses_entered (tracked : Tracked env system tid found number process) :
    found.asProcesses = system.asProcesses.enter (.init env tid) tid := by
  have entered := tracked.entered
  rcases tracked.processOf with ⟨unknown, -⟩ | ⟨_, known, -⟩
  · simp only [ParserSystem.entered, unknown] at entered
    subst entered
    simp only [asProcesses, Processes.enter, unknown, Option.join_none]
    rw [thread_insert]
  · simp only [ParserSystem.entered, known] at entered
    subst entered
    simp [asProcesses, Processes.enter, known]

theorem asProcesses_set (known : system.trackersMap.lookup tid = some (some number))
    (lookup : system.processes[number]? = some process) (change : TracedProcess → TracedProcess) :
    ⟨system.processes.set number (change process),
        fun tid => (system.trackersMap.lookup tid).join⟩ =
      system.asProcesses.modify tid change := by
  have modified : system.processes.modify number change =
      system.processes.set number (change process) := by
    rw [List.modify_eq_set_getElem?, lookup]
    rfl
  simp only [asProcesses, Processes.modify, known, Option.join_some, modified]

variable {child : ℤ}

section

variable (known : system.trackersMap.lookup tid = some (some number))
  (lookup : system.processes[number]? = some process)
include known lookup

theorem asProcesses_recordFork (forked : system.recordFork process child = .ok after)
    : after.asProcesses =
      system.asProcesses.fork tid child fun process =>
        { process with pid := child, childTids := [] } := by
  rcases bind_eq_ok_iff.1 forked with ⟨-, -, forked⟩
  cases forked
  have parent := asProcesses_stateOf known
  rw [lookup] at parent
  simp only [Processes.fork, parent]
  simp only [asProcesses]
  rw [thread_insert]

theorem asProcesses_recordClone (cloned : system.recordClone number process child = .ok after)
    : after.asProcesses =
      (system.asProcesses.modify tid fun process =>
        { process with childTids := process.childTids ++ [child] }).share
          tid child := by
  rcases bind_eq_ok_iff.1 cloned with ⟨-, -, cloned⟩
  cases cloned
  rw [← asProcesses_set known lookup]
  simp only [asProcesses, Processes.share, known, Option.join_some]
  rw [thread_insert]

end

/-- Trackers stay, and keep the threads that they have. -/
def Grown (before later : List TracedProcess) : Prop :=
  ∀ (number : ℕ) (process : TracedProcess),
    before[number]? = some process →
    ∃ process' : TracedProcess, later[number]? = some process' ∧
      process'.pid = process.pid ∧
      process.childTids ⊆ process'.childTids

theorem grown_append (processes : List TracedProcess) (process : TracedProcess) :
    Grown processes (processes ++ [process]) := by
  intro number held lookup
  have inside := (List.getElem?_eq_some_iff.1 lookup).1
  refine ⟨held, ?_, rfl, fun _ member => member⟩
  rw [List.getElem?_append_left inside, lookup]

theorem grown_set {processes : List TracedProcess} {process' : TracedProcess}
    (lookup : processes[number]? = some process) (samePid : process'.pid = process.pid)
    (keeps : process.childTids ⊆ process'.childTids) :
    Grown processes (processes.set number process') := by
  intro tested held found
  by_cases same : tested = number
  · subst same
    rw [lookup] at found
    cases found
    have inside := (List.getElem?_eq_some_iff.1 lookup).1
    exact ⟨process', List.getElem?_set_self inside, samePid, keeps⟩
  · refine ⟨held, ?_, rfl, fun _ member => member⟩
    rw [List.getElem?_set_ne (Ne.symm same), found]

def AllFound (env : SystemEnv) (system : ParserSystem) : Prop :=
  ∀ tid, ∃ process, system.ProcessOf env tid process

section

variable (allFound : AllFound env system)
include allFound

theorem AllFound.of_grown (grown : Grown system.processes after.processes)
    (entries : ∀ tid, after.trackersMap.lookup tid = system.trackersMap.lookup tid ∨
        ∃ process, after.ProcessOf env tid process) :
    AllFound env after := by
  intro tid
  rcases entries tid with same | found
  · rcases allFound tid with ⟨process, ⟨unknown, isInit⟩ | known⟩
    · exact ⟨process, Or.inl ⟨same.trans unknown, isInit⟩⟩
    · rcases known with ⟨number, known, lookup, own⟩
      rcases grown number process lookup with
        ⟨process', lookup', samePid, keeps⟩
      refine ⟨process', Or.inr ⟨number, same.trans known, lookup', ?_⟩⟩
      rw [samePid]
      exact own.imp_right fun member => keeps member
  · exact found

theorem AllFound.entered (tracked : Tracked env system tid found number process) :
    AllFound env found := by
  have entered := tracked.entered
  rcases tracked.processOf with ⟨unknown, isInit⟩ | ⟨_, known, -⟩
  · simp only [ParserSystem.entered, unknown] at entered
    subst entered
    apply allFound.of_grown (grown_append _ _)
    intro other
    by_cases same : other = tid
    · subst same
      exact Or.inr ⟨process, Or.inr ⟨number, tracked.known, tracked.lookup, tracked.own⟩⟩
    · exact Or.inl (AList.lookup_insert_ne same)
  · simp only [ParserSystem.entered, known] at entered
    subst entered
    exact allFound

theorem AllFound.withState (lookup : system.processes[number]? = some process)
    (state : ParserState) : AllFound env (system.withState number process state) := by
  refine allFound.of_grown (grown_set lookup ?_ ?_) fun _ => Or.inl rfl
  · rfl
  · exact fun _ member => member

theorem AllFound.recordFork (forked : system.recordFork process child = .ok after) :
    AllFound env after := by
  rcases bind_eq_ok_iff.1 forked with ⟨-, -, forked⟩
  cases forked
  apply allFound.of_grown (grown_append _ _)
  intro other
  by_cases same : other = child
  · subst same
    exact Or.inr ⟨_, Or.inr ⟨_, AList.lookup_insert _, List.getElem?_concat_length, Or.inl rfl⟩⟩
  · exact Or.inl (AList.lookup_insert_ne same)

theorem AllFound.recordClone (lookup : system.processes[number]? = some process)
    (cloned : system.recordClone number process child = .ok after) :
    AllFound env after := by
  rcases bind_eq_ok_iff.1 cloned with ⟨-, -, cloned⟩
  cases cloned
  refine allFound.of_grown (grown_set lookup ?_ ?_) ?_
  · rfl
  · exact List.subset_append_left _ _
  · intro other
    by_cases same : other = child
    · subst same
      have inside := (List.getElem?_eq_some_iff.1 lookup).1
      exact Or.inr ⟨_, Or.inr ⟨_, AList.lookup_insert _,
        List.getElem?_set_self inside, Or.inr (by simp)⟩⟩
    · exact Or.inl (AList.lookup_insert_ne same)

end

end ParserSystem

/-! ## Rows -/

section

variable {σ : Type}

/-- Threads share a table if `clone` is told so, and other processes get a
copy. -/
def tablesMade (row : TraceRow) (sharesFiles : Bool) (tables : Processes σ) : Processes σ :=
  if row.ret = -1 then
    tables
  else if sharesFiles then
    tables.share row.tid row.ret
  else
    tables.fork row.tid row.ret id

/-- What a row does to the tables, after its thread has been entered.
`change` is what a call does to the table of its process. -/
def tablesAfter (row : TraceRow) (change : σ → σ) (tables : Processes σ) : Processes σ :=
  match row.call with
  | .plain _ => tables.modify row.tid change
  | .clone flags => tablesMade row flags.files tables
  | .vfork => tablesMade row false tables
  | _ => tables

/-- The trackers are in a relation with the tables. -/
structure Beside (env : SystemEnv) (relation : ProcessTracker → σ → Prop)
    (system : ParserSystem) (tables : Processes σ) : Prop where
  processes : Processes.Related
    (fun process table => relation process.tracker table)
    system.asProcesses tables
  allFound : system.AllFound env

variable {env : SystemEnv} {relation : ProcessTracker → σ → Prop}
  {system found after : ParserSystem} {tables : Processes σ}
  {row : TraceRow} {number : ℕ} {process : TracedProcess}
  {ops : List MicroOpKind}

namespace Beside

theorem init (env : SystemEnv) (pad : Scratchpad) : Beside env relation (.init pad) .empty :=
  ⟨⟨rfl, List.Forall₂.nil⟩, fun _ => ⟨_, Or.inl ⟨rfl, rfl⟩⟩⟩

theorem mono {weaker : ProcessTracker → σ → Prop} (beside : Beside env relation system tables)
    (implies : ∀ tracker table, relation tracker table → weaker tracker table) :
    Beside env weaker system tables :=
  ⟨beside.processes.mono fun process table => implies process.tracker table, beside.allFound⟩

theorem enter {start : σ} (beside : Beside env relation system tables)
    (starts : relation .init start)
    (tracked : ParserSystem.Tracked env system row.tid found number process) :
    Beside env relation found (tables.enter start row.tid) := by
  refine ⟨?_, beside.allFound.entered tracked⟩
  rw [asProcesses_entered tracked]
  exact beside.processes.enter starts row.tid

theorem exists_table (beside : Beside env relation system tables)
    (known : system.trackersMap.lookup row.tid = some (some number))
    (lookup : system.processes[number]? = some process) :
    ∃ table, tables.stateOf row.tid = some table ∧ relation process.tracker table := by
  have held := asProcesses_stateOf known
  rw [lookup] at held
  exact beside.processes.exists_right held

theorem call
    {state : ParserState} {change : σ → σ} (beside : Beside env relation system tables)
    (known : system.trackersMap.lookup row.tid = some (some number))
    (lookup : system.processes[number]? = some process)
    (step : ∀ table, tables.stateOf row.tid = some table → relation process.tracker table →
        relation state.tracker (change table)) :
    Beside env relation (system.withState number process state) (tables.modify row.tid change) := by
  refine ⟨?_, beside.allFound.withState lookup state⟩
  have held := asProcesses_stateOf known
  rw [lookup] at held
  have modified := asProcesses_set known lookup
    fun process => { process with tracker := state.tracker }
  change Processes.Related _ ⟨system.processes.set number { process with tracker := state.tracker },
      fun tid => (system.trackersMap.lookup tid).join⟩ _
  rw [modified]
  apply beside.processes.modify
  intro other table isOther isTable related
  rw [held, Option.some.injEq] at isOther
  subst isOther
  exact step table isTable related

section

variable (beside : Beside env relation system tables)
include beside

section

variable (known : system.trackersMap.lookup row.tid = some (some number))
include known

section

variable (lookup : system.processes[number]? = some process)
include lookup

theorem fork (succeeded : row.ret ≠ -1) (forked : system.recordFork process row.ret = .ok after) :
    Beside env relation after (tablesMade row false tables) := by
  refine ⟨?_, beside.allFound.recordFork forked⟩
  rw [asProcesses_recordFork known lookup forked, tablesMade,
    if_neg succeeded, if_neg Bool.false_ne_true]
  refine beside.processes.fork ?_ row.ret
  intro process table related
  exact related

theorem clone (succeeded : row.ret ≠ -1)
    (cloned : system.recordClone number process row.ret = .ok after) :
    Beside env relation after (tablesMade row true tables) := by
  refine ⟨?_, beside.allFound.recordClone lookup cloned⟩
  rw [asProcesses_recordClone known lookup cloned, tablesMade, if_neg succeeded, if_pos rfl]
  refine Processes.Related.share ?_ row.tid row.ret
  rw [← Processes.modify_id row.tid tables]
  apply beside.processes.modify
  intro process table _ _ related
  exact related

theorem vforkBranch (ran : system.vforkBranch process row.ret = .ok after) :
    Beside env relation after (tablesMade row false tables) := by
  unfold ParserSystem.vforkBranch at ran
  split_ifs at ran with succeeded
  · exact beside.fork known lookup succeeded ran
  · cases ran
    rw [tablesMade, if_pos (Decidable.not_not.1 succeeded)]
    exact beside

/-- The assertions about the flags make `CLONE_VM` and `CLONE_FILES` agree. -/
theorem cloneBranch {flags : CloneFlags}
    (ran : system.cloneBranch number process row.ret flags = .ok after) :
    Beside env relation after (tablesMade row flags.files tables) := by
  unfold ParserSystem.cloneBranch at ran
  split_ifs at ran with succeeded thread
  · obtain ⟨⟨⟩, files, ran⟩ := bind_eq_ok_iff.1 ran
    obtain ⟨⟨⟩, fs, ran⟩ := bind_eq_ok_iff.1 ran
    rw [assertThat_eq_ok_iff.1 files]
    exact beside.clone known lookup succeeded ran
  · obtain ⟨⟨⟩, files, ran⟩ := bind_eq_ok_iff.1 ran
    obtain ⟨⟨⟩, fs, ran⟩ := bind_eq_ok_iff.1 ran
    rw [assertThat_eq_ok_iff.1 files]
    exact beside.fork known lookup succeeded ran
  · cases ran
    rw [tablesMade, if_pos (Decidable.not_not.1 succeeded)]
    exact beside

theorem chdirBranch (path : Posix.Path) :
    Beside env relation (system.chdirBranch number process row.ret path)
      tables := by
  unfold ParserSystem.chdirBranch
  split_ifs
  · refine ⟨?_, beside.allFound.of_grown (grown_set lookup rfl
      fun _ member => member) fun _ => Or.inl rfl⟩
    have modified := asProcesses_set known lookup fun process => { process with cwd := path }
    change Processes.Related _ ⟨system.processes.set number { process with cwd := path },
        fun tid => (system.trackersMap.lookup tid).join⟩ _
    rw [modified, ← Processes.modify_id row.tid tables]
    apply beside.processes.modify
    intro process table _ _ related
    exact related
  · exact beside

end

end

/-- One row.  An `execve` closes descriptors and is left out. -/
theorem translate {start : σ} {change : σ → σ} (starts : relation .init start)
    (notExecve : row.call ≠ .execve)
    (step : ∀ call process table state ops, row.call = .plain call →
      (tables.enter start row.tid).stateOf row.tid = some table → relation process.tracker table →
          emit (env.forThread row.tid) (system.stateOf process)
              ⟨call, row.ret, row.fresh, row.uuid⟩ = .ok (state, ops) → after.pad = state.pad →
              relation state.tracker (change table))
    (ran : system.translate env row = .ok (after, ops)) : Beside env relation after
      (tablesAfter row change (tables.enter start row.tid)) := by
  obtain ⟨⟨found, number, process⟩, searched, ran⟩ := bind_eq_ok_iff.1 ran
  have tracked := tracked_of_getProctracker searched
  have entered := beside.enter starts tracked
  unfold ParserSystem.translateCall at ran
  unfold tablesAfter
  cases call : row.call with
  | plain plainCall =>
    rw [call] at ran
    obtain ⟨⟨state, emitted⟩, emits, result⟩ := map_eq_ok_iff.1 ran
    cases result
    have sameState : found.stateOf process = system.stateOf process := by
      rw [tracked.entered, ParserSystem.entered]
      split <;> rfl
    rw [sameState] at emits
    exact entered.call tracked.known tracked.lookup fun table isTable
      related => step plainCall process table state emitted call isTable related emits rfl
  | openFault address =>
    rw [call] at ran
    cases ran
  | chdir path =>
    rw [call] at ran
    cases ran
    exact entered.chdirBranch tracked.known tracked.lookup path
  | clone flags =>
    rw [call] at ran
    obtain ⟨made, making, result⟩ := map_eq_ok_iff.1 ran
    cases result
    exact entered.cloneBranch tracked.known tracked.lookup making
  | vfork =>
    rw [call] at ran
    obtain ⟨made, making, result⟩ := map_eq_ok_iff.1 ran
    cases result
    exact entered.vforkBranch tracked.known tracked.lookup making
  | execve => exact absurd call notExecve
  | mremap addr length =>
    rw [call] at ran
    obtain ⟨made, making, result⟩ := map_eq_ok_iff.1 ran
    cases result
    unfold ParserSystem.mremapBranch at making
    split_ifs at making
    · obtain ⟨regions, -, making⟩ := bind_eq_ok_iff.1 making
      obtain ⟨-, -, making⟩ := bind_eq_ok_iff.1 making
      cases making
      exact entered
    · cases making
      exact entered

/-- The row of a thread that has a table is translated with the tracker beside
this table. -/
theorem translate_plain {table : σ} {call : Call} (ownTable : tables.stateOf row.tid = some table)
    (isPlain : row.call = .plain call) : ∃ number process, relation process.tracker table ∧
      system.translate env row = (emit (env.forThread row.tid) (system.stateOf process)
          ⟨call, row.ret, row.fresh, row.uuid⟩).map fun emitted =>
            (system.withState number process emitted.1, emitted.2) := by
  obtain ⟨process, held, related⟩ := beside.processes.exists_left ownTable
  obtain ⟨number, thread, lookup⟩ := Option.bind_eq_some_iff.1 held
  have known : system.trackersMap.lookup row.tid = some (some number) :=
    Option.join_eq_some_iff.1 thread
  obtain ⟨owner, ⟨unknown, -⟩ | ⟨number', known', lookup', own⟩⟩ := beside.allFound row.tid
  · rw [known] at unknown
    cases unknown
  · rw [known, Option.some.injEq, Option.some.injEq] at known'
    subst known'
    obtain rfl : process = owner := Option.some.inj (lookup.symm.trans lookup')
    refine ⟨number, process, related, ?_⟩
    have found : system.getProctracker env row.tid = .ok (system, number, process) := by
      simp only [ParserSystem.getProctracker, known, lookup', if_pos own]
    rw [ParserSystem.translate, found, ok_bind]
    simp only [ParserSystem.translateCall, isPlain]

end

end Beside

end

end Alice
