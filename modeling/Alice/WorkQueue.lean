import Mathlib.Algebra.BigOperators.Fin

/-! # A queue of jobs with worker threads

A main thread prepares jobs, each in a place of its own.  Workers run them,
store the results in a shared table and clear the places.  If no two jobs
since the last reset share a place, the table then holds the result of every
job put since.  No run goes on forever, and none gets stuck. -/

namespace WorkQueue

open Relation

variable {Job Place Content Result : Type}

/-! ## Programs of the main thread -/

/-- What the main thread does.  What comes after `wait` depends on the
table. -/
inductive Program (Job Result : Type) where
  /-- Prepare the place of a job and put it. -/
  | submit (job : Job) (next : Program Job Result)
  | wait (next : (Job → Option Result) → Program Job Result)
  | reset (next : Program Job Result)
  | done
  | failed

namespace Program

def submitAll (jobs : List Job) (next : Program Job Result) : Program Job Result :=
  jobs.foldr submit next

/-- What is left when the first item is done. -/
inductive Next : Program Job Result → Program Job Result → Prop
  | submit (job next) : Next next (submit job next)
  | wait (next results) : Next (next results) (wait next)
  | reset (next) : Next next (reset next)
  | resetFails (next) : Next failed (reset next)

theorem not_next_failed (program : Program Job Result) : ¬ Next program failed :=
  nofun

theorem acc_failed : Acc Next (failed : Program Job Result) :=
  ⟨_, fun program next => absurd next (not_next_failed program)⟩

theorem wellFounded_next : WellFounded (Next : Program Job Result → Program Job Result → Prop) := by
  constructor
  intro program
  induction program with
  | submit job next ih =>
    constructor
    rintro after ⟨⟩
    exact ih
  | wait next ih =>
    constructor
    rintro after ⟨⟩
    exact ih _
  | reset next ih =>
    constructor
    rintro after (_ | _)
    · exact ih
    · exact acc_failed
  | done =>
    constructor
    rintro after ⟨⟩
  | failed => exact acc_failed

end Program

/-! ## Threads -/

/-- What a worker thread is at. -/
inductive Worker (Job Result : Type) where
  | idle
  | running (job : Job)
  | exited (job : Job) (result : Result)
  | stored (job : Job)
  | cleared (job : Job)

namespace Worker

/-- The job that has been taken from the queue and is not finished. -/
def job? : Worker Job Result → Option Job
  | idle => none
  | running job | exited job _ | stored job | cleared job => some job

def busy : Worker Job Result → ℕ
  | idle => 0
  | _ => 1

/-- The number of actions until the worker is idle. -/
def actions : Worker Job Result → ℕ
  | idle => 0
  | running _ => 4
  | exited _ _ => 3
  | stored _ => 2
  | cleared _ => 1

end Worker

/-- Where jobs have their input, what it is, and what running them gives.  A
result depends on nothing but the place and what is there. -/
structure Setting (Job Place Content Result : Type) where
  place : Job → Place
  content : Job → Content
  missing : Content
  run : Place → Content → Result

def Setting.expected (setting : Setting Job Place Content Result) (job : Job) : Result :=
  setting.run (setting.place job) (setting.content job)

/-- The state of all threads.  `prepared` is a job whose place is ready and
that is to be put next, and `submitted` is a history of the jobs that have
been put since the last reset. -/
structure State (Job Place Content Result : Type) (threads : ℕ) where
  main : Program Job Result
  prepared : Option Job
  queue : List Job
  unfinished : ℕ
  results : Job → Option Result
  places : Place → Content
  workers : Fin threads → Worker Job Result
  submitted : List Job

namespace State

variable {threads : ℕ}

def start (threads : ℕ) (program : Program Job Result)
    (places : Place → Content) : State Job Place Content Result threads :=
  ⟨program, none, [], 0, fun _ => none, places, fun _ => .idle, []⟩

def total (state : State Job Place Content Result threads) (amount : Worker Job Result → ℕ) : ℕ :=
  ∑ thread, amount (state.workers thread)

/-- The number of actions that are possible before the main thread puts the
next job. -/
def actions (state : State Job Place Content Result threads) : ℕ :=
  (if state.prepared.isNone then 1 else 0) + 5 * state.queue.length + state.total Worker.actions

end State

section Steps

variable [DecidableEq Job] [DecidableEq Place] {threads : ℕ}
  (setting : Setting Job Place Content Result)

/-- An action of one of the threads. -/
inductive Step :
    State Job Place Content Result threads →
      State Job Place Content Result threads → Prop
  | prepare {state job next} (main : state.main = .submit job next)
      (notYet : state.prepared = none) :
      Step state
        { state with
          prepared := some job
          places := Function.update state.places (setting.place job) (setting.content job) }
  | put {state job next} (main : state.main = .submit job next)
      (prepared : state.prepared = some job) :
      Step state
        { state with
          main := next
          prepared := none
          queue := state.queue ++ [job]
          unfinished := state.unfinished + 1
          submitted := state.submitted ++ [job] }
  | wait {state next} (main : state.main = .wait next)
      (finished : state.unfinished = 0) :
      Step state { state with main := next state.results }
  | reset {state next} (main : state.main = .reset next)
      (empty : state.queue = []) :
      Step state
        { state with main := next, results := fun _ => none, submitted := [] }
  | resetFails {state next} (main : state.main = .reset next)
      (nonempty : state.queue ≠ []) :
      Step state { state with main := .failed }
  | get {state job rest} (thread : Fin threads)
      (idle : state.workers thread = .idle)
      (queue : state.queue = job :: rest) :
      Step state
        { state with
          queue := rest
          workers := Function.update state.workers thread (.running job) }
  -- a run may change what is in its place
  | exit {state job} (thread : Fin threads) (changed : Content)
      (running : state.workers thread = .running job) :
      Step state
        { state with
          places := Function.update state.places (setting.place job) changed
          workers := Function.update state.workers thread
            (.exited job (setting.run (setting.place job)
              (state.places (setting.place job)))) }
  | store {state job result} (thread : Fin threads)
      (exited : state.workers thread = .exited job result) :
      Step state
        { state with
          results := Function.update state.results job (some result)
          workers := Function.update state.workers thread (.stored job) }
  | clear {state job} (thread : Fin threads)
      (stored : state.workers thread = .stored job) :
      Step state
        { state with
          places := Function.update state.places (setting.place job) setting.missing
          workers := Function.update state.workers thread (.cleared job) }
  | taskDone {state job count} (thread : Fin threads)
      (cleared : state.workers thread = .cleared job)
      (unfinished : state.unfinished = count + 1) :
      Step state
        { state with
          unfinished := count
          workers := Function.update state.workers thread .idle }

end Steps

section Moves

variable {threads : ℕ} {workers after : Fin threads → Worker Job Result}
  {thread : Fin threads} {worker : Worker Job Result}

/-- One worker has moved on. -/
structure Moved (workers after : Fin threads → Worker Job Result) (thread : Fin threads)
    (worker : Worker Job Result) : Prop where
  here : after thread = worker
  others : ∀ other, other ≠ thread → after other = workers other

theorem moved_update (workers : Fin threads → Worker Job Result) (thread : Fin threads)
    (worker : Worker Job Result) :
    Moved workers (Function.update workers thread worker) thread worker :=
  ⟨Function.update_self _ _ _, fun _ different => Function.update_of_ne different _ _⟩

namespace Moved

section

variable (moved : Moved workers after thread worker)
include moved

theorem sum_eq (amount : Worker Job Result → ℕ) :
    ∑ other, amount (after other) + amount (workers thread) =
      ∑ other, amount (workers other) + amount worker := by
  rw [← Finset.add_sum_erase _ _ (Finset.mem_univ thread), ← Finset.add_sum_erase Finset.univ
    (fun other => amount (workers other)) (Finset.mem_univ thread), moved.here]
  have others : ∀ other ∈ Finset.univ.erase thread,
      amount (after other) = amount (workers other) := by
    intro other member
    rw [moved.others other (Finset.ne_of_mem_erase member)]
  rw [Finset.sum_congr rfl others]
  omega

theorem sum_actions_lt (fewer : worker.actions < (workers thread).actions) :
    ∑ other, (after other).actions < ∑ other, (workers other).actions := by
  have sum := moved.sum_eq Worker.actions
  omega

/-- A worker that moves on with its job. -/
theorem job?_eq (same : worker.job? = (workers thread).job?) (other : Fin threads) :
    (after other).job? = (workers other).job? := by
  by_cases isThread : other = thread
  · rw [isThread, moved.here, same]
  · rw [moved.others other isThread]

theorem sum_busy_eq (same : worker.busy = (workers thread).busy) :
    ∑ other, (after other).busy = ∑ other, (workers other).busy := by
  have sum := moved.sum_eq Worker.busy
  omega

end

end Moved

end Moves

/-! ## Every run ends -/

section Steps

variable [DecidableEq Job] [DecidableEq Place] {threads : ℕ}
  {setting : Setting Job Place Content Result}
  {before after : State Job Place Content Result threads}

/-- An action shortens the program of the main thread or leaves less to do
until it is shortened. -/
theorem Step.next_or_actions_lt (step : Step setting before after) : after.main.Next before.main ∨
      after.main = before.main ∧ after.actions < before.actions := by
  cases step with
  | prepare main notYet =>
    simp only [State.actions, State.total, notYet]
    simp
  | put main prepared => exact .inl (main ▸ .submit _ _)
  | wait main finished => exact .inl (main ▸ .wait _ _)
  | reset main empty => exact .inl (main ▸ .reset _)
  | resetFails main nonempty => exact .inl (main ▸ .resetFails _)
  | @get job rest thread idle queue =>
    have sum := (moved_update before.workers thread (.running job)).sum_eq Worker.actions
    refine .inr ⟨rfl, ?_⟩
    simp only [State.actions, State.total, queue, List.length_cons, Worker.actions] at sum ⊢
    omega
  | exit thread _ worker | store thread worker | clear thread worker | taskDone thread worker _ =>
    exact .inr ⟨rfl, Nat.add_lt_add_left ((moved_update _ _ _).sum_actions_lt
        (worker ▸ Nat.lt_succ_self _)) _⟩

theorem main_of_reached_failed (reached : ReflTransGen (Step setting) before after)
    (failed : before.main = .failed) : after.main = .failed := by
  induction reached with
  | refl => exact failed
  | tail _ step ih =>
    rcases step.next_or_actions_lt with shorter | ⟨same, -⟩
    · rw [ih] at shorter
      exact absurd shorter (Program.not_next_failed _)
    · rw [same, ih]

/-- No run goes on forever. -/
theorem wellFounded_step : WellFounded fun after before : State Job Place Content Result threads =>
      Step setting before after := by
  apply Subrelation.wf _ (InvImage.wf (fun state => (state.main, state.actions))
      (Program.wellFounded_next.prod_lex Nat.lt_wfRel.wf))
  intro after before step
  rcases step.next_or_actions_lt with shorter | ⟨same, fewer⟩
  · exact Prod.Lex.left _ _ shorter
  · rw [InvImage, same]
    exact Prod.Lex.right _ fewer

end Steps

/-! ## Places of their own -/

variable (setting : Setting Job Place Content Result)

/-- No two jobs since the last reset share a place, and a reset comes only
after all jobs have been waited for.  `quiet` says that this is so, and `used`
are the jobs since the last reset. -/
def Program.Proper : Program Job Result → Bool → List Job → Prop
  | .submit job next, _, used =>
      setting.place job ∉ used.map setting.place ∧ next.Proper false (used ++ [job])
  | .wait next, _, used => ∀ results, (next results).Proper true used
  | .reset next, quiet, _ => quiet = true ∧ next.Proper true []
  | .done, _, _ | .failed, _, _ => True

theorem Program.proper_submitAll {jobs used : List Job}
    {next : (Job → Option Result) → Program Job Result}
    (apart : ((used ++ jobs).map setting.place).Nodup)
    (proper : ∀ results, (next results).Proper setting true (used ++ jobs)) (quiet : Bool) :
    (submitAll jobs (.wait next)).Proper setting quiet used := by
  induction jobs generalizing used quiet with
  | nil =>
    rw [List.append_nil] at proper
    exact proper
  | cons job jobs ih =>
    rw [List.append_cons] at apart proper
    refine ⟨?_, ih apart proper false⟩
    rw [List.map_append, List.map_append] at apart
    exact (List.disjoint_right.1 (List.disjoint_of_nodup_append apart.of_append_left))
        (List.mem_map_of_mem (List.mem_singleton_self job))

section Invariant

variable {threads : ℕ}

/-- What holds in every state that can be reached. -/
structure Invariant (state : State Job Place Content Result threads) : Prop where
  proper : ∃ quiet, state.main.Proper setting quiet state.submitted ∧
    (quiet = true → state.unfinished = 0)
  counted : state.unfinished = state.queue.length + state.total Worker.busy
  nodup : (state.submitted.map setting.place).Nodup
  -- every unfinished job is in one place only
  queue_subset : state.queue ⊆ state.submitted
  queue_nodup : state.queue.Nodup
  held_mem : ∀ {thread job}, (state.workers thread).job? = some job →
    job ∈ state.submitted ∧ job ∉ state.queue
  held_once : ∀ {thread other job}, (state.workers thread).job? = some job →
    (state.workers other).job? = some job → other = thread
  -- the input of a job is there until it has run
  prepared_content : ∀ {job}, state.prepared = some job →
    (∃ next, state.main = .submit job next) ∧
      state.places (setting.place job) = setting.content job
  queue_content : ∀ {job}, job ∈ state.queue →
    state.places (setting.place job) = setting.content job
  running_content : ∀ {thread job}, state.workers thread = .running job →
    state.places (setting.place job) = setting.content job
  exited_result : ∀ {thread job result},
    state.workers thread = .exited job result →
      result = setting.expected job
  -- a job without a result is still to be run or stored
  results_eq : ∀ {job result}, state.results job = some result →
    job ∈ state.submitted ∧ result = setting.expected job
  results_missing : ∀ {job}, job ∈ state.submitted →
    state.results job = none → job ∈ state.queue ∨
      ∃ thread, state.workers thread = .running job ∨
        ∃ result, state.workers thread = .exited job result

variable {setting} {state before after : State Job Place Content Result threads}

theorem invariant_start {program : Program Job Result} (proper : program.Proper setting true [])
    (places : Place → Content) : Invariant setting (State.start threads program places) where
  proper := ⟨true, proper, fun _ => rfl⟩
  counted := by simp [State.start, State.total, Worker.busy]
  nodup := List.nodup_nil
  queue_subset := List.nil_subset _
  queue_nodup := List.nodup_nil
  held_mem := nofun
  held_once := nofun
  prepared_content := nofun
  queue_content := nofun
  running_content := nofun
  exited_result := nofun
  results_eq := nofun
  results_missing := nofun

namespace Invariant

variable {job : Job} {next : Program Job Result}

theorem place_inj (invariant : Invariant setting state) {other : Job}
    (member : job ∈ state.submitted) (otherMember : other ∈ state.submitted)
    (same : setting.place job = setting.place other) : job = other :=
  List.inj_on_of_nodup_map invariant.nodup member otherMember same

theorem held_of_running {worker : Worker Job Result} (running : worker = .running job) :
    worker.job? = some job := by
  rw [running]
  rfl

section Main

variable [DecidableEq Place]

/-- Changing one place does not concern the jobs in the others. -/
theorem update_of_ne {places : Place → Content} {job other : Job} {content changed : Content}
    (here : places (setting.place other) = content)
    (different : setting.place other ≠ setting.place job) :
    Function.update places (setting.place job) changed (setting.place other) = content := by
  rw [Function.update_of_ne different]
  exact here

theorem prepare (invariant : Invariant setting state) {job : Job} {next : Program Job Result}
    (main : state.main = .submit job next) : Invariant setting { state with
        prepared := some job
        places := Function.update state.places (setting.place job) (setting.content job) } := by
  obtain ⟨quiet, proper, -⟩ := invariant.proper
  rw [main] at proper
  have different : ∀ other ∈ state.submitted, setting.place other ≠ setting.place job := by
    intro other member same
    exact proper.1 (same ▸ List.mem_map_of_mem member)
  exact { invariant with
      prepared_content := by
        rintro other ⟨⟩
        exact ⟨⟨next, main⟩, Function.update_self _ _ _⟩
      queue_content := fun member =>
        update_of_ne (invariant.queue_content member) (different _ (invariant.queue_subset member))
      running_content := fun running =>
        update_of_ne (invariant.running_content running)
          (different _ (invariant.held_mem (held_of_running running)).1) }

end Main

section

variable (invariant : Invariant setting state)
include invariant

theorem put (main : state.main = .submit job next) (prepared : state.prepared = some job) :
    Invariant setting { state with
        main := next
        prepared := none
        queue := state.queue ++ [job]
        unfinished := state.unfinished + 1
        submitted := state.submitted ++ [job] } := by
  obtain ⟨quiet, proper, -⟩ := invariant.proper
  rw [main] at proper
  have isNew : job ∉ state.submitted := fun member => proper.1 (List.mem_map_of_mem member)
  exact { invariant with
      proper := ⟨false, proper.2, nofun⟩
      counted := by
        have counted := invariant.counted
        simp only [State.total, List.length_append, List.length_singleton] at counted ⊢
        omega
      nodup := by
        rw [List.map_append, List.map_singleton]
        exact List.nodup_append.2 ⟨invariant.nodup, List.nodup_singleton _,
          fun place member other single same =>
            proper.1 (List.mem_singleton.1 single ▸ same ▸ member)⟩
      queue_subset := List.append_subset.2
        ⟨List.subset_append_of_subset_left _ invariant.queue_subset, List.subset_append_right _ _⟩
      queue_nodup := List.nodup_append.2 ⟨invariant.queue_nodup,
        List.nodup_singleton _, fun other member _ single same =>
          isNew (List.mem_singleton.1 single ▸ same ▸ invariant.queue_subset member)⟩
      held_mem := by
        intro thread other held
        obtain ⟨member, notQueued⟩ := invariant.held_mem held
        refine ⟨List.mem_append_left _ member, ?_⟩
        rw [List.mem_append, List.mem_singleton, not_or]
        exact ⟨notQueued, fun same => isNew (same ▸ member)⟩
      prepared_content := nofun
      queue_content := by
        intro other member
        rcases List.mem_append.1 member with old | single
        · exact invariant.queue_content old
        · rw [List.mem_singleton.1 single]
          exact (invariant.prepared_content prepared).2
      results_eq := fun isResult =>
        ⟨List.mem_append_left _ (invariant.results_eq isResult).1,
          (invariant.results_eq isResult).2⟩
      results_missing := by
        intro other member missing
        rcases List.mem_append.1 member with old | single
        · exact (invariant.results_missing old missing).imp_left (List.mem_append_left _)
        · exact .inl (List.mem_append_right _ single) }

theorem idle_of_unfinished (finished : state.unfinished = 0) :
    state.queue = [] ∧ ∀ thread, state.workers thread = .idle := by
  have counted := invariant.counted
  rw [finished, eq_comm, Nat.add_eq_zero_iff, List.length_eq_zero_iff,
    State.total, Finset.sum_eq_zero_iff] at counted
  refine ⟨counted.1, fun thread => ?_⟩
  have notBusy := counted.2 thread (Finset.mem_univ thread)
  cases isWorker : state.workers thread with
  | idle => rfl
  | _ =>
    rw [isWorker] at notBusy
    cases notBusy

theorem results_of_unfinished [DecidableEq Job] (finished : state.unfinished = 0) (job : Job) :
    state.results job =
      if job ∈ state.submitted then some (setting.expected job) else none := by
  obtain ⟨noQueue, idle⟩ := invariant.idle_of_unfinished finished
  cases isResult : state.results job with
  | some result =>
    obtain ⟨member, isExpected⟩ := invariant.results_eq isResult
    rw [if_pos member, isExpected]
  | none =>
    rw [if_neg]
    intro member
    rcases invariant.results_missing member isResult with
      queued | ⟨thread, running | ⟨result, exited⟩⟩
    · rw [noQueue] at queued
      cases queued
    · rw [idle thread] at running
      cases running
    · rw [idle thread] at exited
      cases exited

theorem wait {next : (Job → Option Result) → Program Job Result} (main : state.main = .wait next)
    (finished : state.unfinished = 0) :
    Invariant setting { state with main := next state.results } := by
  obtain ⟨quiet, proper, -⟩ := invariant.proper
  rw [main] at proper
  exact { invariant with
      proper := ⟨true, proper _, fun _ => finished⟩
      prepared_content := by
        intro job prepared
        obtain ⟨_, submitting⟩ := (invariant.prepared_content prepared).1
        rw [main] at submitting
        cases submitting }

theorem unfinished_of_reset (main : state.main = .reset next) : state.unfinished = 0 := by
  obtain ⟨quiet, proper, finished⟩ := invariant.proper
  rw [main] at proper
  exact finished proper.1

theorem reset (main : state.main = .reset next) : Invariant setting
      { state with
        main := next, results := fun _ => none, submitted := [] } := by
  have finished := invariant.unfinished_of_reset main
  obtain ⟨noQueue, idle⟩ := invariant.idle_of_unfinished finished
  obtain ⟨quiet, proper, -⟩ := invariant.proper
  rw [main] at proper
  exact { invariant with
      proper := ⟨true, proper.2, fun _ => finished⟩
      nodup := List.nodup_nil
      queue_subset := by
        intro job queued
        exact absurd (noQueue ▸ queued) List.not_mem_nil
      held_mem := by
        intro thread job held
        rw [idle thread] at held
        cases held
      prepared_content := by
        intro job prepared
        obtain ⟨_, submitting⟩ := (invariant.prepared_content prepared).1
        rw [main] at submitting
        cases submitting
      results_eq := nofun
      results_missing := nofun }

end

section Workers

variable {thread : Fin threads} {job : Job}

theorem get
    (invariant : Invariant setting state) {rest : List Job} (idle : state.workers thread = .idle)
    (queue : state.queue = job :: rest) : Invariant setting { state with
        queue := rest
        workers := Function.update state.workers thread (.running job) } := by
  have queued : job ∈ state.queue := queue ▸ List.mem_cons_self
  have inQueue : ∀ other ∈ rest, other ∈ state.queue := fun other member =>
    queue ▸ List.mem_cons_of_mem job member
  have nodup := List.nodup_cons.1 (queue ▸ invariant.queue_nodup)
  have notHeld : ∀ other, (state.workers other).job? ≠ some job :=
    fun other held => (invariant.held_mem held).2 queued
  have moved := moved_update state.workers thread (.running job)
  have sum := moved.sum_eq Worker.busy
  obtain ⟨here, others⟩ := moved
  exact { invariant with
      counted := by
        have counted := invariant.counted
        simp only [State.total, queue, List.length_cons, idle, Worker.busy] at counted sum ⊢
        omega
      queue_subset := fun other member => invariant.queue_subset (inQueue other member)
      queue_nodup := nodup.2
      held_mem := by
        have old := @invariant.held_mem
        have member := invariant.queue_subset queued
        grind [Worker.job?]
      held_once := by
        have old := @invariant.held_once
        grind [Worker.job?]
      queue_content := fun member => invariant.queue_content (inQueue _ member)
      running_content := by
        have old := @invariant.running_content
        have ready := invariant.queue_content queued
        grind
      exited_result := by
        have old := @invariant.exited_result
        grind
      results_missing := by
        have old := @invariant.results_missing
        grind }

/-- The place of a job that a worker has taken is that of no other job. -/
theorem place_ne
    (invariant : Invariant setting state) (held : (state.workers thread).job? = some job) :
    (∀ other, state.prepared = some other → setting.place other ≠ setting.place job) ∧
      (∀ other ∈ state.queue, setting.place other ≠ setting.place job) ∧
      ∀ other another, other ≠ thread → (state.workers other).job? = some another →
          setting.place another ≠ setting.place job := by
  obtain ⟨member, notQueued⟩ := invariant.held_mem held
  refine ⟨fun other prepared same => ?_, fun other queued same => ?_,
    fun other another different isHeld same => ?_⟩
  · obtain ⟨⟨next, main⟩, -⟩ := invariant.prepared_content prepared
    obtain ⟨quiet, proper, -⟩ := invariant.proper
    rw [main] at proper
    exact proper.1 (same ▸ List.mem_map_of_mem member)
  · have equal := invariant.place_inj (invariant.queue_subset queued) member same
    exact notQueued (equal ▸ queued)
  · have equal := invariant.place_inj (invariant.held_mem isHeld).1 member same
    exact different (invariant.held_once held (equal ▸ isHeld))

section

variable [DecidableEq Place]

theorem exit (invariant : Invariant setting state) (changed : Content)
    (running : state.workers thread = .running job) :
    Invariant setting { state with
        places := Function.update state.places (setting.place job) changed
        workers := Function.update state.workers thread
          (.exited job (setting.run (setting.place job) (state.places (setting.place job)))) } := by
  obtain ⟨ofPrepared, ofQueue, ofOthers⟩ := invariant.place_ne (held_of_running running)
  have moved := moved_update state.workers thread (.exited job (setting.run (setting.place job)
      (state.places (setting.place job))))
  have isExpected : setting.run (setting.place job)
      (state.places (setting.place job)) = setting.expected job := by
    rw [invariant.running_content running]
    rfl
  have job?_eq := moved.job?_eq (running ▸ rfl)
  have sum := moved.sum_busy_eq (running ▸ rfl)
  exact { invariant with
      counted := invariant.counted.trans (congrArg (state.queue.length + ·) sum.symm)
      held_mem := fun held => invariant.held_mem (job?_eq _ ▸ held)
      held_once := fun first second => invariant.held_once (job?_eq _ ▸ first) (job?_eq _ ▸ second)
      prepared_content := fun prepared =>
        ⟨(invariant.prepared_content prepared).1, update_of_ne
          (invariant.prepared_content prepared).2 (ofPrepared _ prepared)⟩
      queue_content := fun member =>
        update_of_ne (invariant.queue_content member) (ofQueue _ member)
      running_content := by
        have old := @invariant.running_content
        grind [Worker.job?]
      exited_result := by
        have old := @invariant.exited_result
        grind
      results_missing := by
        have old := @invariant.results_missing
        grind }

theorem clear (invariant : Invariant setting state) (stored : state.workers thread = .stored job) :
    Invariant setting { state with
        places := Function.update state.places (setting.place job) setting.missing
        workers := Function.update state.workers thread (.cleared job) } := by
  obtain ⟨ofPrepared, ofQueue, ofOthers⟩ :=
    @place_ne _ _ _ _ _ _ _ thread job invariant (by rw [stored]; rfl)
  have moved := moved_update state.workers thread (.cleared job)
  have job?_eq := moved.job?_eq (stored ▸ rfl)
  have sum := moved.sum_busy_eq (stored ▸ rfl)
  exact { invariant with
      counted := invariant.counted.trans (congrArg (state.queue.length + ·) sum.symm)
      held_mem := fun held => invariant.held_mem (job?_eq _ ▸ held)
      held_once := fun first second => invariant.held_once (job?_eq _ ▸ first) (job?_eq _ ▸ second)
      prepared_content := fun prepared =>
        ⟨(invariant.prepared_content prepared).1, update_of_ne
          (invariant.prepared_content prepared).2 (ofPrepared _ prepared)⟩
      queue_content := fun member =>
        update_of_ne (invariant.queue_content member) (ofQueue _ member)
      running_content := by
        have old := @invariant.running_content
        grind [Worker.job?]
      exited_result := by
        have old := @invariant.exited_result
        grind
      results_missing := by
        have old := @invariant.results_missing
        grind }

end

theorem store [DecidableEq Job] (invariant : Invariant setting state) {result : Result}
    (exited : state.workers thread = .exited job result) : Invariant setting { state with
        results := Function.update state.results job (some result)
        workers := Function.update state.workers thread (.stored job) } := by
  have moved := moved_update state.workers thread (.stored job)
  have job?_eq := moved.job?_eq (exited ▸ rfl)
  have sum := moved.sum_busy_eq (exited ▸ rfl)
  have member := (@held_mem _ _ _ _ _ _ _ invariant thread job (by rw [exited]; rfl)).1
  have isExpected := invariant.exited_result exited
  exact { invariant with
      counted := invariant.counted.trans (congrArg (state.queue.length + ·) sum.symm)
      held_mem := fun held => invariant.held_mem (job?_eq _ ▸ held)
      held_once := fun first second => invariant.held_once (job?_eq _ ▸ first) (job?_eq _ ▸ second)
      running_content := by
        have old := @invariant.running_content
        grind
      exited_result := by
        have old := @invariant.exited_result
        grind
      results_eq := by
        have old := @invariant.results_eq
        grind [Function.update_apply]
      results_missing := by
        have old := @invariant.results_missing
        grind [Function.update_apply] }

theorem taskDone (invariant : Invariant setting state) {count : ℕ}
    (cleared : state.workers thread = .cleared job) (unfinished : state.unfinished = count + 1) :
    Invariant setting { state with
        unfinished := count
        workers := Function.update state.workers thread .idle } := by
  obtain ⟨quiet, proper, finished⟩ := invariant.proper
  have moved := moved_update state.workers thread .idle
  have sum := moved.sum_eq Worker.busy
  obtain ⟨here, others⟩ := moved
  exact { invariant with
      proper := ⟨quiet, proper, fun isQuiet =>
        absurd (unfinished.symm.trans (finished isQuiet)) (Nat.succ_ne_zero count)⟩
      counted := by
        have counted := invariant.counted
        simp only [State.total, cleared, unfinished, Worker.busy] at counted sum ⊢
        omega
      held_mem := by
        have old := @invariant.held_mem
        grind [Worker.job?]
      held_once := by
        have old := @invariant.held_once
        grind [Worker.job?]
      running_content := by
        have old := @invariant.running_content
        grind
      exited_result := by
        have old := @invariant.exited_result
        grind
      results_missing := by
        have old := @invariant.results_missing
        grind }

end Workers

end Invariant

variable [DecidableEq Job] [DecidableEq Place]

theorem Step.invariant (step : Step setting before after) (invariant : Invariant setting before) :
    Invariant setting after := by
  cases step with
  | prepare main notYet => exact invariant.prepare main
  | put main prepared => exact invariant.put main prepared
  | wait main finished => exact invariant.wait main finished
  | reset main empty => exact invariant.reset main
  | resetFails main nonempty =>
    have finished := invariant.unfinished_of_reset main
    exact absurd (invariant.idle_of_unfinished finished).1 nonempty
  | get thread idle queue => exact invariant.get idle queue
  | exit thread changed running => exact invariant.exit changed running
  | store thread exited => exact invariant.store exited
  | clear thread stored => exact invariant.clear stored
  | taskDone thread cleared unfinished => exact invariant.taskDone cleared unfinished

theorem invariant_of_reached {program : Program Job Result}
    (proper : program.Proper setting true []) {places : Place → Content}
    (reached : ReflTransGen (Step setting) (State.start threads program places) state) :
    Invariant setting state := by
  induction reached with
  | refl => exact invariant_start proper places
  | tail _ step ih => exact step.invariant ih

/-! ## No run gets stuck -/

namespace Invariant

theorem exists_step_of_busy (invariant : Invariant setting state) {thread : Fin threads}
    (busy : state.workers thread ≠ .idle) : ∃ after, Step setting state after := by
  cases isWorker : state.workers thread with
  | idle => exact absurd isWorker busy
  | running job => exact ⟨_, .exit thread setting.missing isWorker⟩
  | exited job result => exact ⟨_, .store thread isWorker⟩
  | stored job => exact ⟨_, .clear thread isWorker⟩
  | cleared job =>
    have positive : state.unfinished ≠ 0 := fun finished =>
      busy ((invariant.idle_of_unfinished finished).2 thread)
    obtain ⟨count, isCount⟩ := Nat.exists_eq_succ_of_ne_zero positive
    exact ⟨_, .taskDone thread isWorker isCount⟩

theorem exists_step_of_unfinished (invariant : Invariant setting state) (someThread : 0 < threads)
    (unfinished : state.unfinished ≠ 0) : ∃ after, Step setting state after := by
  by_cases idle : ∀ thread, state.workers thread = .idle
  · have counted := invariant.counted
    have noneBusy : state.total Worker.busy = 0 :=
      Finset.sum_eq_zero fun thread _ => by rw [idle thread]; rfl
    rw [noneBusy, Nat.add_zero] at counted
    obtain ⟨job, rest, queue⟩ := List.exists_cons_of_length_pos
      (counted ▸ Nat.pos_of_ne_zero unfinished)
    exact ⟨_, .get ⟨0, someThread⟩ (idle _) queue⟩
  · obtain ⟨thread, busy⟩ := not_forall.1 idle
    exact invariant.exists_step_of_busy busy

/-- The run can go on until the main thread has ended. -/
theorem exists_step_or_ended (invariant : Invariant setting state) (someThread : 0 < threads) :
    (∃ after, Step setting state after) ∨ state.main = .done ∨ state.main = .failed := by
  cases main : state.main with
  | submit job next =>
    cases prepared : state.prepared with
    | none => exact .inl ⟨_, .prepare main prepared⟩
    | some other =>
      obtain ⟨⟨_, submitting⟩, -⟩ := invariant.prepared_content prepared
      rw [main] at submitting
      cases submitting
      exact .inl ⟨_, .put main prepared⟩
  | wait next =>
    by_cases finished : state.unfinished = 0
    · exact .inl ⟨_, .wait main finished⟩
    · exact .inl (invariant.exists_step_of_unfinished someThread finished)
  | reset next =>
    have finished := invariant.unfinished_of_reset main
    exact .inl ⟨_, .reset main (invariant.idle_of_unfinished finished).1⟩
  | done => exact .inr (.inl rfl)
  | failed => exact .inr (.inr rfl)

end Invariant

end Invariant

end WorkQueue
