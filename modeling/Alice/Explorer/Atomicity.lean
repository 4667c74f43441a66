import Alice.Legality.Shape
import Alice.Replay.Replayer

/-! # `default_checks`: atomicity vulnerabilities

The last phase interrupts every logical operation after each of its disk
operations but the last, under three splittings.  The loop that collects the
exit codes runs over the disk operations of the last splitting. -/

namespace Alice

/-- The three modes of the phase. -/
inductive CheckMode where
  | count1
  | count3
  | aligned4096
  deriving DecidableEq, Repr

namespace CheckMode

/-- The modes in the order of the loops. -/
def all : List CheckMode :=
  [count1, count3, aligned4096]

theorem mem_all (mode : CheckMode) : mode ∈ all := by
  cases mode <;> decide

/-- `defaultfs(*mode)`. -/
def fs (ceilDiv : FloatCeilDiv) : CheckMode → Defaultfs
  | count1 => ⟨.count, 1, Nat.one_pos, ceilDiv⟩
  | count3 => ⟨.count, 3, Nat.zero_lt_succ 2, ceilDiv⟩
  | aligned4096 => ⟨.aligned, 4096, Nat.zero_lt_succ 4095, ceilDiv⟩

end CheckMode

/-- What a crash state is filed under. -/
inductive StateId where
  | whole (mode : CheckMode) (i j : ℕ)
  | omitting (mode : CheckMode) (i j k : ℕ)
  deriving DecidableEq, Repr

/-- The replayer, the identifiers given to `check_later`, and
`atomicity_explanations`. -/
structure AtomicityPhase where
  replayer : Replayer
  queue : List StateId
  explanations : CheckMode → ℕ → ℕ → Option String

/-- Surroundings of the phase that do not change. -/
structure ExplorerEnv where
  names : Names
  ceilDiv : FloatCeilDiv
  replayEnv : ReplayEnv

namespace AtomicityPhase

/-- `replayer.get_op(i).hidden_disk_ops[j].atomicity`. -/
def atomicityOf (replayer : Replayer) (i j : ℕ) : Except PyError String :=
  match (replayer.microOps[i]?).bind fun state => state.diskOps[j]? with
  | none => .error .indexError
  | some disk =>
      match disk.op.atomicity? with
      | none => .error .attributeError
      | some text => .ok text

def explain (explanations : CheckMode → ℕ → ℕ → Option String) (mode : CheckMode)
    (i j : ℕ) (text : String) : CheckMode → ℕ → ℕ → Option String :=
  fun mode' i' j' =>
    if mode' = mode ∧ i' = i ∧ j' = j then
      some text
    else
      explanations mode' i' j'

/-- Enqueue a state if it is legal. -/
def checkLater (env : ExplorerEnv) (replayer : Replayer) (queue : List StateId) (id : StateId) :
    Except PyError (List StateId) := do
  if ← replayer.isLegal then
    let _ ← replayer.constructCrashedDir env.replayEnv none
    pure (queue ++ [id])
  else
    pure queue

/-- The loop over `k`.  It is made in every mode, because the mode that it is
to be left out for is misspelt in the test. -/
def omitLoop (env : ExplorerEnv) (mode : CheckMode) (i j : ℕ) :
    List ℕ → AtomicityPhase → Except PyError AtomicityPhase
  | [], phase => .ok phase
  | k :: rest, phase => do
      let omitted ← phase.replayer.dopsOmit i k
      let queue ← checkLater env omitted phase.queue (.omitting mode i j k)
      let included ← omitted.dopsInclude i k
      omitLoop env mode i j rest { phase with replayer := included, queue := queue }

/-- The first half of the body of the loop over `j`. -/
def checkEnd (env : ExplorerEnv) (mode : CheckMode) (i j : ℕ)
    (phase : AtomicityPhase) : Except PyError AtomicityPhase := do
  let ended := phase.replayer.dopsEndAt i j
  if ← ended.isLegal then
    let _ ← ended.constructCrashedDir env.replayEnv none
    let text ← atomicityOf ended i j
    pure
      { replayer := ended
        queue := phase.queue ++ [.whole mode i j]
        explanations := explain phase.explanations mode i j text }
  else
    pure { phase with replayer := ended }

def endLoop (env : ExplorerEnv) (mode : CheckMode) (i : ℕ) :
    List ℕ → AtomicityPhase → Except PyError AtomicityPhase
  | [], phase => .ok phase
  | j :: rest, phase => do
      let checked ← checkEnd env mode i j phase
      let looped ← omitLoop env mode i j (List.range j) checked
      endLoop env mode i rest looped

/-- The test that leaves out an operation. -/
def Skipped (patch : Finset ℕ) (i : ℕ) : Prop :=
  i ∈ patch ∨ 0 < i ∧ i - 1 ∈ patch

instance (patch : Finset ℕ) (i : ℕ) : Decidable (Skipped patch i) :=
  inferInstanceAs (Decidable (i ∈ patch ∨ 0 < i ∧ i - 1 ∈ patch))

def microLoop (env : ExplorerEnv) (mode : CheckMode) (patch : Finset ℕ) :
    List ℕ → AtomicityPhase → Except PyError AtomicityPhase
  | [], phase => .ok phase
  | i :: rest, phase =>
      if Skipped patch i then
        microLoop env mode patch rest phase
      else do
        let length ← phase.replayer.dopsLen i
        let looped ← endLoop env mode i (List.range (length - 1)) phase
        microLoop env mode patch rest looped

/-- The loop over the modes, where `patch` is `atomic_patch_middle`. -/
def modeLoop (env : ExplorerEnv) (microOps : List MicroOp) (patch : Finset ℕ) :
    List CheckMode → AtomicityPhase → Except PyError AtomicityPhase
  | [], phase => .ok phase
  | mode :: rest, phase => do
      let replayer ← Replayer.setFs env.names (mode.fs env.ceilDiv)
        phase.replayer.snapshot microOps phase.replayer.microEnd
        phase.replayer.diskEnd
      let looped ← microLoop env mode patch (List.range microOps.length)
        { phase with replayer := replayer }
      modeLoop env microOps patch rest looped

/-- The states that the phase enqueues, from the replayer it starts with. -/
def enqueue (env : ExplorerEnv) (microOps : List MicroOp) (patch : Finset ℕ) (replayer : Replayer) :
    Except PyError AtomicityPhase :=
  modeLoop env microOps patch CheckMode.all ⟨replayer, [], fun _ _ _ => none⟩

/-! ## Collecting -/

/-- `id in checker_outputs and checker_outputs[id] != 0`. -/
def Fails (phase : AtomicityPhase) (verdict : StateId → ℤ) (id : StateId) : Prop :=
  id ∈ phase.queue ∧ verdict id ≠ 0

instance (phase : AtomicityPhase) (verdict : StateId → ℤ) (id : StateId) :
    Decidable (phase.Fails verdict id) :=
  inferInstanceAs (Decidable (id ∈ phase.queue ∧ verdict id ≠ 0))

/-- Pairs of a disk operation and a mode, in the order of the loops. -/
def positions (length : ℕ) : List (ℕ × CheckMode) :=
  (List.range (length - 1)).flatMap fun j =>
    CheckMode.all.map fun mode => (j, mode)

/-- `atomicity_explanations[(mode, i, j)]`. -/
def explanation (phase : AtomicityPhase) (i : ℕ) (position : ℕ × CheckMode) :
    Except PyError String :=
  match phase.explanations position.2 i position.1 with
  | some text => .ok text
  | none => .error .keyError

/-- `dynamicvuls` after the first loop. -/
def explained (phase : AtomicityPhase) (verdict : StateId → ℤ) (i length : ℕ) :
    Except PyError (List String) :=
  ((positions length).filter fun position =>
      phase.Fails verdict (.whole position.2 i position.1)).mapM
    (phase.explanation i)

/-- What the second loop adds if the first has found nothing. -/
def unexplained (phase : AtomicityPhase) (verdict : StateId → ℤ) (i length : ℕ) : List String :=
  if (positions length).any fun position =>
      (List.range position.1).any fun k =>
        phase.Fails verdict (.omitting position.2 i position.1 k) then
    ["???"]
  else
    []

/-- `dynamicvuls` of the operation `i`. -/
def dynamicVuls (phase : AtomicityPhase) (verdict : StateId → ℤ) (i : ℕ) :
    Except PyError (List String) := do
  let length ← phase.replayer.dopsLen i
  let found ← phase.explained verdict i length
  pure (if found = [] then phase.unexplained verdict i length else found)

end AtomicityPhase

end Alice
