import Alice.Replay.Unseen

/-! # `replay_disk_ops` with `use_cached`

If the rows of a call begin with the cached ones, only the rest is replayed.
Rows are compared by `Struct.__eq__`, which looks at the attributes of the
left row only.  `stdout_file` is opened anew in every call, so what the cached
rows have printed is missing.  A call that raises ends the sequence. -/

namespace Alice

open Checked ReplayState

/-! ## The text -/

namespace ReplayState

def printedBy : DiskOp → String
  | .stdout data => ((decodeUtf8 data).toOption).getD ""
  | _ => ""

def printed (rows : List DiskOp) : String :=
  rows.foldr (fun op text => printedBy op ++ text) ""

variable {env : ReplayEnv} {rows : List DiskOp}

theorem replayRow_stdout {i : ℕ} {state next : ReplayState} {op : DiskOp}
    (ran : state.replayRow env i op = .ok next) : next.stdout = state.stdout ++ printedBy op := by
  by_cases silent : ∀ data, op ≠ .stdout data
  · have unread := replayRow_silent env i state state.stdout silent
    rw [withStdout_self, ran] at unread
    have nothing : printedBy op = "" := by cases op <;> first | rfl | exact absurd rfl (silent _)
    have same : next = next.withStdout state.stdout := Except.ok.inj unread
    rw [nothing, String.append_empty, same, withStdout_stdout]
  · push Not at silent
    rcases silent with ⟨data, equal⟩
    subst equal
    rcases bind_eq_ok_iff.1 ran with ⟨text, decoded, ran⟩
    cases ran
    simp [printedBy, decoded, Except.toOption]

theorem replayFrom_stdout : ∀ {i : ℕ} {state final : ReplayState},
      state.replayFrom env i rows = .ok final → final.stdout = state.stdout ++ printed rows := by
  induction rows with
  | nil =>
    intro i state final ran
    cases ran
    simp [printed]
  | cons op rest ih =>
    intro i state final ran
    rcases bind_eq_ok_iff.1 ran with ⟨next, first, ran⟩
    rw [ih ran, replayRow_stdout first, String.append_assoc]
    rfl

/-- Every row of `rows` that prints has nothing to print. -/
def PrintsNothing (rows : List DiskOp) : Prop :=
  ∀ data, .stdout data ∈ rows → data = []

theorem decodeUtf8_eq_empty_iff {data : Posix.Bytes} : decodeUtf8 data = .ok "" ↔ data = [] := by
  constructor
  · intro decoded
    unfold decodeUtf8 String.fromUTF8? at decoded
    split_ifs at decoded with valid
    · have bytes : (⟨data.toArray⟩ : ByteArray) = "".toByteArray :=
        congrArg String.toByteArray (Except.ok.inj decoded)
      exact congrArg (fun array => array.data.toList) bytes
  · intro empty
    subst empty
    rfl

/-- Rows that have been replayed print nothing exactly if none of them has
anything to print. -/
theorem printed_eq_empty_iff : ∀ {i : ℕ} {state final : ReplayState},
      state.replayFrom env i rows = .ok final → (printed rows = "" ↔ PrintsNothing rows) := by
  induction rows with
  | nil =>
    simp [printed, PrintsNothing]
  | cons op rest ih =>
    intro i state final ran
    rcases bind_eq_ok_iff.1 ran with ⟨next, first, ran⟩
    have here : printedBy op = "" ↔ ∀ data, op = .stdout data → data = [] := by
      cases op with
      | stdout data =>
        rcases bind_eq_ok_iff.1 first with ⟨text, decoded, -⟩
        have shown : printedBy (.stdout data) = text := by
          simp [printedBy, decoded, Except.toOption]
        rw [shown]
        constructor
        · intro empty other equal
          cases equal
          exact decodeUtf8_eq_empty_iff.1 (empty ▸ decoded)
        · intro nothing
          rw [nothing data rfl, decodeUtf8_eq_empty_iff.2 rfl] at decoded
          exact (Except.ok.inj decoded).symm
      | _ => simp [printedBy]
    have split : printed (op :: rest) = printedBy op ++ printed rest := rfl
    rw [split, String.append_eq_empty_iff, here, ih ran]
    simp only [PrintsNothing, List.mem_cons]
    constructor
    · rintro ⟨first, others⟩ data (equal | member)
      · exact first data equal.symm
      · exact others data member
    · intro nothing
      exact ⟨fun data equal => nothing data (Or.inl equal.symm),
        fun data member => nothing data (Or.inr member)⟩

/-! ## Random bytes -/

/-- Only the bytes drawn for the rows themselves matter. -/
theorem replayFrom_congr_garbage {dumps : DumpFiles} {left right : ℕ → ℕ → UInt8} :
    ∀ {i j : ℕ} (state : ReplayState), (∀ k < rows.length, left (i + k) = right (j + k)) →
        state.replayFrom ⟨dumps, left⟩ i rows = state.replayFrom ⟨dumps, right⟩ j rows := by
  induction rows with
  | nil =>
    intro i j state _
    rfl
  | cons op rest ih =>
    intro i j state agree
    have head : left i = right j := agree 0 (Nat.succ_pos _)
    have row : state.replayRow ⟨dumps, left⟩ i op = state.replayRow ⟨dumps, right⟩ j op := by
      cases op <;> simp only [replayRow, head]
    simp only [replayFrom, row]
    congr 1
    funext next
    apply ih
    intro k inside
    have shifted := agree (k + 1) (Nat.succ_lt_succ inside)
    rw [show i + 1 + k = i + (k + 1) by omega,
      show j + 1 + k = j + (k + 1) by omega]
    exact shifted

end ReplayState

/-! ## Comparing rows -/

/-- `self == other` for disk operations.  Attributes of `other` that `self`
lacks are not looked at. -/
def DiskOp.structEq (self other : DiskOp) : Bool :=
  match self, other with
  | .deleteDirEntry parent entry inode entryType none,
      .deleteDirEntry parent' entry' inode' entryType' _ =>
      decide (parent = parent' ∧ entry = entry' ∧ inode = inode' ∧ entryType = entryType')
  | self, other => decide (self = other)

theorem DiskOp.replayRow_eq_of_structEq {self other : DiskOp} (equal : self.structEq other = true)
    (env : ReplayEnv) (i : ℕ) (state : ReplayState) :
    state.replayRow env i self = state.replayRow env i other := by
  unfold structEq at equal
  split at equal
  · rcases of_decide_eq_true equal with ⟨rfl, rfl, rfl, rfl⟩
    rfl
  · rw [of_decide_eq_true equal]

/-- A row with whatever else hangs on it. -/
structure Row (η : Type) where
  op : DiskOp
  hidden : η

section Cache

variable {η : Type} (hiddenEq : η → η → Bool)

/-- `self == other` for rows, where `hiddenEq` is what `__eq__` does with the
attributes that begin with `hidden_`. -/
def Row.structEq (self other : Row η) : Bool :=
  self.op.structEq other.op && hiddenEq self.hidden other.hidden

/-- The test that decides whether the cached rows are used. -/
def Hit (cached rows : List (Row η)) : Prop :=
  cached ≠ [] ∧ cached.length ≤ rows.length ∧
    (rows.take cached.length).isEqv cached (Row.structEq hiddenEq) = true

instance (cached rows : List (Row η)) : Decidable (Hit hiddenEq cached rows) :=
  match cached with
  | [] => .isFalse fun hit => hit.1 rfl
  | first :: rest =>
      decidable_of_iff
        ((first :: rest).length ≤ rows.length ∧
          (rows.take (first :: rest).length).isEqv (first :: rest)
            (Row.structEq hiddenEq) = true)
        (by simp [Hit])

/-- `cached_rows`, and the directory with its `dirinode_map`. -/
structure ReplayCache (η : Type) where
  rows : List (Row η)
  state : ReplayState

/-- What is left behind when the loop over the rows is over. -/
def ReplayState.crash (state : ReplayState) : CrashState :=
  ⟨state.tree.dropEntry state.tree.root inodesName, state.stdout⟩

/-- A call of `replay_disk_ops` with `use_cached`. -/
def replayDiskOpsCached (env : ReplayEnv) (snapshot : Snapshot)
    (cache : Option (ReplayCache η)) (rows : List (Row η)) :
    Except PyError (ReplayCache η × CrashState) :=
  match cache.filter fun cache => Hit hiddenEq cache.rows rows with
  | some cache => do
      let rest := rows.drop cache.rows.length
      let state ← (cache.state.withStdout "").replayFrom env 0 (rest.map Row.op)
      pure (⟨cache.rows ++ rest, state⟩, state.crash)
  | none => do
      let start ← ReplayState.initializeInodeLinks snapshot
      let state ← start.replayFrom env 0 (rows.map Row.op)
      pure (⟨rows, state⟩, state.crash)

/-- `cached_rows` after a call. -/
def nextCachedRows (cached : Option (List (Row η))) (rows : List (Row η)) : List (Row η) :=
  match cached.filter fun cached => Hit hiddenEq cached rows with
  | some cached => cached ++ rows.drop cached.length
  | none => rows

/-- A call: its rows and the bytes it draws at random. -/
structure ReplayRequest (η : Type) where
  rows : List (Row η)
  garbage : ℕ → ℕ → UInt8

/-- The call without `use_cached` returns. -/
def ReplayRequest.Returns (dumps : DumpFiles) (snapshot : Snapshot) (request : ReplayRequest η) :
    Prop :=
  ∃ crash, replayDiskOps ⟨dumps, request.garbage⟩ snapshot (request.rows.map Row.op) = .ok crash

/-- What a sequence of calls leaves behind, call by call. -/
def cachedOutcomes (dumps : DumpFiles) (snapshot : Snapshot) :
    Option (ReplayCache η) → List (ReplayRequest η) →
      List (Except PyError CrashState)
  | _, [] => []
  | cache, request :: rest =>
      match replayDiskOpsCached hiddenEq ⟨dumps, request.garbage⟩ snapshot cache request.rows with
      | .ok (next, crash) =>
          .ok crash :: cachedOutcomes dumps snapshot (some next) rest
      | .error error => [.error error]

/-- `cached_rows` before the call number `k`, if it was `cached` at first. -/
def cachedRowsBefore (cached : Option (List (Row η))) (requests : List (ReplayRequest η))
    (k : ℕ) : Option (List (Row η)) :=
  (requests.take k).foldl
    (fun cached request => some (nextCachedRows hiddenEq cached request.rows))
    cached

/-! ## What the cache holds -/

namespace ReplayCache

/-- The cached directory is what the cached rows lead to, for some choice of
the random bytes. -/
def Valid (dumps : DumpFiles) (snapshot : Snapshot) (cache : ReplayCache η) : Prop :=
  ∃ garbage start final,
    ReplayState.initializeInodeLinks snapshot = .ok start ∧
    start.replayFrom ⟨dumps, garbage⟩ 0 (cache.rows.map Row.op) =
      .ok final ∧
    cache.state.withStdout "" = final.withStdout ""

end ReplayCache

theorem initializeInodeLink_stdout {state next : ReplayState} {found : Posix.Path × Posix.Ino}
    (made : state.initializeInodeLink found = .ok next) : next.stdout = state.stdout := by
  unfold ReplayState.initializeInodeLink ReplayState.osCall at made
  split_ifs at made
  · cases made
    rfl
  · split at made
    · cases made
      rfl
    · cases made

theorem initializeInodeLinks_stdout {snapshot : Snapshot} {start : ReplayState}
    (made : ReplayState.initializeInodeLinks snapshot = .ok start) : start.stdout = "" := by
  have general : ∀ (listing : List (Posix.Path × Posix.Ino)) (state final : ReplayState),
      listing.foldlM ReplayState.initializeInodeLink state = .ok final →
        final.stdout = state.stdout := by
    intro listing
    induction listing with
    | nil =>
      intro state final finished
      cases finished
      rfl
    | cons found rest ih =>
      intro state final finished
      rcases bind_eq_ok_iff.1 finished with ⟨next, first, finished⟩
      rw [ih next final finished, initializeInodeLink_stdout first]
  rcases bind_eq_ok_iff.1 made with ⟨-, -, made⟩
  exact general _ _ _ made

variable {hiddenEq} {dumps : DumpFiles} {snapshot : Snapshot}

variable {env : ReplayEnv} {next : ReplayCache η}

theorem replayFrom_eq_of_isEqv {left right : List (Row η)}
    (equal : left.isEqv right (Row.structEq hiddenEq) = true) : ∀ (i : ℕ) (state : ReplayState),
      state.replayFrom env i (left.map Row.op) = state.replayFrom env i (right.map Row.op) := by
  induction left generalizing right with
  | nil =>
    intro i state
    cases right with
    | nil => rfl
    | cons _ _ => simp [List.isEqv] at equal
  | cons first rest ih =>
    intro i state
    cases right with
    | nil => simp [List.isEqv] at equal
    | cons first' rest' =>
      rw [List.isEqv, Bool.and_eq_true, Row.structEq, Bool.and_eq_true] at equal
      simp only [List.map_cons, ReplayState.replayFrom,
        DiskOp.replayRow_eq_of_structEq equal.1.1, ih equal.2]

theorem Hit.replayFrom_eq {front rows : List (Row η)} (hit : Hit hiddenEq front rows)
    (env : ReplayEnv) (i : ℕ) (state : ReplayState) : state.replayFrom env i
        ((front ++ rows.drop front.length).map Row.op) =
      state.replayFrom env i (rows.map Row.op) := by
  have length : ((rows.take front.length).map Row.op).length = (front.map Row.op).length := by
    rw [List.length_map, List.length_take, List.length_map]
    exact min_eq_left hit.2.1
  have divided : rows.map Row.op = (rows.take front.length).map Row.op ++
        (rows.drop front.length).map Row.op := by
    rw [← List.map_append, List.take_append_drop]
  rw [divided, List.map_append, replayFrom_append,
    replayFrom_append, length, replayFrom_eq_of_isEqv hit.2.2]

/-- A replay from scratch of rows that begin like the cached ones, if it draws
what was drawn for the cached rows and then what `garbage` draws, goes on like
the cached replay with the printed text put in front. -/
theorem exists_garbage_of_hit {cache : ReplayCache η} {rows : List (Row η)}
    (valid : cache.Valid dumps snapshot) (hit : Hit hiddenEq cache.rows rows)
    (garbage : ℕ → ℕ → UInt8) : ∃ (start : ReplayState) (combined : ℕ → ℕ → UInt8) (text : String),
      ReplayState.initializeInodeLinks snapshot = .ok start ∧ (text = "" ↔
        ReplayState.PrintsNothing (cache.rows.map Row.op)) ∧
      start.replayFrom ⟨dumps, combined⟩ 0 (rows.map Row.op) =
        ((cache.state.withStdout "").replayFrom ⟨dumps, garbage⟩ 0
            ((rows.drop cache.rows.length).map Row.op)).map fun after =>
          after.withStdout (text ++ after.stdout) := by
  rcases valid with ⟨drawn, start, final, made, replayed, same⟩
  let combined : ℕ → ℕ → UInt8 := fun i =>
    if i < cache.rows.length then drawn i
    else garbage (i - cache.rows.length)
  have early : ∀ state : ReplayState, state.replayFrom ⟨dumps, combined⟩ 0 (cache.rows.map Row.op) =
        state.replayFrom ⟨dumps, drawn⟩ 0 (cache.rows.map Row.op) := by
    intro state
    apply replayFrom_congr_garbage
    intro k inside
    rw [List.length_map] at inside
    simp [combined, inside]
  have late : ∀ (state : ReplayState) (rest : List DiskOp),
      state.replayFrom ⟨dumps, combined⟩ cache.rows.length rest =
        state.replayFrom ⟨dumps, garbage⟩ 0 rest := by
    intro state rest
    apply replayFrom_congr_garbage
    simp [combined]
  have printed := replayFrom_stdout replayed
  rw [initializeInodeLinks_stdout made, String.empty_append] at printed
  refine ⟨start, combined, final.stdout, made, ?_, ?_⟩
  · rw [printed]
    exact printed_eq_empty_iff replayed
  · rw [← hit.replayFrom_eq, List.map_append, replayFrom_append, List.length_map, early, replayed,
      ok_bind, Nat.zero_add, late, same,
      ← replayFrom_withStdout _ _ 0 final final.stdout, withStdout_self]

theorem replayDiskOps_stdout {rows : List DiskOp} {crash : CrashState}
    (replayed : replayDiskOps env snapshot rows = .ok crash) :
    crash.stdout = ReplayState.printed rows := by
  rcases bind_eq_ok_iff.1 replayed with ⟨start, made, replayed⟩
  rcases bind_eq_ok_iff.1 replayed with ⟨final, run, replayed⟩
  cases replayed
  rw [replayFrom_stdout run, initializeInodeLinks_stdout made, String.empty_append]

def replayFresh (env : ReplayEnv) (snapshot : Snapshot)
    (rows : List DiskOp) : Except PyError ReplayState := do
  let start ← ReplayState.initializeInodeLinks snapshot
  start.replayFrom env 0 rows

theorem replayDiskOps_eq_map (env : ReplayEnv) (rows : List DiskOp) :
    replayDiskOps env snapshot rows = (replayFresh env snapshot rows).map ReplayState.crash := by
  rw [replayDiskOps, replayFresh, bind_map_eq]
  congr 1

/-! ## One call -/

/-- The cached rows are used and have printed something. -/
def LosesText (hiddenEq : η → η → Bool)
    (cached : Option (List (Row η))) (rows : List (Row η)) : Prop :=
  ∃ front, cached = some front ∧ Hit hiddenEq front rows ∧
    ¬ ReplayState.PrintsNothing (front.map Row.op)

/-- What one call does to a valid cache. -/
structure CallSpec (hiddenEq : η → η → Bool) (dumps : DumpFiles)
    (snapshot : Snapshot) (cached : Option (List (Row η)))
    (rows : List (Row η)) (next : ReplayCache η) (crash : CrashState) : Prop where
  valid : next.Valid dumps snapshot
  rows_eq : next.rows = nextCachedRows hiddenEq cached rows
  returns : ∀ garbage, ∃ crash,
    replayDiskOps ⟨dumps, garbage⟩ snapshot (rows.map Row.op) = .ok crash
  agrees_iff :
    (∃ garbage, .ok crash =
      replayDiskOps ⟨dumps, garbage⟩ snapshot (rows.map Row.op)) ↔
      ¬ LosesText hiddenEq cached rows

theorem replayDiskOpsCached_of_hit {cache : ReplayCache η} {rows : List (Row η)}
    (hit : Hit hiddenEq cache.rows rows) :
    replayDiskOpsCached hiddenEq env snapshot (some cache) rows =
      ((cache.state.withStdout "").replayFrom env 0
          ((rows.drop cache.rows.length).map Row.op)).map fun state =>
        (⟨cache.rows ++ rows.drop cache.rows.length, state⟩, state.crash) := by
  rw [replayDiskOpsCached, Option.filter_some, if_pos (by simpa using hit)]
  rfl

theorem replayDiskOpsCached_of_miss {cache : Option (ReplayCache η)} {rows : List (Row η)}
    (miss : ∀ stored, cache = some stored → ¬ Hit hiddenEq stored.rows rows) :
    replayDiskOpsCached hiddenEq env snapshot cache rows =
      (replayFresh env snapshot (rows.map Row.op)).map fun state =>
        (⟨rows, state⟩, state.crash) := by
  have unused : (cache.filter fun cache =>
      Hit hiddenEq cache.rows rows) = none := by
    rw [Option.filter_eq_none_iff]
    intro stored present hit
    exact miss stored present (of_decide_eq_true hit)
  rw [replayDiskOpsCached, unused, replayFresh, bind_map_eq]
  congr 1

theorem nextCachedRows_of_hit {front rows : List (Row η)} (hit : Hit hiddenEq front rows) :
    nextCachedRows hiddenEq (some front) rows = front ++ rows.drop front.length := by
  rw [nextCachedRows, Option.filter_some, if_pos (by simpa using hit)]

theorem nextCachedRows_of_miss {cached : Option (List (Row η))} {rows : List (Row η)}
    (miss : ∀ front, cached = some front → ¬ Hit hiddenEq front rows) :
    nextCachedRows hiddenEq cached rows = rows := by
  have unused : (cached.filter fun front =>
      Hit hiddenEq front rows) = none := by
    rw [Option.filter_eq_none_iff]
    intro front present hit
    exact miss front present (of_decide_eq_true hit)
  rw [nextCachedRows, unused]

theorem hit_or_miss (hiddenEq : η → η → Bool) (cache : Option (ReplayCache η))
    (rows : List (Row η)) : (∃ stored, cache = some stored ∧ Hit hiddenEq stored.rows rows) ∨
      ∀ stored, cache = some stored → ¬ Hit hiddenEq stored.rows rows := by
  by_cases used : ∃ stored, cache = some stored ∧ Hit hiddenEq stored.rows rows
  · exact Or.inl used
  · exact Or.inr fun stored present hit => used ⟨stored, present, hit⟩

variable {cache : Option (ReplayCache η)} {rows : List (Row η)}
  {garbage : ℕ → ℕ → UInt8}

/-- A call that raises raises what a replay from scratch may raise. -/
theorem error_of_replayDiskOpsCached
    (valid : ∀ stored, cache = some stored → stored.Valid dumps snapshot) {error : PyError}
    (raised : replayDiskOpsCached hiddenEq ⟨dumps, garbage⟩ snapshot cache rows = .error error) :
    ∃ drawn, .error error = replayDiskOps ⟨dumps, drawn⟩ snapshot (rows.map Row.op) := by
  rcases hit_or_miss hiddenEq cache rows with ⟨stored, present, hit⟩ | miss
  · subst present
    rcases exists_garbage_of_hit (valid stored rfl) hit garbage with
      ⟨start, combined, text, made, -, replayed⟩
    rw [replayDiskOpsCached_of_hit hit] at raised
    refine ⟨combined, ?_⟩
    rw [replayDiskOps_eq_map, replayFresh, made, ok_bind, replayed]
    cases run : (stored.state.withStdout "").replayFrom ⟨dumps, garbage⟩ 0
        ((rows.drop stored.rows.length).map Row.op) with
    | ok state =>
      rw [run] at raised
      cases raised
    | error other =>
      rw [run] at raised
      cases raised
      rfl
  · rw [replayDiskOpsCached_of_miss miss] at raised
    refine ⟨garbage, ?_⟩
    rw [replayDiskOps_eq_map]
    cases run : replayFresh ⟨dumps, garbage⟩ snapshot (rows.map Row.op) with
    | ok state =>
      rw [run] at raised
      cases raised
    | error other =>
      rw [run] at raised
      cases raised
      rfl

theorem callSpec_of_miss (miss : ∀ stored, cache = some stored → ¬ Hit hiddenEq stored.rows rows)
    {crash : CrashState} (returned : replayDiskOpsCached hiddenEq ⟨dumps, garbage⟩ snapshot cache
      rows = .ok (next, crash)) :
    CallSpec hiddenEq dumps snapshot (cache.map ReplayCache.rows) rows next
      crash := by
  have missRows : ∀ front, cache.map ReplayCache.rows = some front → ¬ Hit hiddenEq front rows := by
    intro front present
    rcases Option.map_eq_some_iff.1 present with ⟨stored, present, equal⟩
    exact equal ▸ miss stored present
  rw [replayDiskOpsCached_of_miss miss] at returned
  rcases map_eq_ok_iff.1 returned with ⟨state, run, equal⟩
  cases equal
  have scratch : replayDiskOps ⟨dumps, garbage⟩ snapshot (rows.map Row.op) = .ok state.crash := by
    rw [replayDiskOps_eq_map, run]
    rfl
  refine ⟨?_, (nextCachedRows_of_miss missRows).symm, replayDiskOps_returns_congr scratch, ?_⟩
  · rcases bind_eq_ok_iff.1 run with ⟨start, made, run⟩
    exact ⟨garbage, start, state, made, run, rfl⟩
  · refine iff_of_true ⟨garbage, scratch.symm⟩ ?_
    rintro ⟨front, present, hit, -⟩
    exact missRows front present hit

theorem callSpec_of_hit {stored : ReplayCache η} (valid : stored.Valid dumps snapshot)
    (hit : Hit hiddenEq stored.rows rows) {crash : CrashState}
    (returned : replayDiskOpsCached hiddenEq ⟨dumps, garbage⟩ snapshot
      (some stored) rows = .ok (next, crash)) :
    CallSpec hiddenEq dumps snapshot (some stored.rows) rows next crash := by
  rcases exists_garbage_of_hit valid hit garbage with
    ⟨start, combined, text, made, silent, replayed⟩
  rw [replayDiskOpsCached_of_hit hit] at returned
  rcases map_eq_ok_iff.1 returned with ⟨state, run, equal⟩
  cases equal
  rw [run] at replayed
  have scratch : replayDiskOps ⟨dumps, combined⟩ snapshot (rows.map Row.op) =
        .ok (state.withStdout (text ++ state.stdout)).crash := by
    rw [replayDiskOps_eq_map, replayFresh, made, ok_bind, replayed]
    rfl
  refine ⟨?_, (nextCachedRows_of_hit hit).symm, replayDiskOps_returns_congr scratch, ?_⟩
  · refine ⟨combined, start, state.withStdout (text ++ state.stdout), made, ?_, rfl⟩
    rw [hit.replayFrom_eq, replayed]
    rfl
  · constructor
    · rintro ⟨drawn, agrees⟩ ⟨front, present, -, prints⟩
      cases present
      have shown := replayDiskOps_stdout agrees.symm
      rw [← replayDiskOps_stdout scratch] at shown
      have lost : "" ++ state.stdout = text ++ state.stdout := by
        exact shown
      exact prints (silent.1 ((String.append_left_inj _).1 lost).symm)
    · intro keeps
      have empty : text = "" := by
        apply silent.2
        by_contra prints
        exact keeps ⟨stored.rows, rfl, hit, prints⟩
      refine ⟨combined, ?_⟩
      rw [scratch, empty, String.empty_append, withStdout_self]

theorem callSpec_of_ok (valid : ∀ stored, cache = some stored → stored.Valid dumps snapshot)
    {crash : CrashState} (returned : replayDiskOpsCached hiddenEq ⟨dumps, garbage⟩ snapshot cache
      rows = .ok (next, crash)) :
    CallSpec hiddenEq dumps snapshot (cache.map ReplayCache.rows) rows next
      crash := by
  rcases hit_or_miss hiddenEq cache rows with ⟨stored, present, hit⟩ | miss
  · subst present
    exact callSpec_of_hit (valid stored rfl) hit returned
  · exact callSpec_of_miss miss returned

/-! ## Sequences of calls -/

/-- Every call that is made agrees with a replay from scratch. -/
def OutcomesAgree (hiddenEq : η → η → Bool) (dumps : DumpFiles)
    (snapshot : Snapshot) (cache : Option (ReplayCache η))
    (requests : List (ReplayRequest η)) : Prop :=
  ∀ (k : ℕ) request outcome, requests[k]? = some request →
    (cachedOutcomes hiddenEq dumps snapshot cache requests)[k]? =
      some outcome →
    ∃ garbage, outcome =
      replayDiskOps ⟨dumps, garbage⟩ snapshot (request.rows.map Row.op)

/-- No call that returns, like all before it, loses text. -/
def TextKept (hiddenEq : η → η → Bool) (dumps : DumpFiles)
    (snapshot : Snapshot) (cached : Option (List (Row η)))
    (requests : List (ReplayRequest η)) : Prop :=
  ∀ (k : ℕ) request, requests[k]? = some request →
    (∀ called ∈ requests.take (k + 1), called.Returns dumps snapshot) →
    ¬ LosesText hiddenEq (cachedRowsBefore hiddenEq cached requests k)
      request.rows

section

variable {cached : Option (List (Row η))} {request : ReplayRequest η}
  {requests : List (ReplayRequest η)}

theorem outcomesAgree_of_error {error : PyError}
    (run : replayDiskOpsCached hiddenEq ⟨dumps, request.garbage⟩ snapshot
      cache request.rows = .error error) (raises : ∃ garbage, .error error =
      replayDiskOps ⟨dumps, garbage⟩ snapshot (request.rows.map Row.op)) :
    OutcomesAgree hiddenEq dumps snapshot cache (request :: requests) := by
  intro k other outcome atK ended
  simp only [cachedOutcomes, run] at ended
  cases k with
  | zero =>
    cases atK
    cases ended
    exact raises
  | succ k => simp at ended

theorem outcomesAgree_of_ok {next : ReplayCache η} {crash : CrashState}
    (run : replayDiskOpsCached hiddenEq ⟨dumps, request.garbage⟩ snapshot
      cache request.rows = .ok (next, crash)) :
    OutcomesAgree hiddenEq dumps snapshot cache (request :: requests) ↔
      (∃ garbage, .ok crash = replayDiskOps ⟨dumps, garbage⟩ snapshot (request.rows.map Row.op)) ∧
      OutcomesAgree hiddenEq dumps snapshot (some next) requests := by
  unfold OutcomesAgree
  simp only [cachedOutcomes, run]
  constructor
  · intro agree
    refine ⟨agree 0 request _ rfl rfl, ?_⟩
    intro k other outcome atK ended
    exact agree (k + 1) other outcome atK ended
  · intro both k other outcome atK ended
    cases k with
    | zero =>
      cases atK
      cases ended
      exact both.1
    | succ k => exact both.2 k other outcome atK ended

theorem textKept_of_raises (raises : ¬ request.Returns dumps snapshot) :
    TextKept hiddenEq dumps snapshot cached (request :: requests) := by
  intro k other _ returns
  exact absurd (returns request List.mem_cons_self) raises

theorem textKept_of_returns (returns : request.Returns dumps snapshot) :
    TextKept hiddenEq dumps snapshot cached (request :: requests) ↔
      ¬ LosesText hiddenEq cached request.rows ∧ TextKept hiddenEq dumps snapshot
        (some (nextCachedRows hiddenEq cached request.rows)) requests := by
  constructor
  · intro kept
    refine ⟨kept 0 request rfl ?_, ?_⟩
    · intro called member
      rw [List.mem_singleton.1 member]
      exact returns
    · intro k other atK allReturn
      apply kept (k + 1) other atK
      intro called member
      rcases List.mem_cons.1 member with isFirst | isLater
      · rw [isFirst]
        exact returns
      · exact allReturn called isLater
  · intro both k other atK allReturn
    cases k with
    | zero =>
      cases atK
      exact both.1
    | succ k =>
      apply both.2 k other atK
      intro called member
      exact allReturn called (List.mem_cons_of_mem _ member)

end

/-- The calls agree with replays from scratch exactly if no call that returns
loses text, from any valid cache on. -/
theorem outcomesAgree_iff_textKept (requests : List (ReplayRequest η)) :
    ∀ (cache : Option (ReplayCache η)),
      (∀ stored, cache = some stored → stored.Valid dumps snapshot) →
      (OutcomesAgree hiddenEq dumps snapshot cache requests ↔
        TextKept hiddenEq dumps snapshot (cache.map ReplayCache.rows) requests) := by
  induction requests with
  | nil =>
    simp [OutcomesAgree, TextKept]
  | cons request requests ih =>
    intro cache valid
    cases run : replayDiskOpsCached hiddenEq ⟨dumps, request.garbage⟩
        snapshot cache request.rows with
    | error error =>
      have raises := error_of_replayDiskOpsCached valid run
      apply iff_of_true (outcomesAgree_of_error run raises)
      apply textKept_of_raises
      intro returns
      rcases raises with ⟨drawn, raised⟩
      rcases returns with ⟨crash, returned⟩
      rcases replayDiskOps_returns_congr returned drawn with
        ⟨crash', returned'⟩
      rw [returned'] at raised
      cases raised
    | ok result =>
      rcases result with ⟨next, crash⟩
      have spec := callSpec_of_ok valid run
      have rest := ih (some next) fun stored present => Option.some.inj present ▸ spec.valid
      rw [outcomesAgree_of_ok run, textKept_of_returns (spec.returns request.garbage),
        spec.agrees_iff, rest, Option.map_some, spec.rows_eq]

end Cache

end Alice
