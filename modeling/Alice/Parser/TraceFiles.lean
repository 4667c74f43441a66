import Alice.Binary64
import Alice.Checked
import Alice.Operations

/-! # `parse_line` and the rows of `get_micro_ops`

The expression of `parse_line` is written out as the functions that find its
groups.  Wherever a group could end in several ways only one of them lets the
rest match, except for the arguments, which end as late as possible.  Lines
are given without the line break at their end. -/

namespace Alice

abbrev Text := List Char

instance (text : Text) (texts : List Text) : Decidable (text ∈ texts) :=
  inferInstance

/-! ## Numbers -/

def parseInt (text : Text) : Except PyError ℕ :=
  match digitsValue 10 text with
  | some value => .ok value
  | none => .error .valueError

section

variable {text : Text}

theorem digitValue_of_isDigit {char : Char} (digit : char.isDigit = true) :
    digitValue char = some (char.toNat - '0'.toNat) ∧ char.toNat - '0'.toNat < 10 := by
  rw [Char.isDigit, Bool.and_eq_true, decide_eq_true_eq, decide_eq_true_eq] at digit
  have upper : char.toNat ≤ 57 := digit.2
  constructor
  · rw [digitValue, if_pos ⟨digit.1, digit.2⟩]
  · change char.toNat - 48 < 10
    omega

theorem digitsValue_of_isDigit (nonempty : text ≠ [])
    (digits : ∀ char ∈ text, char.isDigit = true) :
    digitsValue 10 text = some (Nat.ofDigitChars 10 text 0) := by
  have folded : ∀ (rest : Text) (value : ℕ), (∀ char ∈ rest, char.isDigit = true) →
      rest.foldl (fun value digit => do
          let value ← value
          let digit ← digitValue digit
          if digit < 10 then some (10 * value + digit) else none)
        (some value) = some (Nat.ofDigitChars 10 rest value) := by
    intro rest
    induction rest with
    | nil => exact fun value _ => rfl
    | cons char rest ih =>
      intro value allDigits
      obtain ⟨digit, restDigits⟩ := List.forall_mem_cons.1 allDigits
      obtain ⟨isValue, small⟩ := digitValue_of_isDigit digit
      rw [Nat.ofDigitChars_cons, ← ih _ restDigits, List.foldl_cons, isValue]
      exact congrArg (fun start => rest.foldl _ start) (if_pos small)
  cases text with
  | nil => exact absurd rfl nonempty
  | cons char rest => exact folded (char :: rest) 0 digits

theorem digitsValue_toDigits (number : ℕ) :
    digitsValue 10 (Nat.toDigits 10 number) = some number := by
  rw [digitsValue_of_isDigit Nat.toDigits_ne_nil fun char member =>
    Nat.isDigit_of_mem_toDigits (by decide) (by decide) member,
    Nat.ofDigitChars_toDigits (by decide) (by decide)]

end

def parseFloat (text : Text) : Except PyError ℚ :=
  let parsed : Option ℚ :=
    match text.splitOn '.' with
    | [whole] => (digitsValue 10 whole).map fun value : ℕ => (value : ℚ)
    | [whole, fraction] =>
        (digitsValue 10 (whole ++ fraction)).map fun value : ℕ =>
          (value : ℚ) / 10 ^ fraction.length
    | _ => none
  match parsed with
  | some value => .ok (Binary64.rounded value)
  | none => .error .valueError

def itemAt {α : Type} (items : List α) (index : ℕ) : Except PyError α :=
  match items[index]? with
  | some item => .ok item
  | none => .error .indexError

def parseTime (text : Text) : Except PyError ℚ := do
  let parts := text.splitOn ':'
  let hours ← parseInt (← itemAt parts 0)
  let minutes ← parseInt (← itemAt parts 1)
  let seconds ← parseFloat (← itemAt parts 2)
  pure (Binary64.add
    (Binary64.add (Binary64.mul (Binary64.mul hours 60) 60)
      (Binary64.mul minutes 60))
    seconds)

/-! ## The groups of a line -/

/-- `[0-9:\.]`. -/
def isStampChar (char : Char) : Bool :=
  char.isDigit || char == ':' || char == '.'

/-- `[xa-f\-0-9]`. -/
def isRetChar (char : Char) : Bool :=
  char == 'x' || (decide ('a' ≤ char) && decide (char ≤ 'f')) || char == '-' || char.isDigit

/-- `\([^\(\)]*\)`, to the end. -/
def isNote : Text → Bool
  | '(' :: rest =>
      rest.getLast? == some ')' && rest.dropLast.all fun char => char != '(' && char != ')'
  | _ => false

/-- `E[^ ]* \([^\(\)]*\)|\([^\(\)]*\)`, to the end. -/
def isExplanation : Text → Bool
  | 'E' :: rest =>
      match rest.dropWhile (· != ' ') with
      | ' ' :: note => isNote note
      | _ => false
  | note => isNote note

/-- What follows the returned value. -/
def explanation? : Text → Option Text
  | [] | [' '] => some []
  | ' ' :: text | text => if isExplanation text then some text else none

/-- The returned value and what follows it. -/
def result? (text : Text) : Option (Text × Text) :=
  match text.takeWhile isRetChar with
  | [] =>
      match text with
      | '?' :: rest => (explanation? rest).map fun note => (['?'], note)
      | _ => none
  | ret =>
      (explanation? (text.dropWhile isRetChar)).map fun note => (ret, note)

/-- ` += ` and what follows it. -/
def afterEquals? : Text → Option Text
  | ' ' :: text =>
      match text.dropWhile (· == ' ') with
      | '=' :: ' ' :: rest => some rest
      | _ => none
  | _ => none

/-- The arguments up to the last bracket that a result follows. -/
def arguments? : Text → Option (Text × Text × Text)
  | [] => none
  | char :: rest =>
      match arguments? rest with
      | some (args, result) => some (char :: args, result)
      | none =>
          if char = ')' then
            ((afterEquals? rest).bind result?).map fun result =>
              ([')'], result)
          else
            none

/-- The groups of the regular expression. -/
structure LineGroups where
  time : Text
  syscall : Text
  args : Text
  ret : Text
  explanation : Text
  deriving DecidableEq, Repr

/-- The groups after the time. -/
def callGroups? (time text : Text) : Option LineGroups :=
  match text.takeWhile (· != '(') with
  | [] => none
  | syscall =>
      (arguments? (text.dropWhile (· != '('))).map
        fun (args, ret, note) => ⟨time, syscall, args, ret, note⟩

def LineGroups.ofText (text : Text) : Option LineGroups :=
  match text.takeWhile isStampChar, text.dropWhile isStampChar with
  | first :: more, ' ' :: rest => callGroups? (first :: more) rest
  | _, _ => none

/-! ## Arguments -/

inductive CsvState where
  | startField
  | inField
  | inQuotedField
  | quoteInQuotedField
  deriving DecidableEq, Repr

/-- A character in front of the first field. -/
def pushChar (char : Char) : List Text → List Text
  | [] => [[char]]
  | field :: fields => (char :: field) :: fields

/-- The fields that `csv.reader` makes of a text. -/
def csvFields : CsvState → Text → List Text
  | _, [] => [[]]
  | .startField, char :: rest =>
      if char = ',' then
        [] :: csvFields .startField rest
      else if char = '"' then
        csvFields .inQuotedField rest
      else
        pushChar char (csvFields .inField rest)
  | .inField, char :: rest =>
      if char = ',' then
        [] :: csvFields .startField rest
      else
        pushChar char (csvFields .inField rest)
  | .inQuotedField, char :: rest =>
      if char = '"' then
        csvFields .quoteInQuotedField rest
      else
        pushChar char (csvFields .inQuotedField rest)
  | .quoteInQuotedField, char :: rest =>
      if char = ',' then
        [] :: csvFields .startField rest
      else if char = '"' then
        pushChar char (csvFields .inQuotedField rest)
      else
        pushChar char (csvFields .inField rest)

/-- The last character of the last field is left out. -/
def stripLast : List Text → List Text
  | [] => []
  | [field] => [field.dropLast]
  | field :: next :: fields => field :: stripLast (next :: fields)

/-- The arguments without the brackets around them and the blanks before
them. -/
def splitArguments (args : Text) : List Text :=
  stripLast ((csvFields .startField args).map (List.drop 1))

/-! ## `parse_line` -/

structure ParsedLine where
  time : ℚ
  syscall : Text
  args : List Text
  ret : Text
  explanation : Text
  deriving DecidableEq, Repr

/-- The texts that excuse a line that does not match. -/
def innocentLines : List Text :=
  ["+++ exited with".toList, " --- SIG".toList,
    "<unfinished ...>".toList, " = ? <unavailable>".toList,
    "ptrace(SYSCALL):No such process".toList]

/-- `parse_line`; `none` stands for `False`. -/
def parseLine (line : Text) : Except PyError (Option ParsedLine) :=
  match LineGroups.ofText line with
  | some groups => do
      let time ← parseTime groups.time
      pure (some ⟨time, groups.syscall, splitArguments groups.args, groups.ret, groups.explanation⟩)
  | none =>
      if ∃ innocent ∈ innocentLines, innocent <:+: line then
        .ok none
      else
        .error .attributeError

/-! ## Rows -/

def equivalentSyscall (syscall : Text) : Text :=
  if syscall = "pwrite64".toList then
    "pwrite".toList
  else if syscall = "_llseek".toList then
    "lseek".toList
  else if syscall = "ftruncate64".toList then
    "ftruncate".toList
  else
    syscall

/-- The calls whose data is in the dump file. -/
def dumpedSyscalls : List Text :=
  ["write".toList, "writev".toList, "pwrite".toList, "pwritev".toList, "mwrite".toList]

/-- The argument of a call that is the number of bytes in the dump. -/
def writeSize (syscall : Text) (args : List Text) : Except PyError ℕ := do
  let fromEnd := if syscall = "pwrite".toList then 2 else 1
  if args.length < fromEnd then
    throw .indexError
  else
    safeStringToInt (String.ofList (← itemAt args (args.length - fromEnd)))

/-- The text in front of the first bracket that `\) += [^,]*$` finds. -/
def insertBeforeResult (inserted : Text) : Text → Option Text
  | [] => none
  | char :: rest =>
      if char = ')' ∧ (afterEquals? rest).any fun result => ',' ∉ result then
        some (inserted ++ char :: rest)
      else
        (insertBeforeResult inserted rest).map (char :: ·)

/-- The place in the dump file, as it is put into a line. -/
def dumpPlace (dumpFile : Text) (offset : ℕ) : Text :=
  ", \"".toList ++ dumpFile ++ "\", ".toList ++ Nat.toDigits 10 offset

/-- A line to be translated.  Its stack trace is left out. -/
structure FileRow where
  pid : ℤ
  time : ℚ
  line : Text
  deriving DecidableEq, Repr

/-- A trace file with the process that it is of, and its dump file. -/
structure TraceFile where
  pid : ℤ
  dumpFile : Text
  lines : List Text

/-- `innocent_syscalls`, and the calls that are to be ignored. -/
def isInnocent (innocentSyscalls : List Text) (syscall : Text) : Bool :=
  decide (syscall ∈ innocentSyscalls) || "ignore_".toList.isPrefixOf syscall

/-- A line of a dumped call with the place of its data, and where the data of
the next one begins. -/
def appendPlace (dumpFile : Text) (offset : ℕ) (line : Text)
    (parsed : ParsedLine) : Except PyError (Text × ℕ) :=
  let syscall := equivalentSyscall parsed.syscall
  if syscall ∈ dumpedSyscalls then do
    let size ← writeSize syscall parsed.args
    match insertBeforeResult (dumpPlace dumpFile offset) line with
    | some placed => pure (placed, offset + size)
    | none => throw .attributeError
  else
    pure (line, offset)

/-- A line that has been parsed, with the place of its data in it, and what
`dump_offset` is before and after it. -/
structure PlacedLine where
  parsed : ParsedLine
  line : Text
  start : ℕ
  next : ℕ

/-- The parsed lines of a trace file, from a place in its dump file on. -/
def placeLines (dumpFile : Text) : ℕ → List Text → Except PyError (List PlacedLine)
  | _, [] => .ok []
  | offset, line :: rest => do
      match ← parseLine line with
      | none => placeLines dumpFile offset rest
      | some parsed =>
          let (placed, next) ← appendPlace dumpFile offset line parsed
          pure (⟨parsed, placed, offset, next⟩ :: (← placeLines dumpFile next rest))

section

variable {dumpFile text line : Text} {offset next : ℕ} {parsed : ParsedLine}

theorem placeLines_cons_of_none (passed : parseLine text = .ok none) (texts : List Text) :
    placeLines dumpFile offset (text :: texts) =
      placeLines dumpFile offset texts := by
  rw [placeLines, passed]
  rfl

theorem placeLines_cons_of_some (isParsed : parseLine text = .ok (some parsed))
    (appended : appendPlace dumpFile offset text parsed = .ok (line, next)) (texts : List Text) :
    placeLines dumpFile offset (text :: texts) = (placeLines dumpFile next texts).map
        (⟨parsed, line, offset, next⟩ :: ·) := by
  rw [placeLines, isParsed, Checked.ok_bind]
  simp only [appended, Checked.ok_bind]
  cases placeLines dumpFile next texts <;> rfl

end

namespace TraceFile

variable (innocentSyscalls : List Text) (file : TraceFile)

def isKept (placed : PlacedLine) : Bool :=
  !isInnocent innocentSyscalls (equivalentSyscall placed.parsed.syscall)

def rows : Except PyError (List FileRow) := do
  let placed ← placeLines file.dumpFile 0 file.lines
  pure ((placed.filter (isKept innocentSyscalls)).map fun kept =>
    ⟨file.pid, kept.parsed.time, kept.line⟩)

end TraceFile

def collectFiles (innocentSyscalls : List Text) :
    List TraceFile → Except PyError (List (List FileRow))
  | [] => .ok []
  | file :: rest => do
      let rows ← file.rows innocentSyscalls
      pure (rows :: (← collectFiles innocentSyscalls rest))

/-- The rows in the order in which they are translated. -/
def mergeRows (rows : List (List FileRow)) : List FileRow :=
  rows.flatten.mergeSort fun first second => first.time ≤ second.time

end Alice
