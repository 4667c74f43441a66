import Alice.Parser.DumpPlaces

/-! # Quoted paths

`csv.reader` treats a quote only at the start of a field as the start of a
quoted one.  Every field starts with a bracket or a blank, so quotes are
characters like any other and a comma in a path ends the field. -/

namespace Alice

open Posix (Bytes)

/-! ## `string_quote` -/

/-- `\xhh`. -/
def hexByte (byte : UInt8) : Text :=
  ['\\', 'x', Nat.digitChar (byte.toNat / 16), Nat.digitChar (byte.toNat % 16)]

/-- `\[[o]o]o`, and all three digits if a digit follows. -/
def octalByte (byte : UInt8) (digitFollows : Bool) : Text :=
  let high := Nat.digitChar (byte.toNat / 64)
  let middle := Nat.digitChar (byte.toNat / 8 % 8)
  let low := Nat.digitChar (byte.toNat % 8)
  if digitFollows then
    ['\\', high, middle, low]
  else if byte.toNat / 8 = 0 then
    ['\\', low]
  else if byte.toNat / 64 = 0 then
    ['\\', middle, low]
  else
    ['\\', high, middle, low]

/-- A byte as it is printed unless the whole text is printed in hex. -/
def quoteByte (byte : UInt8) (digitFollows : Bool) : Text :=
  if byte = 34 ∨ byte = 92 then
    ['\\', Char.ofUInt8 byte]
  else if byte = 12 then
    ['\\', 'f']
  else if byte = 10 then
    ['\\', 'n']
  else if byte = 13 then
    ['\\', 'r']
  else if byte = 9 then
    ['\\', 't']
  else if byte = 11 then
    ['\\', 'v']
  else if 32 ≤ byte ∧ byte ≤ 126 then
    [Char.ofUInt8 byte]
  else
    octalByte byte digitFollows

def quoteBytes : Bytes → Text
  | [] => []
  | byte :: rest =>
      quoteByte byte (rest.head?.any fun next => 48 ≤ next ∧ next ≤ 57) ++ quoteBytes rest

/-- Whether the whole text is printed in hex, as `-x` and `-xx` ask for. -/
def usehex (xflag : ℕ) (bytes : Bytes) : Bool :=
  if 1 < xflag then
    true
  else if xflag ≠ 0 then
    bytes.any fun byte =>
      126 < byte ∨ (byte < 32 ∧ ¬ (9 ≤ byte ∧ byte ≤ 13))
  else
    false

/-- What `string_quote` reads: up to the end of a text that a zero byte ends
if `len` is -1, and `size` bytes otherwise. -/
def quotedPart (instr : Bytes) (len : ℤ) (size : ℕ) : Bytes :=
  if len = -1 then
    (instr.take (size - 1)).takeWhile (· ≠ 0)
  else
    instr.take size

/-- The text that `string_quote` leaves in `outstr`. -/
def stringQuote (xflag : ℕ) (instr : Bytes) (len : ℤ) (size : ℕ) : Text :=
  let bytes := quotedPart instr len size
  '"' :: ((if usehex xflag bytes then bytes.flatMap hexByte
    else quoteBytes bytes) ++ ['"'])

theorem comma_notMem_hexByte (byte : UInt8) : ',' ∉ hexByte byte := by
  have notDigit : ∀ digit, Nat.digitChar digit ≠ ',' := fun _ => Nat.digitChar_ne ',' (by decide)
  simp [hexByte, (notDigit _).symm]

theorem comma_notMem_octalByte (byte : UInt8) (digitFollows : Bool) :
    ',' ∉ octalByte byte digitFollows := by
  have notDigit : ∀ digit, Nat.digitChar digit ≠ ',' := fun _ => Nat.digitChar_ne ',' (by decide)
  unfold octalByte
  split_ifs <;> simp [(notDigit _).symm]

theorem ofUInt8_eq_comma_iff (byte : UInt8) : ',' = Char.ofUInt8 byte ↔ byte = 44 := by
  constructor
  · intro same
    have values : (44 : UInt8).toNat = byte.toNat :=
      congrArg (fun char : Char => char.val.toNat) same
    exact UInt8.toNat_inj.1 values.symm
  · rintro rfl
    rfl

theorem comma_mem_quoteByte_iff (byte : UInt8) (digitFollows : Bool) :
    ',' ∈ quoteByte byte digitFollows ↔ byte = 44 := by
  unfold quoteByte
  split_ifs with escaped formFeed newline carriage tab verticalTab printed
  · simp only [List.mem_cons, List.not_mem_nil, or_false,
      ofUInt8_eq_comma_iff, Char.reduceEq, false_or]
  · simp [formFeed]
  · simp [newline]
  · simp [carriage]
  · simp [tab]
  · simp [verticalTab]
  · simp only [List.mem_singleton, ofUInt8_eq_comma_iff]
  · refine iff_of_false (comma_notMem_octalByte byte digitFollows) ?_
    rintro rfl
    exact printed (by decide)

theorem comma_mem_quoteBytes_iff (bytes : Bytes) : ',' ∈ quoteBytes bytes ↔ 44 ∈ bytes := by
  induction bytes with
  | nil => simp [quoteBytes]
  | cons byte rest ih =>
    rw [quoteBytes, List.mem_append, comma_mem_quoteByte_iff, ih, List.mem_cons, eq_comm]

theorem comma_mem_stringQuote_iff (xflag : ℕ) (instr : Bytes) (len : ℤ) (size : ℕ) :
    ',' ∈ stringQuote xflag instr len size ↔ 44 ∈ quotedPart instr len size ∧
        usehex xflag (quotedPart instr len size) = false := by
  simp only [stringQuote, List.mem_cons, List.mem_append, List.not_mem_nil,
    or_false, Char.reduceEq, false_or]
  cases inHex : usehex xflag (quotedPart instr len size) with
  | true => simp [comma_notMem_hexByte]
  | false => simp [comma_mem_quoteBytes_iff]

/-! ## Printed lines -/

/-- A character of a number, a hexadecimal number or the names of flags. -/
def isTokenChar (char : Char) : Bool :=
  char.isAlphanum || char == '_' || char == '|' || char == '-'

/-- A plain token, or a path that is read from a buffer. -/
inductive PrintedArg where
  | token (text : Text) (plain : ∀ char ∈ text, isTokenChar char = true)
  | path (instr : Bytes) (size : ℕ)

/-- What is printed for an argument. -/
def PrintedArg.text (xflag : ℕ) : PrintedArg → Text
  | .token text _ => text
  | .path instr size => stringQuote xflag instr (-1) size

/-- The path has a comma in it that is printed as one. -/
def PrintedArg.HasComma (xflag : ℕ) : PrintedArg → Prop
  | .token _ _ => False
  | .path instr size =>
      44 ∈ quotedPart instr (-1) size ∧ usehex xflag (quotedPart instr (-1) size) = false

theorem PrintedArg.comma_mem_text_iff (xflag : ℕ) (arg : PrintedArg) :
    ',' ∈ arg.text xflag ↔ arg.HasComma xflag := by
  cases arg with
  | token text plain => exact iff_of_false (fun member => absurd (plain _ member) (by decide)) id
  | path instr size => exact comma_mem_stringQuote_iff xflag instr (-1) size

/-- The formats of a returned value. -/
inductive ReturnValue where
  | decimal (value : ℤ)
  | hexadecimal (value : ℕ)
  | octal (value : ℕ)
  | unknown

/-- `%ld`, `%lu`, `%#lx`, `%#lo` or a question mark. -/
def ReturnValue.text : ReturnValue → Text
  | .decimal value => signedDecimal value
  | .hexadecimal value => Alice.hexadecimal value
  | .octal value =>
      if value = 0 then ['0'] else '0' :: Nat.toDigits 8 value
  | .unknown => ['?']

/-- The name and the text of an error, without the `E` of the name. -/
structure ErrorNote where
  code : Text
  message : Text
  code_plain : ' ' ∉ code ∧ ')' ∉ code
  message_plain : '(' ∉ message ∧ ')' ∉ message

def ErrorNote.text (error : ErrorNote) : Text :=
  'E' :: (error.code ++ ' ' :: '(' :: (error.message ++ [')']))

/-- A call that has ended. -/
structure PrintedCall where
  stamp : Stamp
  name : Text
  name_ne_nil : name ≠ []
  name_plain : '(' ∉ name
  args : List PrintedArg
  args_ne_nil : args ≠ []
  blanks : ℕ
  value : ReturnValue
  error : Option ErrorNote

namespace PrintedCall

variable (xflag : ℕ) (call : PrintedCall)

def argTexts : List Text :=
  call.args.map (PrintedArg.text xflag)

def resultText : Text :=
  match call.error with
  | none => call.value.text
  | some error => call.value.text ++ ' ' :: error.text

def line : StampedLine :=
  ⟨call.stamp, call.name ++ '(' :: (printArguments (call.argTexts xflag) ++
    ')' :: printResult call.blanks call.resultText)⟩

/-- The parser reads the name, the arguments and the returned value as they
were printed. -/
def ParsesBack : Prop :=
  ∃ parsed, parseLine (call.line xflag).text = .ok (some parsed) ∧
    parsed.syscall = call.name ∧ parsed.args = call.argTexts xflag ∧
    parsed.ret = call.value.text

end PrintedCall

/-! ## Reading a result -/

theorem isRetChar_of_mem_toDigits {base number : ℕ} {char : Char} (large : 1 < base)
    (small : base ≤ 16) (member : char ∈ Nat.toDigits base number) : isRetChar char = true := by
  obtain ⟨digit, isDigit, rfl⟩ := exists_of_mem_toDigits large member
  exact (by decide : ∀ digit < 16, isRetChar (Nat.digitChar digit) = true)
    digit (isDigit.trans_le small)

namespace ReturnValue

variable (value : ReturnValue)

theorem text_cases : value.text = ['?'] ∨
      value.text ≠ [] ∧ ∀ char ∈ value.text, isRetChar char = true := by
  cases value with
  | decimal value =>
    exact .inr ⟨signedDecimal_ne_nil value, fun _ => isRetChar_of_mem_signedDecimal⟩
  | hexadecimal value =>
    rw [text, Alice.hexadecimal]
    split_ifs
    · exact .inr ⟨List.cons_ne_nil _ _, List.all_eq_true.1 rfl⟩
    · refine .inr ⟨List.cons_ne_nil _ _, ?_⟩
      rw [List.forall_mem_cons, List.forall_mem_cons]
      exact ⟨rfl, rfl, fun _ => isRetChar_of_mem_toDigits (by decide) (by decide)⟩
  | octal value =>
    rw [text]
    split_ifs
    · exact .inr ⟨List.cons_ne_nil _ _, List.all_eq_true.1 rfl⟩
    · refine .inr ⟨List.cons_ne_nil _ _, ?_⟩
      rw [List.forall_mem_cons]
      exact ⟨rfl, fun _ => isRetChar_of_mem_toDigits (by decide) (by decide)⟩
  | unknown => exact .inl rfl

theorem closing_notMem_text : ')' ∉ value.text := by
  rcases value.text_cases with unknown | ⟨_, isRet⟩
  · rw [unknown]
    decide
  · exact fun member => absurd (isRet _ member) (by decide)

end ReturnValue

namespace ErrorNote

variable (error : ErrorNote)

theorem isExplanation_text : isExplanation error.text = true :=
  isExplanation_error error.code_plain.1 error.message_plain.1 error.message_plain.2

end ErrorNote

namespace PrintedCall

variable (xflag : ℕ) (call : PrintedCall)

theorem result?_resultText : ∃ note, result? call.resultText = some (call.value.text, note) := by
  unfold resultText
  rcases call.value.text_cases with unknown | ⟨nonempty, isRet⟩
  · cases call.error with
    | none =>
      rw [unknown]
      exact ⟨[], rfl⟩
    | some error =>
      rw [unknown]
      exact ⟨error.text, result?_unknown error.isExplanation_text⟩
  · cases call.error with
    | none => exact ⟨[], result?_of_isRetChar nonempty isRet⟩
    | some error => exact ⟨error.text, result?_append nonempty isRet error.isExplanation_text⟩

theorem arguments?_resultText : arguments? (printResult call.blanks call.resultText) = none := by
  have inBlanks : ')' ∉ List.replicate call.blanks ' ' := by
    simp
  have inValue := call.value.closing_notMem_text
  unfold resultText
  cases call.error with
  | none =>
    apply arguments?_eq_none
    simp [printResult, inBlanks, inValue]
  | some error =>
    have split : printResult call.blanks (call.value.text ++ ' ' :: error.text) =
          (' ' :: (List.replicate call.blanks ' ' ++ '=' :: ' ' ::
            (call.value.text ++ ' ' :: 'E' :: (error.code ++
              ' ' :: '(' :: error.message)))) ++ [')'] := by
      simp [printResult, ErrorNote.text]
    rw [split]
    exact arguments?_append_bracket
      (by simp [inBlanks, inValue, error.code_plain, error.message_plain])

theorem parseLine_line : ∃ note, parseLine (call.line xflag).text =
      .ok (some ⟨call.stamp.time, call.name,
        splitArguments ('(' :: (printArguments (call.argTexts xflag) ++
          [')'])), call.value.text, note⟩) := by
  obtain ⟨note, isResult⟩ := call.result?_resultText
  exact ⟨note, parseLine_call call.name_ne_nil call.name_plain isResult call.arguments?_resultText⟩

theorem parsesBack_iff_splitArguments : call.ParsesBack xflag ↔
      splitArguments ('(' :: (printArguments (call.argTexts xflag) ++
        [')'])) = call.argTexts xflag := by
  obtain ⟨note, ran⟩ := call.parseLine_line xflag
  rw [ParsesBack, ran]
  constructor
  · rintro ⟨_, isParsed, _, sameArgs, _⟩
    cases isParsed
    exact sameArgs
  · exact fun sameArgs => ⟨_, rfl, rfl, sameArgs, rfl⟩

end PrintedCall

/-! ## Reading the arguments -/

theorem splitArguments_append_ne {opening : Char} (notComma : opening ≠ ',')
    (notQuote : opening ≠ '"') {arg : Text} (hasComma : ',' ∈ arg) (rest : Text)
    (args : List Text) : splitArguments (opening :: (arg ++ rest)) ≠ arg :: args := by
  obtain ⟨front, back, rfl, inFront⟩ := List.eq_append_cons_of_mem hasComma
  rw [List.append_assoc, List.cons_append, splitArguments_cons_append notComma notQuote inFront]
  intro same
  have lengths := congrArg List.length (List.cons.inj same).1
  simp at lengths

theorem splitArguments_ne_of_comma {opening : Char} (notComma : opening ≠ ',')
    (notQuote : opening ≠ '"') {arg : Text} {args : List Text}
    (hasComma : ∃ text ∈ arg :: args, ',' ∈ text) :
    splitArguments (opening :: (printArguments (arg :: args) ++ [')'])) ≠ arg :: args := by
  induction args generalizing opening arg with
  | nil =>
    obtain ⟨text, member, inText⟩ := hasComma
    rw [List.mem_singleton.1 member] at inText
    exact splitArguments_append_ne notComma notQuote inText _ _
  | cons next args ih =>
    rw [printArguments, List.append_assoc]
    by_cases inArg : ',' ∈ arg
    · exact splitArguments_append_ne notComma notQuote inArg _ _
    · rw [List.cons_append, List.cons_append, splitArguments_cons_append notComma notQuote inArg]
      intro same
      have later : ∃ text ∈ next :: args, ',' ∈ text := by
        obtain ⟨text, member, inText⟩ := hasComma
        rcases List.mem_cons.1 member with rfl | member
        · exact absurd inText inArg
        · exact ⟨text, member, inText⟩
      exact @ih ' ' (by decide) (by decide) next later (List.cons.inj same).2

theorem splitArguments_printArguments_iff {args : List Text} (nonempty : args ≠ []) :
    splitArguments ('(' :: (printArguments args ++ [')'])) = args ↔ ∀ text ∈ args, ',' ∉ text := by
  refine ⟨fun same text member inText => ?_, splitArguments_printArguments nonempty⟩
  obtain ⟨arg, rest, rfl⟩ := List.exists_cons_of_ne_nil nonempty
  exact splitArguments_ne_of_comma (by decide) (by decide) ⟨text, member, inText⟩ same

/-- The arguments of a line are read as they were printed if no path has a
comma in it. -/
theorem parses_back_iff (xflag : ℕ) (call : PrintedCall) :
    call.ParsesBack xflag ↔ ∀ arg ∈ call.args, ¬ arg.HasComma xflag := by
  have nonempty : call.argTexts xflag ≠ [] := by
    simpa [PrintedCall.argTexts] using call.args_ne_nil
  rw [call.parsesBack_iff_splitArguments, splitArguments_printArguments_iff nonempty]
  simp only [PrintedCall.argTexts, List.forall_mem_map, PrintedArg.comma_mem_text_iff]

/-- `open("/w/a,b", O_RDONLY) = 3`. -/
def openWithComma : PrintedCall where
  stamp := ⟨10, 0, 0, 0⟩
  name := "open".toList
  name_ne_nil := by decide
  name_plain := by decide
  args := [.path [47, 119, 47, 97, 44, 98, 0] 4096,
    .token "O_RDONLY".toList (List.all_eq_true.1 (by decide))]
  args_ne_nil := List.cons_ne_nil _ _
  blanks := 0
  value := .decimal 3
  error := none

/-- The path is split, and three arguments are read. -/
theorem comma_splits_path : ¬ openWithComma.ParsesBack 0 := by
  rw [PrintedCall.parsesBack_iff_splitArguments]
  decide

end Alice
