import Alice.Parser.Merging

/-! # The dump of written bytes

On entry to a write the tracer appends the bytes to the dump file of the
process and prints how many there are; the parser adds these numbers up.

The tracer runs with `-s 0`.  It aborts if it cannot read or write the bytes,
except for a size of -1: there an error is taken for the expected result. -/

namespace Alice

open Posix (Bytes)

/-! ## Dumping -/

/-- A register of the traced process, or an `unsigned long`. -/
abbrev Word := BitVec 64

/-- The size -1. -/
def sizeMax : Word :=
  BitVec.allOnes 64

/-- The memory of a process, as `process_vm_readv` reads it, and the vectors
of buffers in it: the address and the length in the `struct iovec` at an
address. -/
structure Memory where
  readv : ℕ → ℕ → Option Bytes
  length_readv : ∀ {addr len bytes}, readv addr len = some bytes → bytes.length = len
  iovec : ℕ → Option (ℕ × Word)

/-- What `write` transfers at most. -/
def maxWrite : ℕ :=
  0x7ffff000

/-- `write` to the dump file, with the number that it returns.  A size that is
negative as a `ssize_t` is refused. -/
def writeDump (str : Bytes) (len : Word) (dump : Bytes) : ℤ × Bytes :=
  let bytes := str.take (min len.toNat maxWrite)
  if 0 ≤ len.toInt ∧ dump.length + bytes.length < 2 ^ 63 then
    (bytes.length, dump ++ bytes)
  else
    (-1, dump)

/-- `tdump`, which asserts that everything has been written. -/
def tdump (str : Bytes) (len : Word) (dump : Bytes) : Option Bytes :=
  let (ret, dump) := writeDump str len dump
  if ret = len.toInt then some dump else none

namespace Memory

variable (memory : Memory)

/-- `umoven`, whose size is an `int`.  The kernel answers -1 to a negative
size, and the answer is compared with the size before it is taken for an
error. -/
def umoven (addr : ℕ) (len : ℤ) : Option Bytes :=
  if 0 ≤ len then
    memory.readv addr len.toNat
  else if len = -1 then
    some []
  else
    none

def dumpBytes (addr : ℕ) (len : Word) (dump : Bytes) : Option Bytes :=
  (memory.umoven addr (len.setWidth 32).toInt).bind fun str =>
    tdump str len dump

/-- The loop of `dump_iov` over the remaining buffers. -/
def dumpBuffers (sizeofIov : ℕ) : ℕ → ℕ → Word → Bytes → Option (Word × Bytes)
  | 0, _, toret, dump => some (toret, dump)
  | remaining + 1, cur, toret, dump => do
      let (base, len) ← memory.iovec cur
      let dump ← memory.dumpBytes base len dump
      dumpBuffers sizeofIov remaining (cur + sizeofIov) (toret + len) dump

/-- `dump_iov`.  The loop is run once for every buffer, since neither the size
of the vector nor its end has overflowed. -/
def dumpIov (sizeofIov len addr : ℕ) (dump : Bytes) : Option (Word × Bytes) :=
  if len = 0 then
    some (0, dump)
  else if len * sizeofIov < 2 ^ 64 ∧ addr + len * sizeofIov < 2 ^ 64 then
    memory.dumpBuffers sizeofIov len addr 0 dump
  else
    none

def bufferLengths (sizeofIov : ℕ) : ℕ → ℕ → List Word
  | 0, _ => []
  | remaining + 1, cur =>
      match memory.iovec cur with
      | some (_, len) =>
          len :: bufferLengths sizeofIov remaining (cur + sizeofIov)
      | none => []

end Memory

/-! ## Printing -/

def decimal (number : Word) : Text :=
  Nat.toDigits 10 number.toNat

def signedDecimal : ℤ → Text
  | .ofNat number => Nat.toDigits 10 number
  | .negSucc number => '-' :: Nat.toDigits 10 (number + 1)

def hexadecimal (number : ℕ) : Text :=
  if number = 0 then ['0'] else '0' :: 'x' :: Nat.toDigits 16 number

def printfd (fd : Word) : Text :=
  signedDecimal (fd.setWidth 32).toInt

/-- `printstr` with `-s 0`.  With a size of -1 the buffer is taken for a text
that ends with a zero byte. -/
def printstr (memory : Memory) (addr : ℕ) (len : Word) : Text :=
  if addr = 0 then
    "NULL".toList
  else if len = sizeMax then
    match memory.readv addr 1 with
    | none => hexadecimal addr
    | some bytes =>
        if bytes = [0] then "\"\"".toList else "\"\"...".toList
  else if (memory.umoven addr 0).isNone then
    hexadecimal addr
  else if len = 0 then
    "\"\"".toList
  else
    "\"\"...".toList

/-- `tprint_iov` with `-s 0`. -/
def tprintIov (sizeofIov len addr : ℕ) : Text :=
  if len = 0 then
    "[]".toList
  else if len * sizeofIov < 2 ^ 64 ∧ addr + len * sizeofIov < 2 ^ 64 then
    "[...]".toList
  else
    hexadecimal addr

/-- A call of the write family.  `pwrite` is also printed as `pwrite64`. -/
inductive DumpedCall where
  | write (fd addr count : Word)
  | writev (fd addr iovcnt : Word)
  | pwrite (is64 : Bool) (fd addr count offset : Word)
  | pwritev (fd addr iovcnt offset : Word)

/-- A call on entry, with the memory that its buffers are in. -/
structure CallEntry where
  stamp : Stamp
  memory : Memory
  is32Bit : Bool
  call : DumpedCall

namespace CallEntry

variable (entry : CallEntry)

def sizeofIov : ℕ :=
  if entry.is32Bit then 8 else 16

def name : Text :=
  match entry.call with
  | .write .. => "write".toList
  | .writev .. => "writev".toList
  | .pwrite is64 .. => if is64 then "pwrite64".toList else "pwrite".toList
  | .pwritev .. => "pwritev".toList

/-- `dump_iov` for the call. -/
def dumpIov (addr iovcnt : Word) (dump : Bytes) : Option (Word × Bytes) :=
  entry.memory.dumpIov entry.sizeofIov iovcnt.toNat addr.toNat dump

/-- `tprint_iov` for the call. -/
def printIov (addr iovcnt : Word) : Text :=
  tprintIov entry.sizeofIov iovcnt.toNat addr.toNat

/-- `sys_write`, `sys_writev`, `sys_pwrite` and `sys_pwritev`: the arguments
that are printed, and the dump file after the call. -/
def enter (dump : Bytes) : Option (List Text × Bytes) :=
  let memory := entry.memory
  match entry.call with
  | .write fd addr count =>
      (memory.dumpBytes addr.toNat count dump).map fun dump =>
        ([printfd fd, printstr memory addr.toNat count, decimal count], dump)
  | .writev fd addr iovcnt =>
      (entry.dumpIov addr iovcnt dump).map fun (total, dump) =>
        ([printfd fd, entry.printIov addr iovcnt, decimal iovcnt, decimal total], dump)
  | .pwrite _ fd addr count offset =>
      (memory.dumpBytes addr.toNat count dump).map fun dump =>
        ([printfd fd, printstr memory addr.toNat count, decimal count, decimal offset], dump)
  | .pwritev fd addr iovcnt offset =>
      (entry.dumpIov addr iovcnt dump).map fun (total, dump) =>
        ([printfd fd, entry.printIov addr iovcnt, decimal iovcnt,
          decimal offset, decimal total], dump)

def lengths : List Word :=
  match entry.call with
  | .write _ _ count | .pwrite _ _ _ count _ => [count]
  | .writev _ addr iovcnt | .pwritev _ addr iovcnt _ =>
      entry.memory.bufferLengths entry.sizeofIov iovcnt.toNat addr.toNat

end CallEntry

/-- The name and the text of an error, without the `E` of the name. -/
structure ErrorText where
  code : Text
  message : Text
  code_plain : ∀ char ∈ code, char ≠ ' ' ∧ char ≠ ',' ∧ char ≠ '(' ∧ char ≠ ')'
  message_plain : ∀ char ∈ message, char ≠ ',' ∧ char ≠ '(' ∧ char ≠ ')'

/-- How a call has ended. -/
inductive CallResult where
  | returned (value : ℤ)
  | failed (error : ErrorText)
  | restarted (error : ErrorText)

def ErrorText.text (error : ErrorText) : Text :=
  'E' :: (error.code ++ ' ' :: '(' :: (error.message ++ [')']))

def CallResult.text : CallResult → Text
  | .returned value => signedDecimal value
  | .failed error => '-' :: '1' :: ' ' :: error.text
  | .restarted error => '?' :: ' ' :: error.text

def printArguments : List Text → Text
  | [] => []
  | [arg] => arg
  | arg :: next :: args => arg ++ ',' :: ' ' :: printArguments (next :: args)

/-- What `tabto` and the end of the call add to a line, after a number of
blanks. -/
def printResult (blanks : ℕ) (result : Text) : Text :=
  ' ' :: (List.replicate blanks ' ' ++ '=' :: ' ' :: result)

/-- The line of a call that has ended. -/
def CallEntry.line (entry : CallEntry) (args : List Text) (blanks : ℕ)
    (result : CallResult) : StampedLine :=
  ⟨entry.stamp, entry.name ++ '(' :: (printArguments args ++ ')' :: printResult blanks result.text)⟩

/-- The line of a call during which the process has gone. -/
def CallEntry.cutLine (entry : CallEntry) (args : List Text) (unavailable : Option ℕ) :
    StampedLine :=
  ⟨entry.stamp, entry.name ++ '(' :: (printArguments args ++
    match unavailable with
    | some blanks => ')' :: printResult blanks "? <unavailable>".toList
    | none => " <unfinished ...>".toList)⟩

/-! ## The lines of a process -/

/-- Any other line that the parser gets through. -/
structure OtherLine where
  text : Text
  passes : ∃ parsed?, parseLine text = .ok parsed? ∧
    ∀ parsed ∈ parsed?, equivalentSyscall parsed.syscall ∉ dumpedSyscalls

inductive TracerEvent where
  | call (entry : CallEntry) (blanks : ℕ) (result : CallResult)
  | other (line : OtherLine)

/-- A printed line.  For a call of the write family that has ended, the place
in the dump file and the bytes that were stored there. -/
structure PrintedLine where
  text : Text
  stored : Option (ℕ × Bytes)

def OtherLine.printed (line : OtherLine) : PrintedLine :=
  ⟨line.text, none⟩

/-- The lines that are printed, and the dump file then; nothing if the tracer
aborts. -/
def traceEvents : List TracerEvent → Bytes → Option (List PrintedLine × Bytes)
  | [], dump => some ([], dump)
  | .other line :: events, dump => do
      let (printed, dump) ← traceEvents events dump
      some (line.printed :: printed, dump)
  | .call entry blanks result :: events, dump => do
      let (args, after) ← entry.enter dump
      let (printed, final) ← traceEvents events after
      some (⟨(entry.line args blanks result).text,
        some (dump.length, after.drop dump.length)⟩ :: printed, final)

/-- The lines of a process.  It may go during a call; then only other lines
follow. -/
def traceProcess (events : List TracerEvent) (cut : Option (CallEntry × Option ℕ))
    (last : List OtherLine) : Option (List PrintedLine × Bytes) := do
  let (printed, dump) ← traceEvents events []
  match cut with
  | none => some (printed ++ last.map OtherLine.printed, dump)
  | some (entry, unavailable) => do
      let (args, dump) ← entry.enter dump
      some (printed ++ ⟨(entry.cutLine args unavailable).text, none⟩ ::
        last.map OtherLine.printed, dump)

/-! ## What is stored -/

theorem eq_sizeMax_of_toInt {len : Word} (minusOne : len.toInt = -1) : len = sizeMax := by
  apply BitVec.eq_of_toInt_eq
  rw [minusOne]
  decide

/-- The bytes of a buffer, all of them or, for a size of -1, none. -/
def Stored (len : Word) (bytes : Bytes) : Prop :=
  if len = sizeMax then bytes = [] else bytes.length = len.toNat

/-- More has been stored, and the dump file is still a file. -/
structure Extends (dump after bytes : Bytes) : Prop where
  eq_append : after = dump ++ bytes
  bound : bytes = [] ∨ after.length < 2 ^ 63

theorem Extends.refl (dump : Bytes) : Extends dump dump [] :=
  ⟨(List.append_nil dump).symm, .inl rfl⟩

theorem Extends.trans {dump middle after bytes more : Bytes} (first : Extends dump middle bytes)
    (second : Extends middle after more) : Extends dump after (bytes ++ more) := by
  refine ⟨by rw [second.eq_append, first.eq_append, List.append_assoc], ?_⟩
  rcases second.bound with nothing | small
  · have same : after = middle := by rw [second.eq_append, nothing, List.append_nil]
    rw [nothing, List.append_nil, same]
    exact first.bound
  · exact .inr small

theorem Extends.length_lt {dump after bytes : Bytes} (grown : Extends dump after bytes) :
    bytes.length < 2 ^ 63 := by
  rcases grown.bound with nothing | small
  · rw [nothing]
    decide
  · rw [grown.eq_append, List.length_append] at small
    omega

namespace Memory

variable {memory : Memory}

variable {dump after : Bytes}

/-- `dump_bytes` returns only if it has stored the buffer, or if the size is
-1. -/
theorem extends_of_dumpBytes {addr : ℕ} {len : Word}
    (ran : memory.dumpBytes addr len dump = some after) :
    ∃ bytes, Extends dump after bytes ∧ Stored len bytes := by
  obtain ⟨str, read, ran⟩ := Option.bind_eq_some_iff.1 ran
  simp only [tdump, writeDump] at ran
  by_cases fits : 0 ≤ len.toInt ∧ dump.length + (str.take (min len.toNat maxWrite)).length < 2 ^ 63
  · simp only [if_pos fits] at ran
    split_ifs at ran with everything
    cases ran
    have unsigned : len.toInt = len.toNat := by
      have cases := len.toInt_eq_toNat_cond
      split_ifs at cases <;> omega
    rw [unsigned, Nat.cast_inj, List.length_take] at everything
    refine ⟨_, ⟨rfl, .inr ?_⟩, ?_⟩
    · rw [List.length_append]
      exact fits.2
    · have notMax : len ≠ sizeMax := by
        rintro rfl
        exact absurd fits.1 (by decide)
      rw [Stored, if_neg notMax, List.length_take]
      exact everything
  · simp only [if_neg fits] at ran
    split_ifs at ran with refused
    cases ran
    refine ⟨[], .refl _, ?_⟩
    rw [Stored, if_pos (eq_sizeMax_of_toInt refused.symm)]

/-- Each size of -1 takes one from the sum of the sizes. -/
theorem extends_of_dumpBuffers {sizeofIov remaining cur : ℕ} {toret total : Word}
    (ran : memory.dumpBuffers sizeofIov remaining cur toret dump = some (total, after)) :
    ∃ bytes, Extends dump after bytes ∧ total + BitVec.ofNat 64
          ((memory.bufferLengths sizeofIov remaining cur).count sizeMax) =
        toret + BitVec.ofNat 64 bytes.length := by
  induction remaining generalizing cur toret dump with
  | zero =>
    cases ran
    exact ⟨[], .refl _, rfl⟩
  | succ remaining ih =>
    obtain ⟨⟨base, len⟩, found, ran⟩ := Option.bind_eq_some_iff.1 ran
    obtain ⟨middle, dumped, ran⟩ := Option.bind_eq_some_iff.1 ran
    obtain ⟨bytes, grown, stored⟩ := extends_of_dumpBytes dumped
    obtain ⟨more, further, sum⟩ := ih ran
    refine ⟨bytes ++ more, grown.trans further, ?_⟩
    simp only [bufferLengths, found, List.length_append]
    by_cases isMax : len = sizeMax
    · rw [Stored, if_pos isMax] at stored
      rw [isMax, List.count_cons_self, stored, BitVec.ofNat_add,
        ← BitVec.add_assoc, sum, isMax, List.length_nil, Nat.zero_add]
      simp only [sizeMax]
      grind
    · rw [Stored, if_neg isMax] at stored
      rw [List.count_cons_of_ne isMax, sum, stored, BitVec.ofNat_add,
        BitVec.ofNat_toNat, BitVec.setWidth_eq, BitVec.add_assoc]

theorem length_bufferLengths_le (sizeofIov remaining cur : ℕ) :
    (memory.bufferLengths sizeofIov remaining cur).length ≤ remaining := by
  induction remaining generalizing cur with
  | zero => exact le_rfl
  | succ remaining ih =>
    unfold bufferLengths
    split
    · exact Nat.succ_le_succ (ih _)
    · exact Nat.zero_le _

/-- The number that `dump_iov` returns is that of the stored bytes, unless
there is a size of -1. -/
theorem extends_of_dumpIov {sizeofIov len addr : ℕ} {total : Word} (positive : 0 < sizeofIov)
    (ran : memory.dumpIov sizeofIov len addr dump = some (total, after)) :
    ∃ bytes, Extends dump after bytes ∧ (total.toNat = bytes.length ↔
        sizeMax ∉ memory.bufferLengths sizeofIov len addr) := by
  unfold dumpIov at ran
  split_ifs at ran with isEmpty fits
  · cases ran
    refine ⟨[], .refl _, ?_⟩
    rw [isEmpty]
    simp [bufferLengths]
  · obtain ⟨bytes, grown, sum⟩ := extends_of_dumpBuffers ran
    refine ⟨bytes, grown, ?_⟩
    have few : (memory.bufferLengths sizeofIov len addr).count sizeMax ≤
        len :=
      List.count_le_length.trans (length_bufferLengths_le _ _ _)
    have lenBound : len < 2 ^ 64 := lt_of_le_of_lt (Nat.le_mul_of_pos_right len positive) fits.1
    have lengthBound := grown.length_lt
    rw [← List.count_eq_zero]
    rw [zero_add] at sum
    have numbers := congrArg BitVec.toNat sum
    simp only [BitVec.toNat_add, BitVec.toNat_ofNat] at numbers
    omega

end Memory

end Alice
