import Alice.Parser.DumpPlaces
import Mathlib.Data.List.DropRight

/-! # 64-bit variants of calls

`get_micro_ops` gives `pwrite64`, `_llseek` and `ftruncate64` the names of the
plain calls in what it has parsed.  The row has the text of the line, though,
and `__get_micro_op` parses it again and finds the name that was printed,
which it does not know.  What its branches do is left open here; it returns
nothing if it raises. -/

namespace Alice

open Checked

/-! ## `__get_micro_op` -/

def innocentNames : List String :=
  ["_exit", "pread", "_newselect", "_sysctl", "accept", "accept4", "access",
    "acct", "add_key", "adjtimex", "afs_syscall", "alarm", "alloc_hugepages",
    "arch_prctl", "bind", "break", "brk", "cacheflush", "capget", "capset",
    "clock_getres", "clock_gettime", "clock_nanosleep", "clock_settime",
    "connect", "create_module", "delete_module", "epoll_create",
    "epoll_create1", "epoll_ctl", "epoll_pwait", "epoll_wait", "eventfd",
    "eventfd2", "exit", "exit_group", "faccessat", "fadvise64",
    "fadvise64_64", "fgetxattr", "flistxattr", "flock", "free_hugepages",
    "fstat", "fstat64", "fstatat64", "fstatfs", "fstatfs64", "ftime",
    "futex", "get_kernel_syms", "get_mempolicy", "get_robust_list",
    "get_thread_area", "getcpu", "getcwd", "getdents", "getdents64",
    "getegid", "getegid32", "geteuid", "geteuid32", "getgid", "getgid32",
    "getgroups", "getgroups32", "getitimer", "getpeername", "getpagesize",
    "getpgid", "getpgrp", "getpid", "getpmsg", "getppid", "getpriority",
    "getresgid", "getresgid32", "getresuid", "getresuid32", "getrlimit",
    "getrusage", "getsid", "getsockname", "getsockopt", "gettid",
    "gettimeofday", "getuid", "getuid32", "getxattr", "gtty", "idle",
    "init_module", "inotify_add_watch", "inotify_init", "inotify_init1",
    "inotify_rm_watch", "ioperm", "iopl", "ioprio_get", "ioprio_set", "ipc",
    "kexec_load", "keyctl", "kill", "lgetxattr", "listen", "listxattr",
    "llistxattr", "lock", "lookup_dcookie", "lstat", "lstat64", "madvise",
    "madvise1", "mbind", "migrate_pages", "mincore", "mlock", "mlockall",
    "move_pages", "mprotect", "mpx", "mq_getsetattr", "mq_notify", "mq_open",
    "mq_timedreceive", "mq_timedsend", "mq_unlink", "msgctl", "msgget",
    "msgrcv", "msgsnd", "munlock", "munlockall", "nanosleep", "nfsservctl",
    "nice", "oldfstat", "oldlstat", "oldolduname", "oldstat", "olduname",
    "pause", "pciconfig_iobase", "pciconfig_read", "pciconfig_write",
    "perf_event_open", "in", "personality", "phys", "pipe", "pipe2",
    "pivot_root", "poll", "ppoll", "prctl", "pread64", "renamed", "preadv",
    "prlimit", "prof", "profil", "pselect6", "ptrace", "putpmsg",
    "query_module", "quotactl", "read", "readahead", "readdir", "readlink",
    "readlinkat", "readv", "reboot", "recv", "recvfrom", "recvmsg",
    "recvmmsg", "request_key", "restart_syscall", "rt_sigaction",
    "rt_sigpending", "rt_sigprocmask", "rt_sigqueueinfo", "rt_sigreturn",
    "rt_sigsuspend", "rt_sigtimedwait", "rt_tgsigqueueinfo",
    "sched_get_priority_max", "sched_get_priority_min", "sched_getaffinity",
    "sched_getparam", "sched_getscheduler", "sched_rr_get_interval",
    "sched_setaffinity", "sched_setparam", "sched_setscheduler",
    "sched_yield", "security", "select", "semctl", "semget", "semop",
    "semtimedop", "send", "sendmsg", "sendto", "set_mempolicy",
    "set_robust_list", "set_thread_area", "set_tid_address",
    "set_zone_reclaim", "available", "setdomainname", "setfsgid",
    "setfsgid32", "setfsuid", "setfsuid32", "setgid", "setgid32",
    "setgroups", "setgroups32", "sethostname", "setitimer", "setpgid",
    "setpriority", "setregid", "setregid32", "setresgid", "setresgid32",
    "setresuid", "setresuid32", "setreuid", "setreuid32", "setrlimit",
    "setsid", "setsockopt", "settimeofday", "setuid", "setuid32", "setup",
    "sgetmask", "shutdown", "sigaction", "sigaltstack", "signal", "signalfd",
    "signalfd4", "sigpending", "sigprocmask", "sigreturn", "sigsuspend",
    "socket", "socketcall", "socketpair", "spu_create", "spu_run",
    "ssetmask", "stat", "stat64", "statfs", "statfs64", "stime", "stty",
    "subpage_prot", "swapoff", "swapon", "sysfs", "sysinfo", "syslog",
    "tgkill", "time", "timer_create", "timer_delete", "timer_getoverrun",
    "timer_gettime", "timer_settime", "timerfd_create", "timerfd_gettime",
    "timerfd_settime", "times", "tkill", "tuxcall", "ugetrlimit", "ulimit",
    "uname", "unshare", "uselib", "ustat", "utime", "utimensat", "utimes",
    "vhangup", "vm86old", "vserver", "wait4", "waitid", "waitpid", "mount",
    "fstatat", "newfstatat", "mtrace_mmap", "mtrace_munmap",
    "mtrace_thread_start", "syscall_334", "prlimit64", "syscall_318",
    "syscall_324", "syscall_435", "syscall_319", "mknodat"]

def innocentSyscalls : List Text :=
  innocentNames.map String.toList

/-- The names that a branch of `__get_micro_op` is for, except those of the
first one. -/
def handledSyscalls : List Text :=
  ["write", "writev", "pwrite", "pwritev", "close", "link", "rename",
    "unlink", "lseek", "truncate", "ftruncate", "fallocate", "fsync",
    "fdatasync", "sync", "mkdir", "rmdir", "chdir", "fchdir", "clone",
    "vfork", "fcntl", "fcntl64", "mmap", "mmap2", "munmap", "msync",
    "mwrite", "dup", "dup2", "dup3", "chmod", "fchmod", "chown", "fchown",
    "umask", "ioctl", "shmget", "shmat", "shmdt", "shmctl", "execve",
    "io_setup", "aio_read", "io_getevents", "io_destroy", "symlink",
    "mremap"].map String.toList

/-- Some branch of `__get_micro_op` is for the line. -/
def isHandled (parsed : ParsedLine) : Bool :=
  decide (parsed.syscall = "open".toList) ||
    (decide (parsed.syscall = "openat".toList) &&
      decide (parsed.args.head? = some "AT_FDCWD".toList)) ||
    decide (parsed.syscall ∈ handledSyscalls)

def strip (line : Text) : Text :=
  (line.dropWhile Char.isWhitespace).rdropWhile Char.isWhitespace

section

variable {State Op : Type}

/-- `__get_micro_op` on the text of a line, with the bodies of its
branches. -/
def translateLine (branch : ℤ → ParsedLine → State → Option (State × List Op))
    (pid : ℤ) (line : Text) (state : State) : Option (State × List Op) :=
  match parseLine line with
  | .error _ => none
  | .ok none => some (state, [])
  | .ok (some parsed) =>
      if isHandled parsed then
        branch pid parsed state
      else if isInnocent innocentSyscalls parsed.syscall then
        some (state, [])
      else
        none

/-- The loop of `get_micro_ops` over the rows. -/
def translateRows (branch : ℤ → ParsedLine → State → Option (State × List Op)) :
    State → List FileRow → Option (State × List Op)
  | state, [] => some (state, [])
  | state, row :: rest => do
      let (state, here) ← translateLine branch row.pid (strip row.line) state
      let (state, later) ← translateRows branch state rest
      some (state, here ++ later)

/-- `get_micro_ops`, with the state of the trackers at the end. -/
def translateFiles (branch : ℤ → ParsedLine → State → Option (State × List Op))
    (state : State) (files : List TraceFile) : Option (State × List Op) :=
  match collectFiles innocentSyscalls files with
  | .ok rows => translateRows branch state (mergeRows rows)
  | .error _ => none

end

/-! ## The plain form of a trace -/

/-- The names that `equivalent_syscall` has an entry for. -/
def variantSyscalls : List Text :=
  ["pwrite64".toList, "_llseek".toList, "ftruncate64".toList]

/-- The line with the name in `equivalent_syscall`, if it has an entry. -/
def plainLine (line : Text) : Text :=
  match LineGroups.ofText line with
  | some groups =>
      if groups.syscall ∈ variantSyscalls then
        groups.time ++ ' ' :: (equivalentSyscall groups.syscall ++
          line.drop (groups.time.length + 1 + groups.syscall.length))
      else
        line
  | none => line

def TraceFile.plain (file : TraceFile) : TraceFile :=
  { file with lines := file.lines.map plainLine }

/-- The values of `dump_offset` after the lines of a file. -/
def TraceFile.dumpOffsets (file : TraceFile) : Except PyError (List ℕ) :=
  (placeLines file.dumpFile 0 file.lines).map (List.map PlacedLine.next)

def IsVariant (line : Text) : Prop :=
  ∃ groups, LineGroups.ofText line = some groups ∧ groups.syscall ∈ variantSyscalls

theorem plainLine_of_not_isVariant {line : Text} (plain : ¬ IsVariant line) :
    plainLine line = line := by
  unfold plainLine
  split
  · rename_i groups found
    exact if_neg fun isVariant => plain ⟨groups, found, isVariant⟩
  · rfl

theorem innocentNames_plain : ∀ name ∈ ["pwrite", "lseek", "ftruncate", "pwrite64", "_llseek",
      "ftruncate64"], name ∉ innocentNames := by
  decide +kernel

theorem isInnocent_eq_false {name : String} (isNew : name ∉ innocentNames)
    (notIgnored : "ignore_".toList.isPrefixOf name.toList = false) :
    isInnocent innocentSyscalls name.toList = false := by
  rw [isInnocent, notIgnored, Bool.or_false, decide_eq_false_iff_not,
    innocentSyscalls, List.mem_map]
  rintro ⟨other, member, same⟩
  exact isNew (String.toList_inj.1 same ▸ member)

theorem isInnocent_variant {syscall : Text} (isVariant : syscall ∈ variantSyscalls) :
    isInnocent innocentSyscalls syscall = false ∧
      isInnocent innocentSyscalls (equivalentSyscall syscall) = false := by
  simp only [variantSyscalls, List.mem_cons, List.not_mem_nil, or_false] at isVariant
  rcases isVariant with rfl | rfl | rfl
  · exact ⟨isInnocent_eq_false (innocentNames_plain _ (by decide)) rfl,
      isInnocent_eq_false (innocentNames_plain "pwrite" (by decide)) rfl⟩
  · exact ⟨isInnocent_eq_false (innocentNames_plain _ (by decide)) rfl,
      isInnocent_eq_false (innocentNames_plain "lseek" (by decide)) rfl⟩
  · exact ⟨isInnocent_eq_false (innocentNames_plain _ (by decide)) rfl,
      isInnocent_eq_false (innocentNames_plain "ftruncate" (by decide)) rfl⟩

/-! ## What a result looks like -/

/-- A result and what may follow it, to the end. -/
def ResultFollows (tail : Text) : Prop :=
  ((afterEquals? tail).bind result?).isSome = true

section

variable {tail text rest inserted placed : Text}

theorem afterEquals?_eq_some_iff : afterEquals? tail = some rest ↔
      ∃ blanks, tail = printResult blanks rest := by
  constructor
  · intro found
    unfold afterEquals? at found
    split at found
    · rename_i text
      split at found
      · rename_i after isAfter
        obtain rfl := Option.some.inj found
        refine ⟨(text.takeWhile (· == ' ')).length, ?_⟩
        have blanks : text.takeWhile (· == ' ') =
            List.replicate (text.takeWhile (· == ' ')).length ' ' := by
          apply List.eq_replicate_of_mem
          intro char member
          exact beq_iff_eq.1 (List.mem_takeWhile_imp (p := (· == ' ')) member)
        rw [printResult, ← blanks, ← isAfter, List.takeWhile_append_dropWhile]
      · cases found
    · cases found
  · rintro ⟨blanks, rfl⟩
    exact afterEquals?_printResult blanks rest

theorem afterEquals?_cons_eq_none {char : Char} (notBlank : char ≠ ' ') :
    afterEquals? (char :: text) = none := by
  unfold afterEquals?
  split
  · rename_i same
    exact absurd (List.cons.inj same).1 notBlank
  · rfl

theorem explanation?_cases (explained : (explanation? text).isSome = true) :
    text = [] ∨ text = [' '] ∨ ∃ note, isExplanation note = true ∧
        (text = note ∨ text = ' ' :: note) := by
  unfold explanation? at explained
  split at explained
  · exact .inl rfl
  · exact .inr (.inl rfl)
  · rename_i note _
    split at explained
    · rename_i isText
      exact .inr (.inr ⟨note, isText, .inr rfl⟩)
    · cases explained
  · split at explained
    · rename_i isText
      exact .inr (.inr ⟨_, isText, .inl rfl⟩)
    · cases explained

theorem exists_of_result? (found : (result? text).isSome = true) :
    ∃ ret after, text = ret ++ after ∧ ret ≠ [] ∧
      (∀ char ∈ ret, isRetChar char = true ∨ char = '?') ∧ (result? ret).isSome = true ∧
      (explanation? after).isSome = true := by
  unfold result? at found
  split at found
  · split at found
    · rw [Option.isSome_map] at found
      exact ⟨['?'], _, rfl, List.cons_ne_nil _ _, fun char member =>
        .inr (List.mem_singleton.1 member), rfl, found⟩
    · cases found
  · rename_i nonempty
    rw [Option.isSome_map] at found
    have isRet : ∀ char ∈ text.takeWhile isRetChar, isRetChar char = true :=
      fun char member => List.mem_takeWhile_imp member
    refine ⟨text.takeWhile isRetChar, text.dropWhile isRetChar,
      (List.takeWhile_append_dropWhile).symm, nonempty,
      fun char member => .inl (isRet char member), ?_, found⟩
    rw [result?_of_isRetChar nonempty isRet]
    rfl

/-! ## The place of the data is put before the result -/

theorem insertBeforeResult_cons_eq_none
    {char : Char} (noEquals : char = ')' → afterEquals? text = none)
    (noLater : insertBeforeResult inserted text = none) :
    insertBeforeResult inserted (char :: text) = none := by
  rw [insertBeforeResult, noLater, if_neg]
  · rfl
  · rintro ⟨isBracket, found⟩
    rw [noEquals isBracket] at found
    cases found

theorem insertBeforeResult_append_eq_none
    {front : Text} (noBracket : ')' ∉ front) (noLater : insertBeforeResult inserted text = none) :
    insertBeforeResult inserted (front ++ text) = none := by
  induction front with
  | nil => exact noLater
  | cons char front ih =>
    rw [List.mem_cons, not_or] at noBracket
    exact insertBeforeResult_cons_eq_none (fun isBracket => absurd isBracket.symm noBracket.1)
      (ih noBracket.2)

theorem insertBeforeResult_of_isNote (noted : isNote text = true) :
    insertBeforeResult inserted text = none ∧ text.head? = some '(' := by
  unfold isNote at noted
  split at noted
  · rename_i rest
    rw [Bool.and_eq_true, beq_iff_eq, List.all_eq_true] at noted
    obtain ⟨isLast, inside⟩ := noted
    have isRest := List.dropLast_append_getLast? ')' isLast
    have noBracket : ')' ∉ '(' :: rest.dropLast := by
      rw [List.mem_cons, not_or]
      refine ⟨by decide, fun member => ?_⟩
      have := inside ')' member
      cases this
    rw [← isRest, ← List.cons_append]
    exact ⟨insertBeforeResult_append_eq_none noBracket rfl, rfl⟩
  · cases noted

/-- The brackets of an explanation are not followed by a result. -/
theorem insertBeforeResult_of_isExplanation (explained : isExplanation text = true) :
    insertBeforeResult inserted text = none := by
  unfold isExplanation at explained
  split at explained
  · rename_i rest
    refine insertBeforeResult_cons_eq_none (fun isBracket => absurd isBracket (by decide)) ?_
    split at explained
    · rename_i note isRest
      obtain ⟨inNote, isHead⟩ := @insertBeforeResult_of_isNote _ inserted explained
      obtain ⟨more, rfl⟩ := List.head?_eq_some_iff.1 isHead
      -- The code has no blank, and the blank after it has no `=` after it.
      have noBlank : ' ' ∉ rest.takeWhile (· != ' ') := fun member =>
        absurd (List.mem_takeWhile_imp (p := (· != ' ')) member) (by decide)
      rw [← List.takeWhile_append_dropWhile (p := (· != ' ')) (l := rest), isRest]
      generalize rest.takeWhile (· != ' ') = code at noBlank
      induction code with
      | nil =>
        exact insertBeforeResult_cons_eq_none (fun isBracket => absurd isBracket (by decide)) inNote
      | cons char code ih =>
        rw [List.mem_cons, not_or] at noBlank
        refine insertBeforeResult_cons_eq_none (fun _ => ?_) (ih noBlank.2)
        cases code with
        | nil => rfl
        | cons next code =>
          rw [List.mem_cons, not_or] at noBlank
          exact afterEquals?_cons_eq_none (Ne.symm noBlank.2.1)
    · cases explained
  · exact (insertBeforeResult_of_isNote explained).1

theorem exists_of_resultFollows (follows : ResultFollows tail) :
    ∃ blanks ret after, tail = printResult blanks (ret ++ after) ∧
      ret ≠ [] ∧ (∀ char ∈ ret, isRetChar char = true ∨ char = '?') ∧
      (result? ret).isSome = true ∧ (explanation? after).isSome = true := by
  unfold ResultFollows at follows
  rw [Option.isSome_bind, Option.any_eq_true_iff_get] at follows
  obtain ⟨isSome, found⟩ := follows
  obtain ⟨blanks, isTail⟩ := afterEquals?_eq_some_iff.1 (Option.some_get isSome).symm
  obtain ⟨ret, after, isResult, parts⟩ := exists_of_result? found
  rw [isResult] at isTail
  exact ⟨blanks, ret, after, isTail, parts⟩

theorem resultFollows_printResult {result : Text} (found : (result? result).isSome = true)
    (blanks : ℕ) : ResultFollows (printResult blanks result) := by
  rw [ResultFollows, afterEquals?_printResult]
  exact found

theorem insertBeforeResult_of_resultFollows (follows : ResultFollows tail) :
    insertBeforeResult inserted tail = none := by
  obtain ⟨blanks, ret, after, rfl, nonempty, isRet, found, explained⟩ :=
    exists_of_resultFollows follows
  have inRet : ')' ∉ ret := by
    intro member
    rcases isRet _ member with isRet | isRet <;> nomatch isRet
  have noBracket : ')' ∉ List.replicate blanks ' ' ++ ' ' :: '=' :: ' ' :: ret := by
    simp [List.mem_replicate, inRet]
  rw [printResult_eq, ← List.cons_append, ← List.cons_append,
    ← List.cons_append, ← List.append_assoc]
  apply insertBeforeResult_append_eq_none noBracket
  rcases explanation?_cases explained with rfl | rfl | ⟨note, isNote, rfl | rfl⟩
  · rfl
  · rfl
  · exact insertBeforeResult_of_isExplanation isNote
  · exact insertBeforeResult_cons_eq_none (fun isBracket => absurd isBracket (by decide))
      (insertBeforeResult_of_isExplanation isNote)

/-! ## Lines that are calls -/

theorem isSome_arguments?_cons {char : Char} : (arguments? (char :: text)).isSome = true ↔
      (arguments? text).isSome = true ∨ (char = ')' ∧ ResultFollows text) := by
  rw [arguments?]
  cases arguments? text with
  | some found => simp
  | none =>
    simp only [Option.isSome_none, Bool.false_eq_true, false_or]
    split <;> rename_i isBracket
    · rw [Option.isSome_map]
      exact ⟨fun follows => ⟨isBracket, follows⟩, And.right⟩
    · simp [isBracket]

theorem isSome_arguments?_append (front : Text) (found : (arguments? text).isSome = true) :
    (arguments? (front ++ text)).isSome = true := by
  induction front with
  | nil => exact found
  | cons char front ih => exact isSome_arguments?_cons.2 (.inl ih)

theorem isSome_arguments?_iff : (arguments? text).isSome = true ↔
      ∃ front tail, text = front ++ ')' :: tail ∧ ResultFollows tail := by
  constructor
  · intro found
    induction text with
    | nil => cases found
    | cons char text ih =>
      rcases isSome_arguments?_cons.1 found with found | ⟨rfl, follows⟩
      · obtain ⟨front, tail, rfl, follows⟩ := ih found
        exact ⟨char :: front, tail, rfl, follows⟩
      · exact ⟨[], text, rfl, follows⟩
  · rintro ⟨front, tail, rfl, follows⟩
    exact isSome_arguments?_append front (isSome_arguments?_cons.2 (.inr ⟨rfl, follows⟩))

theorem isSome_arguments?_insert (found : (arguments? text).isSome = true)
    (put : insertBeforeResult inserted text = some placed) : (arguments? placed).isSome = true := by
  induction text generalizing placed with
  | nil => cases found
  | cons char text ih =>
    rw [insertBeforeResult] at put
    split at put
    · obtain rfl := Option.some.inj put
      exact isSome_arguments?_append inserted found
    · obtain ⟨later, putLater, rfl⟩ := Option.map_eq_some_iff.1 put
      rcases isSome_arguments?_cons.1 found with found | ⟨_, follows⟩
      · exact isSome_arguments?_cons.2 (.inl (ih found putLater))
      · rw [insertBeforeResult_of_resultFollows follows] at putLater
        cases putLater

end

def Calls (name line : Text) : Prop :=
  ∃ time rest, line = time ++ ' ' :: (name ++ '(' :: rest) ∧ time ≠ [] ∧
    (∀ char ∈ time, isStampChar char = true) ∧
    (arguments? ('(' :: rest)).isSome = true

section

variable {name time rest line inserted placed : Text} {groups : LineGroups}

theorem Calls.ofText
    (calls : Calls name line) (nonempty : name ≠ []) (noBracket : '(' ∉ name) :
    ∃ groups, LineGroups.ofText line = some groups ∧ groups.syscall = name := by
  obtain ⟨time, rest, rfl, timeNonempty, isTime, found⟩ := calls
  obtain ⟨parts, isParts⟩ := Option.isSome_iff_exists.1 found
  rw [ofText_append timeNonempty isTime, callGroups?_name nonempty noBracket, isParts]
  exact ⟨_, rfl, rfl⟩

theorem calls_of_ofText (found : LineGroups.ofText line = some groups) :
    Calls groups.syscall line := by
  unfold LineGroups.ofText at found
  split at found
  · rename_i first more rest isTime isRest
    unfold callGroups? at found
    split at found
    · cases found
    · obtain ⟨⟨args, ret, note⟩, isArgs, rfl⟩ := Option.map_eq_some_iff.1 found
      have begins : ∃ after, rest.dropWhile (· != '(') = '(' :: after := by
        cases isAfter : rest.dropWhile (· != '(') with
        | nil =>
          rw [isAfter] at isArgs
          cases isArgs
        | cons char after =>
          have stops := List.head_dropWhile_not (· != '(')
            (l := rest) (by rw [isAfter]; exact List.cons_ne_nil _ _)
          simp only [isAfter, List.head_cons, bne_eq_false_iff_eq] at stops
          exact ⟨after, by rw [stops]⟩
      obtain ⟨after, isAfter⟩ := begins
      refine ⟨first :: more, after, ?_, List.cons_ne_nil _ _, ?_, ?_⟩
      · rw [← isAfter, List.takeWhile_append_dropWhile, ← isRest, ← isTime,
          List.takeWhile_append_dropWhile]
      · rw [← isTime]
        exact fun char member => List.mem_takeWhile_imp member
      · rw [← isAfter, isArgs]
        rfl
  · cases found

theorem insertBeforeResult_append_of_notMem
    {front : Text} (noBracket : ')' ∉ front) : insertBeforeResult inserted (front ++ rest) =
      (insertBeforeResult inserted rest).map (front ++ ·) := by
  induction front with
  | nil => exact Option.map_id'.symm
  | cons char front ih =>
    rw [List.mem_cons, not_or] at noBracket
    rw [List.cons_append, insertBeforeResult, if_neg fun found => noBracket.1 found.1.symm,
      ih noBracket.2, Option.map_map]
    rfl

theorem bracket_notMem_time (isTime : ∀ char ∈ time, isStampChar char = true) : ')' ∉ time :=
  fun member => nomatch isTime ')' member

theorem Calls.insert
    (calls : Calls name line) (noBracket : ')' ∉ name)
    (put : insertBeforeResult inserted line = some placed) :
    Calls name placed := by
  obtain ⟨time, rest, rfl, nonempty, isTime, found⟩ := calls
  have noBracketBefore : ')' ∉ time ++ ' ' :: (name ++ ['(']) := by
    simp [bracket_notMem_time isTime, noBracket]
  have isFront : time ++ ' ' :: (name ++ '(' :: rest) =
      (time ++ ' ' :: (name ++ ['('])) ++ rest := by
    simp
  rw [isFront, insertBeforeResult_append_of_notMem noBracketBefore] at put
  obtain ⟨after, putAfter, rfl⟩ := Option.map_eq_some_iff.1 put
  have stays : (arguments? ('(' :: after)).isSome = true := by
    apply isSome_arguments?_insert found
    rw [← List.singleton_append, insertBeforeResult_append_of_notMem (by decide), putAfter]
    rfl
  exact ⟨time, after, by simp, nonempty, isTime, stays⟩

theorem isWhitespace_eq_false {matched : Char → Bool} {char : Char} (holds : matched char = true)
    (noBlanks : [' ', '\t', '\r', '\n'].all (! matched ·) = true) : char.isWhitespace = false := by
  rw [← Bool.not_eq_true]
  intro blank
  have member : char ∈ [' ', '\t', '\r', '\n'] := by simpa [Char.isWhitespace, or_assoc] using blank
  have := List.all_eq_true.1 noBlanks char member
  rw [holds] at this
  cases this

theorem exists_of_isNote {note : Text} (noted : isNote note = true) :
    ∃ front, note = front ++ [')'] := by
  unfold isNote at noted
  split at noted
  · rename_i rest
    rw [Bool.and_eq_true, beq_iff_eq] at noted
    exact ⟨'(' :: rest.dropLast,
      congrArg ('(' :: ·) (List.dropLast_append_getLast? ')' noted.1).symm⟩
  · cases noted

theorem exists_of_isExplanation {note : Text} (explained : isExplanation note = true) :
    ∃ front, note = front ++ [')'] := by
  unfold isExplanation at explained
  split at explained
  · rename_i rest
    split at explained
    · rename_i note isRest
      obtain ⟨front, rfl⟩ := exists_of_isNote explained
      refine ⟨'E' :: (rest.takeWhile (· != ' ') ++ ' ' :: front), ?_⟩
      rw [List.cons_append, List.append_assoc, List.cons_append, ← isRest,
        List.takeWhile_append_dropWhile]
    · cases explained
  · exact exists_of_isNote explained

theorem printResult_append (blanks : ℕ) (first second : Text) :
    printResult blanks (first ++ second) = printResult blanks first ++ second := by
  simp [printResult]

/-- Stripping takes at most one blank from a result. -/
theorem ResultFollows.exists_kept {tail : Text} (follows : ResultFollows tail) :
    ∃ kept last, (tail = kept ++ [last] ∨ tail = kept ++ [last] ++ [' ']) ∧
      last.isWhitespace = false ∧ ResultFollows (kept ++ [last]) := by
  obtain ⟨blanks, ret, after, rfl, nonempty, isRet, found, explained⟩ :=
    exists_of_resultFollows follows
  have isKept := resultFollows_printResult found blanks
  rw [← List.dropLast_concat_getLast nonempty, printResult_append] at isKept
  have isLast : (ret.getLast nonempty).isWhitespace = false := by
    rcases isRet _ (List.getLast_mem nonempty) with isRet | isRet
    · exact isWhitespace_eq_false isRet rfl
    · rw [isRet]
      rfl
  rcases explanation?_cases explained with rfl | rfl | ⟨note, isNote, isAfter⟩
  · refine ⟨_, _, .inl ?_, isLast, isKept⟩
    rw [List.append_nil, ← printResult_append, List.dropLast_concat_getLast nonempty]
  · refine ⟨_, _, .inr ?_, isLast, isKept⟩
    rw [printResult_append, ← printResult_append blanks ret.dropLast,
      List.dropLast_concat_getLast nonempty]
  · have ends : ∃ front, after = front ++ [')'] := by
      obtain ⟨front, rfl⟩ := exists_of_isExplanation isNote
      rcases isAfter with rfl | rfl
      · exact ⟨front, rfl⟩
      · exact ⟨' ' :: front, rfl⟩
    obtain ⟨front, rfl⟩ := ends
    rw [← List.append_assoc, printResult_append] at follows ⊢
    exact ⟨_, ')', .inl rfl, rfl, follows⟩

theorem rdropWhile_concat_of_isWhitespace {last : Char} (isLast : last.isWhitespace = false)
    (text : Text) : (text ++ [last]).rdropWhile Char.isWhitespace = text ++ [last] :=
  List.rdropWhile_concat_neg _ _ _ (by rw [isLast]; exact Bool.false_ne_true)

theorem Calls.strip (calls : Calls name line) : Calls name (strip line) := by
  obtain ⟨time, rest, rfl, nonempty, isTime, found⟩ := calls
  have begins : (time ++ ' ' :: (name ++ '(' :: rest)).dropWhile
      Char.isWhitespace = time ++ ' ' :: (name ++ '(' :: rest) := by
    obtain ⟨first, more, rfl⟩ := List.exists_cons_of_ne_nil nonempty
    have isFirst := isWhitespace_eq_false (isTime first List.mem_cons_self) rfl
    rw [List.cons_append, List.dropWhile_cons, isFirst]
    rfl
  obtain ⟨front, tail, isRest, follows⟩ := isSome_arguments?_iff.1 found
  obtain ⟨kept, last, isTail, isLast, keptFollows⟩ := follows.exists_kept
  have stripped : Alice.strip (time ++ ' ' :: (name ++ '(' :: rest)) =
      time ++ ' ' :: (name ++ (front ++ ')' :: (kept ++ [last]))) := by
    have isFront : time ++ ' ' :: (name ++ (front ++ ')' :: (kept ++ [last])))
        = (time ++ ' ' :: (name ++ (front ++ ')' :: kept))) ++ [last] := by
      simp
    rw [Alice.strip, begins, isRest]
    rcases isTail with rfl | rfl
    · rw [isFront, rdropWhile_concat_of_isWhitespace isLast]
    · have isWhole : time ++ ' ' :: (name ++ (front ++ ')' :: (kept ++ [last] ++ [' ']))) =
          (time ++ ' ' :: (name ++ (front ++ ')' :: kept))) ++ [last] ++ [' '] := by
        simp
      rw [isWhole, List.rdropWhile_concat_pos _ _ _ rfl, isFront,
        rdropWhile_concat_of_isWhitespace isLast]
  rw [stripped]
  have stays := isSome_arguments?_iff.2 ⟨front, _, rfl, keptFollows⟩
  cases front with
  | nil => cases isRest
  | cons first front =>
    obtain ⟨rfl, isRest⟩ := List.cons.inj isRest
    exact ⟨time, _, rfl, nonempty, isTime, stays⟩

end

/-! ## The place of the data is found for every variant -/

section

variable {line time name rest : Text}

theorem equivalentSyscall_of_notMem {syscall : Text} (notVariant : syscall ∉ variantSyscalls) :
    equivalentSyscall syscall = syscall := by
  simp only [variantSyscalls, List.mem_cons, List.not_mem_nil, or_false, not_or] at notVariant
  obtain ⟨notPwrite, notLlseek, notFtruncate⟩ := notVariant
  rw [equivalentSyscall, if_neg notPwrite, if_neg notLlseek, if_neg notFtruncate]

theorem equivalentSyscall_equivalentSyscall (syscall : Text) :
    equivalentSyscall (equivalentSyscall syscall) =
      equivalentSyscall syscall := by
  unfold equivalentSyscall
  split_ifs <;> first | rfl | simp_all

theorem name_of_mem_variantSyscalls (isVariant : name ∈ variantSyscalls) :
    (name ≠ [] ∧ '(' ∉ name ∧ ')' ∉ name) ∧
      equivalentSyscall name ≠ [] ∧ '(' ∉ equivalentSyscall name ∧
      ')' ∉ equivalentSyscall name := by
  simp only [variantSyscalls, List.mem_cons, List.not_mem_nil, or_false] at isVariant
  rcases isVariant with rfl | rfl | rfl <;> decide

theorem plainLine_append
    (isVariant : name ∈ variantSyscalls) (nonempty : time ≠ [])
    (isTime : ∀ char ∈ time, isStampChar char = true)
    (found : (arguments? ('(' :: rest)).isSome = true) :
    plainLine (time ++ ' ' :: (name ++ '(' :: rest)) =
      time ++ ' ' :: (equivalentSyscall name ++ '(' :: rest) := by
  obtain ⟨⟨nameNonempty, noBracket, _⟩, _⟩ := name_of_mem_variantSyscalls isVariant
  obtain ⟨parts, isParts⟩ := Option.isSome_iff_exists.1 found
  have isRest : (time ++ ' ' :: (name ++ '(' :: rest)).drop
      (time.length + 1 + name.length) = '(' :: rest := by
    rw [← List.drop_drop, ← List.drop_drop, List.drop_left]
    exact List.drop_left
  simp only [plainLine, ofText_append nonempty isTime,
    callGroups?_name nameNonempty noBracket, isParts, Option.map_some, if_pos isVariant, isRest]

/-- What is parsed of the plain form of a line. -/
def ParsedLine.plain (parsed : ParsedLine) : ParsedLine :=
  { parsed with syscall := equivalentSyscall parsed.syscall }

theorem parseLine_of_ofText {groups : LineGroups} (found : LineGroups.ofText line = some groups) :
    parseLine line = (parseTime groups.time).map fun time =>
      some ⟨time, groups.syscall, splitArguments groups.args, groups.ret, groups.explanation⟩ := by
  rw [parseLine, found]
  cases isTime : parseTime groups.time <;> simp only [isTime] <;> rfl

theorem ofText_plainLine {groups : LineGroups} (found : LineGroups.ofText line = some groups) :
    LineGroups.ofText (plainLine line) =
      some { groups with syscall := equivalentSyscall groups.syscall } := by
  by_cases isVariant : groups.syscall ∈ variantSyscalls
  · obtain ⟨time, rest, rfl, nonempty, isTime, isSome⟩ := calls_of_ofText found
    obtain ⟨⟨nameNonempty, noBracket, _⟩, plainNonempty, noBracketPlain, _⟩ :=
      name_of_mem_variantSyscalls isVariant
    rw [plainLine_append isVariant nonempty isTime isSome, ofText_append nonempty isTime,
      callGroups?_name plainNonempty noBracketPlain]
    rw [ofText_append nonempty isTime, callGroups?_name nameNonempty noBracket] at found
    obtain ⟨parts, isParts, isGroups⟩ := Option.map_eq_some_iff.1 found
    rw [isParts, ← isGroups]
    rfl
  · rw [plainLine_of_not_isVariant, found, equivalentSyscall_of_notMem isVariant]
    rintro ⟨others, foundOthers, member⟩
    rw [found] at foundOthers
    exact isVariant (Option.some.inj foundOthers ▸ member)

theorem parseLine_plainLine (line : Text) : parseLine (plainLine line) =
      (parseLine line).map (Option.map ParsedLine.plain) := by
  cases found : LineGroups.ofText line with
  | some groups =>
    rw [parseLine_of_ofText (ofText_plainLine found), parseLine_of_ofText found]
    cases parseTime groups.time <;> rfl
  | none =>
    rw [plainLine, found]
    simp only [parseLine, found]
    split <;> rfl

theorem isSome_insertBeforeResult_plainLine (inserted line : Text) :
    (insertBeforeResult inserted (plainLine line)).isSome =
      (insertBeforeResult inserted line).isSome := by
  by_cases isVariant : IsVariant line
  · obtain ⟨groups, found, isVariant⟩ := isVariant
    obtain ⟨time, rest, rfl, nonempty, isTime, isSome⟩ := calls_of_ofText found
    obtain ⟨⟨_, _, noBracket⟩, _, _, noBracketPlain⟩ := name_of_mem_variantSyscalls isVariant
    have isFront : ∀ name : Text, time ++ ' ' :: (name ++ '(' :: rest) =
        (time ++ ' ' :: name) ++ '(' :: rest := by
      simp
    have noBracketBefore : ∀ name : Text, ')' ∉ name → ')' ∉ time ++ ' ' :: name := by
      simp [bracket_notMem_time isTime]
    rw [plainLine_append isVariant nonempty isTime isSome, isFront, isFront,
      insertBeforeResult_append_of_notMem (noBracketBefore _ noBracketPlain),
      insertBeforeResult_append_of_notMem (noBracketBefore _ noBracket),
      Option.isSome_map, Option.isSome_map]
  · rw [plainLine_of_not_isVariant isVariant]

theorem appendPlace_plainLine (dumpFile : Text) (offset : ℕ) (line : Text) (parsed : ParsedLine) :
    (appendPlace dumpFile offset (plainLine line) parsed.plain).map Prod.snd =
      (appendPlace dumpFile offset line parsed).map Prod.snd := by
  have isSome := isSome_insertBeforeResult_plainLine (dumpPlace dumpFile offset) line
  simp only [appendPlace, ParsedLine.plain, equivalentSyscall_equivalentSyscall]
  split
  · cases writeSize (equivalentSyscall parsed.syscall) parsed.args with
    | error raised => rfl
    | ok size =>
      revert isSome
      cases insertBeforeResult (dumpPlace dumpFile offset) line <;>
      cases insertBeforeResult (dumpPlace dumpFile offset) (plainLine line) <;>
      intro isSome
      · rfl
      · cases isSome
      · cases isSome
      · rfl
  · rfl

theorem next_placeLines_cons {dumpFile : Text} {offset : ℕ} {parsed : ParsedLine}
    (isParsed : parseLine line = .ok (some parsed)) (lines : List Text) :
    (placeLines dumpFile offset (line :: lines)).map (List.map PlacedLine.next) =
      ((appendPlace dumpFile offset line parsed).map Prod.snd).bind
        fun next => ((placeLines dumpFile next lines).map
          (List.map PlacedLine.next)).map (next :: ·) := by
  cases isPlaced : appendPlace dumpFile offset line parsed with
  | error raised =>
    rw [placeLines, isParsed]
    simp only [ok_bind, isPlaced]
    rfl
  | ok result =>
    rw [placeLines_cons_of_some isParsed isPlaced]
    simp only [Except.map, Except.bind]
    cases placeLines dumpFile result.2 lines <;> rfl

theorem next_placeLines_plain (dumpFile : Text) (offset : ℕ) (lines : List Text) :
    (placeLines dumpFile offset (lines.map plainLine)).map (List.map PlacedLine.next) =
      (placeLines dumpFile offset lines).map (List.map PlacedLine.next) := by
  induction lines generalizing offset with
  | nil => rfl
  | cons line lines ih =>
    have isPlain := parseLine_plainLine line
    rw [List.map_cons]
    cases isParsed : parseLine line with
    | error raised =>
      rw [isParsed] at isPlain
      rw [placeLines, placeLines, isParsed, isPlain]
      rfl
    | ok parsed =>
      rw [isParsed] at isPlain
      cases parsed with
      | none =>
        rw [placeLines_cons_of_none isPlain, placeLines_cons_of_none isParsed]
        exact ih offset
      | some parsed =>
        rw [next_placeLines_cons isPlain, next_placeLines_cons isParsed, appendPlace_plainLine]
        exact congrArg _ (funext fun next => by rw [ih next])

/-- The renaming reaches the pass that collects the rows. -/
theorem TraceFile.dumpOffsets_plain (file : TraceFile) :
    file.plain.dumpOffsets = file.dumpOffsets :=
  next_placeLines_plain file.dumpFile 0 file.lines

end

/-! ## The row of a variant is not translated -/

section

variable {State Op : Type} {name line : Text} {files : List TraceFile}
  {branch : ℤ → ParsedLine → State → Option (State × List Op)}

theorem isVariant_iff : IsVariant line ↔ ∃ name ∈ variantSyscalls, Calls name line := by
  constructor
  · rintro ⟨groups, found, isVariant⟩
    exact ⟨_, isVariant, calls_of_ofText found⟩
  · rintro ⟨name, isVariant, calls⟩
    obtain ⟨⟨nonempty, noBracket, _⟩, _⟩ := name_of_mem_variantSyscalls isVariant
    obtain ⟨groups, found, rfl⟩ := calls.ofText nonempty noBracket
    exact ⟨groups, found, isVariant⟩

theorem isHandled_variant {parsed : ParsedLine} (isVariant : parsed.syscall ∈ variantSyscalls) :
    isHandled parsed = false := by
  have others : parsed.syscall ≠ "open".toList ∧ parsed.syscall ≠ "openat".toList ∧
      parsed.syscall ∉ handledSyscalls := by
    generalize parsed.syscall = syscall at isVariant
    simp only [variantSyscalls, List.mem_cons, List.not_mem_nil, or_false] at isVariant
    rcases isVariant with rfl | rfl | rfl <;> decide
  simp only [isHandled, others.1, others.2.1, others.2.2, decide_false,
    Bool.false_and, Bool.or_self]

theorem translateLine_variant (isVariant : IsVariant line) (pid : ℤ) (state : State) :
    translateLine branch pid line state = none := by
  obtain ⟨groups, found, isVariant⟩ := isVariant
  rw [translateLine, parseLine_of_ofText found]
  cases parseTime groups.time with
  | error raised => rfl
  | ok time =>
    have notHandled : isHandled ⟨time, groups.syscall,
        splitArguments groups.args, groups.ret, groups.explanation⟩ =
        false :=
      isHandled_variant isVariant
    simp only [Except.map, notHandled, (isInnocent_variant isVariant).1,
      Bool.false_eq_true, if_false]

theorem translateRows_eq_none {rows : List FileRow} {row : FileRow} (member : row ∈ rows)
    (fails : ∀ state, translateLine branch row.pid (strip row.line) state = none) (state : State) :
    translateRows branch state rows = none := by
  induction rows generalizing state with
  | nil => cases member
  | cons first rest ih =>
    rw [translateRows]
    rcases List.mem_cons.1 member with rfl | later
    · rw [fails state]
      rfl
    · cases translateLine branch first.pid (strip first.line) state with
      | none => rfl
      | some result => simp only [Option.bind_eq_bind, Option.bind_some, ih later, Option.bind_none]

theorem isVariant_of_appendPlace {dumpFile placed : Text} {offset next : ℕ} {parsed : ParsedLine}
    (isVariant : IsVariant line)
    (appended : appendPlace dumpFile offset line parsed = .ok (placed, next)) :
    IsVariant placed := by
  simp only [appendPlace] at appended
  split at appended
  · obtain ⟨size, _, appended⟩ := bind_eq_ok_iff.1 appended
    split at appended
    · rename_i inserted put
      obtain ⟨rfl, rfl⟩ := Prod.mk.inj (Except.ok.inj appended)
      obtain ⟨name, isName, calls⟩ := isVariant_iff.1 isVariant
      obtain ⟨⟨_, _, noBracket⟩, _⟩ := name_of_mem_variantSyscalls isName
      exact isVariant_iff.2 ⟨name, isName, calls.insert noBracket put⟩
    · cases appended
  · obtain ⟨rfl, rfl⟩ := Prod.mk.inj (Except.ok.inj appended)
    exact isVariant

theorem exists_placed_variant {dumpFile : Text} {offset : ℕ} {lines : List Text}
    {placed : List PlacedLine} (ran : placeLines dumpFile offset lines = .ok placed)
    (member : line ∈ lines) (isVariant : IsVariant line) :
    ∃ entry ∈ placed, entry.parsed.syscall ∈ variantSyscalls ∧ IsVariant entry.line := by
  induction lines generalizing offset placed with
  | nil => cases member
  | cons first rest ih =>
    obtain ⟨parsed, isParsed, ran⟩ := bind_eq_ok_iff.1 ran
    cases parsed with
    | none =>
      rcases List.mem_cons.1 member with rfl | later
      · obtain ⟨groups, found, _⟩ := isVariant
        rw [parseLine_of_ofText found] at isParsed
        obtain ⟨_, _, absurdity⟩ := map_eq_ok_iff.1 isParsed
        cases absurdity
      · exact ih ran later
    | some parsed =>
      obtain ⟨⟨text, next⟩, appended, ran⟩ := bind_eq_ok_iff.1 ran
      obtain ⟨others, ranOthers, ran⟩ := bind_eq_ok_iff.1 ran
      obtain rfl := Except.ok.inj ran
      rcases List.mem_cons.1 member with rfl | later
      · refine ⟨_, List.mem_cons_self, ?_, isVariant_of_appendPlace isVariant appended⟩
        obtain ⟨groups, found, isName⟩ := isVariant
        rw [parseLine_of_ofText found] at isParsed
        obtain ⟨_, _, same⟩ := map_eq_ok_iff.1 isParsed
        obtain rfl := Option.some.inj same
        exact isName
      · obtain ⟨entry, isEntry, found⟩ := ih ranOthers later
        exact ⟨entry, List.mem_cons_of_mem _ isEntry, found⟩

variable {file : TraceFile}

theorem exists_row_variant {rows : List FileRow} (ran : file.rows innocentSyscalls = .ok rows)
    (member : line ∈ file.lines) (isVariant : IsVariant line) :
    ∃ row ∈ rows, IsVariant row.line := by
  obtain ⟨placed, ranPlaced, ran⟩ := bind_eq_ok_iff.1 ran
  obtain rfl := Except.ok.inj ran
  obtain ⟨entry, isEntry, isName, stays⟩ := exists_placed_variant ranPlaced member isVariant
  have isKept : TraceFile.isKept innocentSyscalls entry = true := by
    rw [TraceFile.isKept, (isInnocent_variant isName).2]
    rfl
  exact ⟨_, List.mem_map_of_mem (List.mem_filter.2 ⟨isEntry, isKept⟩), stays⟩

theorem exists_collected_variant {rows : List (List FileRow)}
    (ran : collectFiles innocentSyscalls files = .ok rows) (isFile : file ∈ files)
    (member : line ∈ file.lines) (isVariant : IsVariant line) :
    ∃ row ∈ mergeRows rows, IsVariant row.line := by
  have collected : ∃ row ∈ rows.flatten, IsVariant row.line := by
    induction files generalizing rows with
    | nil => cases isFile
    | cons first rest ih =>
      obtain ⟨here, ranHere, ran⟩ := bind_eq_ok_iff.1 ran
      obtain ⟨later, ranLater, ran⟩ := bind_eq_ok_iff.1 ran
      obtain rfl := Except.ok.inj ran
      rcases List.mem_cons.1 isFile with rfl | isLater
      · obtain ⟨row, isRow, found⟩ := exists_row_variant ranHere member isVariant
        exact ⟨row, List.mem_append_left _ isRow, found⟩
      · obtain ⟨row, isRow, found⟩ := ih ranLater isLater
        exact ⟨row, List.mem_append_right _ isRow, found⟩
  obtain ⟨row, isRow, found⟩ := collected
  exact ⟨row, List.mem_mergeSort.2 isRow, found⟩

theorem IsVariant.strip (isVariant : IsVariant line) : IsVariant (strip line) := by
  obtain ⟨name, isName, calls⟩ := isVariant_iff.1 isVariant
  exact isVariant_iff.2 ⟨name, isName, calls.strip⟩

theorem translateFiles_variant (isFile : file ∈ files) (member : line ∈ file.lines)
    (isVariant : IsVariant line) (state : State) : translateFiles branch state files = none := by
  unfold translateFiles
  split
  · rename_i rows collected
    obtain ⟨row, isRow, found⟩ := exists_collected_variant collected isFile member isVariant
    exact translateRows_eq_none isRow
      (fun state => translateLine_variant found.strip row.pid state) state
  · rfl

theorem plain_eq_self (noVariant : ∀ line ∈ file.lines, ¬ IsVariant line) : file.plain = file := by
  have same : file.lines.map plainLine = file.lines := (List.map_congr_left fun line member =>
      plainLine_of_not_isVariant (noVariant line member)).trans
      (List.map_id _)
  rw [TraceFile.plain, same]

/-- The operations, the states of the trackers and the places in the dump
files are those of the plain form of the trace. -/
def TranslatesAsPlain (branch : ℤ → ParsedLine → State → Option (State × List Op))
    (state : State) (files : List TraceFile) : Prop :=
  (∃ result, translateFiles branch state files = some result ∧
    translateFiles branch state (files.map TraceFile.plain) =
      some result) ∧
  ∀ file ∈ files, file.dumpOffsets = file.plain.dumpOffsets

/-- A trace whose plain form is translated is translated in the same way if
and only if no variant is in it. -/
theorem translates_as_plain_iff
    {state : State} {result : State × List Op}
    (yields : translateFiles branch state (files.map TraceFile.plain) =
      some result) :
    TranslatesAsPlain branch state files ↔
      ∀ file ∈ files, ∀ line ∈ file.lines, ¬ IsVariant line := by
  constructor
  · rintro ⟨⟨result, ran, _⟩, _⟩ file isFile line member isVariant
    rw [translateFiles_variant isFile member isVariant] at ran
    cases ran
  · intro noVariant
    have same : files.map TraceFile.plain = files := (List.map_congr_left fun file isFile =>
        plain_eq_self (noVariant file isFile)).trans (List.map_id _)
    rw [same] at yields
    refine ⟨⟨result, yields, by rw [same, yields]⟩, fun file _ => ?_⟩
    exact file.dumpOffsets_plain.symm

end

/-- A file is cut through a descriptor that is not watched, upon which the
branch does nothing. -/
def cutFile (name : Text) : TraceFile :=
  ⟨100, [], [StampedLine.text ⟨⟨10, 0, 0, 0⟩, name ++ "(3, 0) = 0".toList⟩]⟩

def unwatched : ℤ → ParsedLine → Unit → Option (Unit × List Unit) :=
  fun _ _ state => some (state, [])

theorem translateFiles_singleton {line : Text} {parsed : ParsedLine}
    (isParsed : parseLine line = .ok (some parsed))
    (notDumped : equivalentSyscall parsed.syscall ∉ dumpedSyscalls)
    (notInnocent : isInnocent innocentSyscalls (equivalentSyscall parsed.syscall) = false)
    (handled : isHandled parsed = true) (stays : strip line = line) :
    translateFiles unwatched () [⟨100, [], [line]⟩] = some ((), []) := by
  have appended : appendPlace [] 0 line parsed = .ok (line, 0) := by
    simp only [appendPlace, if_neg notDumped]
    rfl
  have collected : collectFiles innocentSyscalls [⟨100, [], [line]⟩] =
      .ok [[⟨100, parsed.time, line⟩]] := by
    have kept : TraceFile.isKept innocentSyscalls ⟨parsed, line, 0, 0⟩ =
        true := by
      rw [TraceFile.isKept, notInnocent]
      rfl
    have placed : placeLines [] 0 [line] = .ok [⟨parsed, line, 0, 0⟩] := by
      rw [placeLines_cons_of_some isParsed appended]
      rfl
    have rows : TraceFile.rows innocentSyscalls ⟨100, [], [line]⟩ =
        .ok [⟨100, parsed.time, line⟩] := by
      rw [TraceFile.rows, placed, ok_bind, List.filter_cons_of_pos kept]
      rfl
    rw [collectFiles, rows]
    rfl
  have translated : translateLine unwatched 100 line () = some ((), []) := by
    simp only [translateLine, isParsed, handled, if_true]
    rfl
  simp only [translateFiles, collected, mergeRows, List.flatten_cons,
    List.flatten_nil, List.append_nil, List.mergeSort_singleton, translateRows, stays, translated]
  rfl

theorem translateFiles_cutFile : translateFiles unwatched () [cutFile "ftruncate".toList] =
      some ((), []) := by
  have parsed := @parseLine_of_callGroups ⟨⟨10, 0, 0, 0⟩, "ftruncate(3, 0) = 0".toList⟩
    ⟨Stamp.text ⟨10, 0, 0, 0⟩, "ftruncate".toList, "(3, 0)".toList, ['0'], []⟩ rfl
  apply translateFiles_singleton parsed
  · decide
  · exact isInnocent_eq_false (innocentNames_plain "ftruncate" (by decide)) rfl
  · rfl
  · rfl

/-- The trace is not translated, although its plain form is. -/
theorem variant_not_translated :
    translateFiles unwatched ()
        ([cutFile "ftruncate64".toList].map TraceFile.plain) =
      some ((), []) ∧
    ¬ TranslatesAsPlain unwatched () [cutFile "ftruncate64".toList] := by
  have isVariant : IsVariant (StampedLine.text ⟨⟨10, 0, 0, 0⟩, "ftruncate64(3, 0) = 0".toList⟩) :=
    ⟨⟨Stamp.text ⟨10, 0, 0, 0⟩, "ftruncate64".toList, "(3, 0)".toList, ['0'], []⟩, rfl, by decide⟩
  refine ⟨translateFiles_cutFile, ?_⟩
  rintro ⟨⟨result, ran, _⟩, _⟩
  rw [translateFiles_variant List.mem_cons_self List.mem_cons_self isVariant] at ran
  cases ran

theorem translates_as_plain_iff_cutFile :
    TranslatesAsPlain unwatched () [cutFile "ftruncate".toList] ↔
      ∀ file ∈ [cutFile "ftruncate".toList], ∀ line ∈ file.lines,
        ¬ IsVariant line :=
  translates_as_plain_iff translateFiles_cutFile

end Alice
