import Mathlib.Data.Int.Init
import Mathlib.Data.List.Forall2
import Mathlib.Data.Option.Basic

/-! # Descriptor tables

A table may be looked at through a partial view of what its descriptors refer
to, and may know a part of the descriptors of another; calls go along with
both.  A new process copies the state of its parent and a new thread shares
it. -/

namespace Posix

variable {δ ε : Type}

abbrev Descriptors (δ : Type) := ℤ → Option δ

/-- What a call does to the table of the process.  In a view, what is opened
may be hidden. -/
inductive DescriptorCall (δ : Type) where
  | opens (fd : ℤ) (target : Option δ)
  | closes (fd : ℤ)
  | dups (old new : ℤ)
  | dupsOnto (old new : ℤ)
  | keeps

namespace DescriptorCall

/-- `dup` takes a descriptor into use, while `dup2` may replace one. -/
def Allowed (table : Descriptors δ) : DescriptorCall δ → Prop
  | opens fd target => table fd = none ∧ target.isSome
  | closes fd => (table fd).isSome
  | dups old new => (table old).isSome ∧ table new = none
  | dupsOnto old _ => (table old).isSome
  | keeps => True

def apply : DescriptorCall δ → Descriptors δ → Descriptors δ
  | opens fd target, table => Function.update table fd target
  | closes fd, table => Function.update table fd none
  | dups old new, table => Function.update table new (table old)
  | dupsOnto old new, table => Function.update table new (table old)
  | keeps, table => table

/-- The descriptor that a call takes into use. -/
def taken : DescriptorCall δ → Option ℤ
  | opens fd _ => some fd
  | dups _ new => some new
  | _ => none

theorem Allowed.free {table : Descriptors δ} {call : DescriptorCall δ} {fd : ℤ}
    (allowed : call.Allowed table) (takes : call.taken = some fd) : table fd = none := by
  cases call with
  | opens other target =>
    cases takes
    exact allowed.1
  | dups old new =>
    cases takes
    exact allowed.2
  | closes other => cases takes
  | dupsOnto old new => cases takes
  | keeps => cases takes

/-- Nothing new is referred to but what is opened. -/
theorem exists_of_apply {table : Descriptors δ} {call : DescriptorCall δ} {fd : ℤ} {target : δ}
    (held : call.apply table fd = some target) : (∃ other, table other = some target) ∨
      ∃ other, call = opens other (some target) := by
  cases call with
  | keeps => exact Or.inl ⟨fd, held⟩
  | opens changed opened | closes changed | dups old changed
  | dupsOnto old changed =>
    by_cases same : fd = changed
    · subst same
      rw [apply, Function.update_self] at held
      first
      | exact Or.inl ⟨old, held⟩
      | exact Or.inr ⟨fd, by rw [held]⟩
      | cases held
    · rw [apply, Function.update_of_ne same] at held
      exact Or.inl ⟨fd, held⟩

theorem apply_dupsOnto_self (fd : ℤ) (table : Descriptors δ) :
    (dupsOnto fd fd).apply table = table := by
  exact Function.update_eq_self fd table

/-- The same call in a view. -/
def view (see : δ → Option ε) : DescriptorCall δ → DescriptorCall ε
  | opens fd target => opens fd (target.bind see)
  | closes fd => closes fd
  | dups old new => dups old new
  | dupsOnto old new => dupsOnto old new
  | keeps => keeps

end DescriptorCall

namespace Descriptors

/-- What is seen of a table. -/
def view (see : δ → Option ε) (table : Descriptors δ) : Descriptors ε :=
  fun fd => (table fd).bind see

theorem view_update (see : δ → Option ε) (table : Descriptors δ) (fd : ℤ) (target : Option δ) :
    view see (Function.update table fd target) =
      Function.update (table.view see) fd (target.bind see) := by
  funext other
  by_cases same : other = fd
  · subst same
    simp [view]
  · simp [view, same]

theorem view_apply (see : δ → Option ε) (table : Descriptors δ) (call : DescriptorCall δ) :
    view see (call.apply table) = (call.view see).apply (table.view see) := by
  cases call with
  | opens fd target => exact view_update see table fd target
  | closes fd => exact view_update see table fd none
  | dups old new | dupsOnto old new => exact view_update see table new (table old)
  | keeps => rfl

theorem view_congr {see see' : δ → Option ε} {table : Descriptors δ}
    (agree : ∀ fd target, table fd = some target → see target = see' target) :
    table.view see = table.view see' := by
  funext fd
  unfold view
  cases held : table fd with
  | none => rfl
  | some target => exact agree fd target held

/-- Every descriptor of one table is one of the other, with the same
target. -/
def Within (part whole : Descriptors δ) : Prop :=
  ∀ fd target, part fd = some target → whole fd = some target

variable {part whole : Descriptors δ}

theorem Within.free {fd : ℤ} (within : part.Within whole) (free : whole fd = none)
    : part fd = none := by
  cases held : part fd with
  | none => rfl
  | some target =>
    rw [within fd target held] at free
    cases free

theorem Within.update {target target' : Option δ} (within : part.Within whole) (fd : ℤ)
    (known : ∀ value, target = some value → target' = some value) :
    Within (Function.update part fd target) (Function.update whole fd target') := by
  intro other value held
  by_cases same : other = fd
  · subst same
    rw [Function.update_self] at held ⊢
    exact known value held
  · rw [Function.update_of_ne same] at held ⊢
    exact within other value held

theorem Within.apply (within : part.Within whole) (call : DescriptorCall δ) :
    (call.apply part).Within (call.apply whole) := by
  cases call with
  | opens fd target | closes fd => exact within.update fd fun _ same => same
  | dups old new => exact within.update new (within old)
  | dupsOnto old new => exact within.update new (within old)
  | keeps => exact within

theorem Within.closes (within : part.Within whole) (fd : ℤ) :
    ((DescriptorCall.closes fd).apply part).Within whole := by
  intro other value held
  by_cases same : other = fd
  · subst same
    rw [DescriptorCall.apply, Function.update_self] at held
    cases held
  · rw [DescriptorCall.apply, Function.update_of_ne same] at held
    exact within other value held

end Descriptors

/-! ## Processes -/

/-- The states of all processes, in the order in which they appear, and the
process that each thread belongs to. -/
structure Processes (σ : Type) where
  states : List σ
  thread : ℤ → Option ℕ

namespace Processes

variable {σ τ : Type}

def empty : Processes σ :=
  ⟨[], fun _ => none⟩

def stateOf (processes : Processes σ) (tid : ℤ) : Option σ :=
  (processes.thread tid).bind fun number => processes.states[number]?

/-- A thread that no call of the system has made belongs to a process of its
own. -/
def enter (start : σ) (tid : ℤ) (processes : Processes σ) : Processes σ :=
  match processes.thread tid with
  | some _ => processes
  | none =>
      ⟨processes.states ++ [start],
        Function.update processes.thread tid (some processes.states.length)⟩

def modify (tid : ℤ) (change : σ → σ) (processes : Processes σ) : Processes σ :=
  match processes.thread tid with
  | some number =>
      { processes with states := processes.states.modify number change }
  | none => processes

/-- A new process starts with a copy of the state. -/
def fork (tid child : ℤ) (copy : σ → σ) (processes : Processes σ) : Processes σ :=
  match processes.stateOf tid with
  | some state =>
      ⟨processes.states ++ [copy state],
        Function.update processes.thread child
          (some processes.states.length)⟩
  | none => processes

/-- A new thread belongs to the same process. -/
def share (tid child : ℤ) (processes : Processes σ) : Processes σ :=
  { processes with
    thread := Function.update processes.thread child (processes.thread tid) }

theorem modify_id (tid : ℤ) (processes : Processes σ) : processes.modify tid id = processes := by
  unfold modify
  cases processes.thread tid with
  | none => rfl
  | some number => simp only [List.modify_id]

/-- Two systems of processes that take the same course. -/
structure Related (relation : σ → τ → Prop) (left : Processes σ) (right : Processes τ) : Prop where
  thread : left.thread = right.thread
  states : List.Forall₂ relation left.states right.states

section

variable {relation : σ → τ → Prop} {left : Processes σ}
  {right : Processes τ}

theorem forall₂_getElem? {lefts : List σ} {rights : List τ}
    (related : List.Forall₂ relation lefts rights) (number : ℕ) :
    Option.Rel relation lefts[number]? rights[number]? := by
  induction related generalizing number with
  | nil => exact Option.Rel.none
  | cons head _ ih =>
    cases number with
    | zero => exact Option.Rel.some head
    | succ number => exact ih number

theorem forall₂_modify {lefts : List σ} {rights : List τ} {number : ℕ} {change : σ → σ}
    {change' : τ → τ} (related : List.Forall₂ relation lefts rights)
    (kept : ∀ state state', lefts[number]? = some state →
      rights[number]? = some state' → relation state state' →
        relation (change state) (change' state')) :
    List.Forall₂ relation (lefts.modify number change) (rights.modify number change') := by
  induction related generalizing number with
  | nil => simp
  | cons head tail ih =>
    cases number with
    | zero =>
      simp only [List.modify_zero_cons, List.forall₂_cons]
      exact ⟨kept _ _ rfl rfl head, tail⟩
    | succ number =>
      simp only [List.modify_succ_cons, List.forall₂_cons]
      exact ⟨head, ih kept⟩

theorem Related.stateOf (related : Related relation left right) (tid : ℤ) :
    Option.Rel relation (left.stateOf tid) (right.stateOf tid) := by
  unfold Processes.stateOf
  rw [related.thread]
  cases right.thread tid with
  | none => exact Option.Rel.none
  | some number => exact forall₂_getElem? related.states number

variable {tid : ℤ}

section

variable (related : Related relation left right)
include related

theorem Related.exists_right {state : σ} (held : left.stateOf tid = some state) :
    ∃ state', right.stateOf tid = some state' ∧ relation state state' := by
  have same := related.stateOf tid
  rw [held] at same
  generalize right.stateOf tid = found at same ⊢
  cases same with
  | some related' => exact ⟨_, rfl, related'⟩

theorem Related.exists_left {state' : τ} (held : right.stateOf tid = some state') :
    ∃ state, left.stateOf tid = some state ∧ relation state state' := by
  have same := related.stateOf tid
  rw [held] at same
  generalize left.stateOf tid = found at same ⊢
  cases same with
  | some related' => exact ⟨_, rfl, related'⟩

theorem Related.mono {weaker : σ → τ → Prop}
    (implies : ∀ state state', relation state state' → weaker state state') :
    Related weaker left right :=
  ⟨related.thread, related.states.imp implies⟩

theorem Related.enter {start : σ} {start' : τ} (starts : relation start start') (tid : ℤ) :
    Related relation (left.enter start tid) (right.enter start' tid) := by
  unfold Processes.enter
  rw [related.thread]
  cases right.thread tid with
  | some number => exact related
  | none =>
    have states := List.rel_append related.states (List.Forall₂.cons starts List.Forall₂.nil)
    refine ⟨?_, states⟩
    rw [related.states.length_eq]

theorem Related.modify {change : σ → σ} {change' : τ → τ}
    (kept : ∀ state state', left.stateOf tid = some state →
      right.stateOf tid = some state' → relation state state' →
        relation (change state) (change' state')) : Related relation (left.modify tid change)
      (right.modify tid change') := by
  unfold Processes.stateOf at kept
  unfold Processes.modify
  rw [related.thread] at kept ⊢
  cases number : right.thread tid with
  | none => exact related
  | some number =>
    rw [number] at kept
    exact ⟨rfl, forall₂_modify related.states kept⟩

theorem Related.fork {copy : σ → σ} {copy' : τ → τ}
    (kept : ∀ state state', relation state state' → relation (copy state) (copy' state'))
    (child : ℤ) : Related relation (left.fork tid child copy) (right.fork tid child copy') := by
  unfold Processes.fork
  cases leftState : left.stateOf tid with
  | none =>
    cases rightState : right.stateOf tid with
    | none => exact related
    | some state' =>
      rcases related.exists_left rightState with ⟨state, held, -⟩
      rw [leftState] at held
      cases held
  | some state =>
    rcases related.exists_right leftState with
      ⟨state', rightState, related'⟩
    have states := List.rel_append related.states
      (List.Forall₂.cons (kept _ _ related') List.Forall₂.nil)
    rw [rightState]
    refine ⟨?_, states⟩
    rw [related.thread, related.states.length_eq]

theorem Related.share (tid child : ℤ) :
    Related relation (left.share tid child) (right.share tid child) := by
  refine ⟨?_, related.states⟩
  simp only [Processes.share]
  rw [related.thread]

end

end

end Processes

end Posix
