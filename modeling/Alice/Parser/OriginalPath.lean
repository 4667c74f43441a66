import Alice.Parser.TraceFiles
import Alice.Paths

/-! # `ProcessTracker.original_path`

A path is normalised by three substitutions, repeated until the text stays the
same.  On the components of the path:

* `//` drops empty components, about half of a run in one round;
* `/./` drops `.` in the same way;
* `/[^/]*/../` drops any component before a `..` together with the `..`, also
  one that is empty, `.` or itself `..`.

The last component has no slash behind it and is never dropped. -/

namespace Alice

open LexicalPath
open Substitution (Pattern)

/-! ## The loop -/

/-- `/\./`. -/
def dotComponent : Pattern where
  behind
    | '/' :: '.' :: '/' :: rest => some rest
    | _ => none
  shorter := by
    intro text rest isBehind
    split at isBehind
    · obtain rfl := Option.some.inj isBehind
      simp only [List.length_cons]
      omega
    · cases isBehind

/-- `/[^/]*/\.\./`. -/
def parentComponent : Pattern where
  behind
    | '/' :: text =>
        match text.dropWhile (· != '/') with
        | '/' :: '.' :: '.' :: '/' :: rest => some rest
        | _ => none
    | _ => none
  shorter := by
    intro text rest isBehind
    split at isBehind
    · split at isBehind
      · rename_i text _ rest' isRest
        obtain rfl := Option.some.inj isBehind
        have le := (List.dropWhile_suffix (l := text) (· != '/')).length_le
        rw [isRest] at le
        simp only [List.length_cons] at le ⊢
        omega
      · cases isBehind
    · cases isBehind

def substituted (path : Text) : Text :=
  parentComponent.sub ['/'] (dotComponent.sub ['/'] (collapse path))

/-- The result, if the loop is left within a number of rounds. -/
def normalised : ℕ → Text → Option Text
  | 0, _ => none
  | rounds + 1, path =>
      if substituted path = path then some path
      else normalised rounds (substituted path)

def fullPath (cwd path : Text) : Text :=
  if path.head? = some '/' then path else cwd ++ '/' :: path

def originalPath (cwd path : Text) (rounds : ℕ) : Option Text :=
  normalised rounds (fullPath cwd path)

theorem normalised_unique {rounds rounds' : ℕ} {path result result' : Text}
    (isResult : normalised rounds path = some result)
    (isResult' : normalised rounds' path = some result') : result = result' := by
  induction rounds generalizing rounds' path with
  | zero => cases isResult
  | succ rounds ih =>
    cases rounds' with
    | zero => cases isResult'
    | succ rounds' =>
      rw [normalised] at isResult isResult'
      split at isResult
      case isTrue same =>
        rw [if_pos same] at isResult'
        exact Option.some.inj (isResult.symm.trans isResult')
      case isFalse changed =>
        rw [if_neg changed] at isResult'
        exact ih isResult isResult'

/-! ## Substitutions on components -/

/-- The component behind a dropped one is not looked at. -/
def thin (dropped : Text) : List Text → List Text
  | part :: next :: parts =>
      if part = dropped then next :: thin dropped parts
      else part :: thin dropped (next :: parts)
  | parts => parts

def cancel : List Text → List Text
  | part :: up :: next :: parts =>
      if up = ['.', '.'] then next :: cancel parts
      else part :: cancel (up :: next :: parts)
  | parts => parts

/-- The components before `..` are cancelled. -/
def thinned (parts : List Text) : List Text :=
  thin ['.'] (thin [] parts)

def componentRound (parts : List Text) : List Text :=
  cancel (thinned parts)

theorem thin_sublist (dropped : Text) (parts : List Text) : (thin dropped parts).Sublist parts := by
  fun_induction thin dropped parts with
  | case1 next parts ih => exact (ih.cons_cons next).cons _
  | case2 part next parts notDropped ih => exact ih.cons_cons part
  | case3 parts => exact List.Sublist.refl parts

theorem cancel_sublist (parts : List Text) : (cancel parts).Sublist parts := by
  fun_induction cancel parts with
  | case1 part next parts ih => exact ((ih.cons_cons next).cons _).cons _
  | case2 part up next parts notUp ih => exact ih.cons_cons part
  | case3 parts => exact List.Sublist.refl parts

theorem thinned_sublist (parts : List Text) : (thinned parts).Sublist parts :=
  (thin_sublist _ _).trans (thin_sublist _ _)

theorem componentRound_sublist (parts : List Text) : (componentRound parts).Sublist parts :=
  (cancel_sublist _).trans (thinned_sublist parts)

/-! ## Substitutions in texts -/

theorem dotComponent_behind_iff {text rest : Text} : dotComponent.behind text = some rest ↔
      text = '/' :: ['.'] ++ '/' :: rest := by
  constructor
  · intro isBehind
    simp only [dotComponent] at isBehind
    split at isBehind
    · rw [Option.some.inj isBehind]
      rfl
    · cases isBehind
  · rintro rfl
    rfl

theorem takeWhile_append_slash {part : Text} (noSlash : '/' ∉ part) (rest : Text) :
    (part ++ '/' :: rest).takeWhile (· != '/') = part := by
  rw [List.takeWhile_append_of_pos]
  · simp
  · exact fun char isChar => bne_iff_ne.2 fun isSlash => noSlash (isSlash ▸ isChar)

theorem dropWhile_append_slash {part : Text} (noSlash : '/' ∉ part) (rest : Text) :
    (part ++ '/' :: rest).dropWhile (· != '/') = '/' :: rest := by
  rw [List.dropWhile_append_of_pos]
  · simp
  · exact fun char isChar => bne_iff_ne.2 fun isSlash => noSlash (isSlash ▸ isChar)

theorem parentComponent_behind_iff {text rest : Text} : parentComponent.behind text = some rest ↔
      ∃ part, '/' ∉ part ∧ text = '/' :: part ++ '/' :: ['.', '.'] ++ '/' :: rest := by
  constructor
  · intro isBehind
    simp only [parentComponent] at isBehind
    split at isBehind
    · split at isBehind
      · rename_i text _ rest' isRest
        obtain rfl := Option.some.inj isBehind
        refine ⟨text.takeWhile (· != '/'), ?_, ?_⟩
        · intro hasSlash
          exact absurd (List.mem_takeWhile_imp hasSlash) (by simp)
        · have whole := List.takeWhile_append_dropWhile (p := (· != '/')) (l := text)
          rw [isRest] at whole
          simpa using whole.symm
      · cases isBehind
    · cases isBehind
  · rintro ⟨part, noSlash, rfl⟩
    have isRest := dropWhile_append_slash noSlash ('.' :: '.' :: '/' :: rest)
    simp only [parentComponent, List.cons_append, List.nil_append, List.append_assoc, isRest]

section

variable {pattern : Pattern} {part next : Text} {parts rest : List Text}

theorem eq_of_append_joined {part' rest : Text} (noSlash : '/' ∉ part) (noSlash' : '/' ∉ part')
    (same : part ++ joined parts = part' ++ '/' :: rest) : part = part' ∧
      ∃ next parts', parts = next :: parts' ∧ rest = next ++ joined parts' := by
  cases parts with
  | nil =>
    rw [joined_nil, List.append_nil] at same
    exact absurd (same ▸ by simp) noSlash
  | cons next parts =>
    have taken := congrArg (List.takeWhile (· != '/')) same
    rw [joined_cons, List.cons_append, takeWhile_append_slash noSlash,
      takeWhile_append_slash noSlash'] at taken
    subst taken
    have sameRest := List.append_cancel_left same
    exact ⟨rfl, next, parts, rfl, (List.cons.inj sameRest).2.symm⟩

theorem sub_append_of_noSlash
    (atSlash : ∀ {char text rest}, pattern.behind (char :: text) = some rest → char = '/')
    (noSlash : '/' ∉ part) (text : Text) :
    pattern.sub ['/'] (part ++ text) = part ++ pattern.sub ['/'] text := by
  induction part with
  | nil => rfl
  | cons char part ih =>
    obtain ⟨notSlash, inRest⟩ := not_or.1 (List.mem_cons.not.1 noSlash)
    have notBehind : pattern.behind (char :: (part ++ text)) = none := by
      by_contra isSome
      obtain ⟨rest, isBehind⟩ := Option.ne_none_iff_exists'.1 isSome
      exact notSlash (atSlash isBehind).symm
    rw [List.cons_append, Pattern.sub_cons_of_not_behind notBehind, ih inRest, List.cons_append]

theorem sub_joined_of_behind
    (atSlash : ∀ {char text rest}, pattern.behind (char :: text) = some rest → char = '/')
    (noSlash : '/' ∉ next) (isBehind : pattern.behind (joined parts) = some (next ++ joined rest)) :
    pattern.sub ['/'] (joined parts) = '/' :: next ++ pattern.sub ['/'] (joined rest) := by
  rw [Pattern.sub_of_behind isBehind, sub_append_of_noSlash atSlash noSlash]
  rfl

theorem sub_joined_of_not_behind
    (atSlash : ∀ {char text rest}, pattern.behind (char :: text) = some rest → char = '/')
    (noSlash : '/' ∉ part)
    (notBehind : ∀ rest, pattern.behind (joined (part :: parts)) ≠ some rest) :
    pattern.sub ['/'] (joined (part :: parts)) =
      '/' :: part ++ pattern.sub ['/'] (joined parts) := by
  have isNone := Option.eq_none_iff_forall_ne_some.2 notBehind
  rw [joined_cons, List.cons_append] at isNone ⊢
  rw [Pattern.sub_cons_of_not_behind isNone, sub_append_of_noSlash atSlash noSlash]
  rfl

/-- A pattern for one component between slashes thins. -/
theorem sub_joined_eq_thin {dropped : Text} (noSlash' : '/' ∉ dropped)
    (behind_iff : ∀ {text rest}, pattern.behind text = some rest ↔
      text = '/' :: dropped ++ '/' :: rest) (noSlash : ∀ part ∈ parts, '/' ∉ part) :
    pattern.sub ['/'] (joined parts) = joined (thin dropped parts) := by
  have atSlash : ∀ {char text rest}, pattern.behind (char :: text) = some rest → char = '/' :=
    fun isBehind => (List.cons.inj (behind_iff.1 isBehind)).1
  have follows : ∀ {part parts rest}, '/' ∉ part →
      pattern.behind (joined (part :: parts)) = some rest →
      part = dropped ∧ ∃ next parts', parts = next :: parts' := by
    intro part parts rest inPart isBehind
    have same := (List.cons.inj (behind_iff.1 isBehind)).2
    obtain ⟨isDropped, next, parts', isCons, -⟩ := eq_of_append_joined inPart noSlash' same
    exact ⟨isDropped, next, parts', isCons⟩
  fun_induction thin dropped parts with
  | case1 next parts ih =>
    have inNext := noSlash next (by simp)
    have isBehind : pattern.behind (joined (dropped :: next :: parts)) =
        some (next ++ joined parts) := behind_iff.2 rfl
    rw [sub_joined_of_behind atSlash inNext isBehind,
      ih fun part isPart => noSlash part (by simp [isPart])]
    rfl
  | case2 part next parts notDropped ih =>
    have inPart := noSlash part List.mem_cons_self
    rw [sub_joined_of_not_behind atSlash inPart
        fun rest isBehind => notDropped (follows inPart isBehind).1, ih fun part isPart =>
        noSlash part (List.mem_cons_of_mem _ isPart)]
    rfl
  | case3 parts notLonger =>
    cases parts with
    | nil => rfl
    | cons part parts =>
      have inPart := noSlash part List.mem_cons_self
      have isLast : parts = [] := by
        by_contra isLonger
        obtain ⟨next, rest, rfl⟩ := List.exists_cons_of_ne_nil isLonger
        exact notLonger part next rest rfl
      subst isLast
      rw [sub_joined_of_not_behind atSlash inPart fun rest isBehind => by
        obtain ⟨-, next, parts', isCons⟩ := follows inPart isBehind
        nomatch isCons]
      rfl

theorem sub_joined_eq_cancel (noSlash : ∀ part ∈ parts, '/' ∉ part) :
    parentComponent.sub ['/'] (joined parts) = joined (cancel parts) := by
  have atSlash : ∀ {char text rest},
      parentComponent.behind (char :: text) = some rest → char = '/' := by
    intro char text rest isBehind
    obtain ⟨part, -, isText⟩ := parentComponent_behind_iff.1 isBehind
    exact (List.cons.inj isText).1
  have follows : ∀ {part parts rest}, '/' ∉ part → (∀ part ∈ parts, '/' ∉ part) →
      parentComponent.behind (joined (part :: parts)) = some rest →
      ∃ next parts', parts = ['.', '.'] :: next :: parts' := by
    intro part parts rest inPart inParts isBehind
    obtain ⟨part', inPart', isText⟩ := parentComponent_behind_iff.1 isBehind
    have same : part ++ joined parts = part' ++ '/' :: (['.', '.'] ++ '/' :: rest) := by
      simpa using isText
    obtain ⟨-, up, parts', rfl, isRest⟩ := eq_of_append_joined inPart inPart' same
    obtain ⟨rfl, next, parts', rfl, -⟩ := eq_of_append_joined (inParts up List.mem_cons_self)
        (by decide) isRest.symm
    exact ⟨next, parts', rfl⟩
  have passes : ∀ {part parts}, '/' ∉ part → (∀ part ∈ parts, '/' ∉ part) →
      (∀ next rest, parts ≠ ['.', '.'] :: next :: rest) →
      parentComponent.sub ['/'] (joined (part :: parts)) =
        '/' :: part ++ parentComponent.sub ['/'] (joined parts) := by
    intro part parts inPart inParts notUp
    refine sub_joined_of_not_behind atSlash inPart fun rest isBehind => ?_
    obtain ⟨next, parts', isUp⟩ := follows inPart inParts isBehind
    exact notUp next parts' isUp
  fun_induction cancel parts with
  | case1 part next parts ih =>
    have inPart := noSlash part List.mem_cons_self
    have inNext := noSlash next (by simp)
    have isBehind : parentComponent.behind (joined (part :: ['.', '.'] :: next :: parts)) =
          some (next ++ joined parts) := parentComponent_behind_iff.2 ⟨part, inPart, by simp⟩
    rw [sub_joined_of_behind atSlash inNext isBehind,
      ih fun part isPart => noSlash part (by simp [isPart])]
    rfl
  | case2 part up next parts notUp ih =>
    have rest : ∀ part ∈ up :: next :: parts, '/' ∉ part :=
      fun part isPart => noSlash part (List.mem_cons_of_mem _ isPart)
    rw [passes (noSlash part List.mem_cons_self) rest
        fun next rest isUp => notUp (List.cons.inj isUp).1, ih rest]
    rfl
  | case3 parts notLonger =>
    match parts, noSlash, notLonger with
    | [], _, _ => rfl
    | [part], noSlash, _ =>
      rw [passes (noSlash part List.mem_cons_self) (by simp) (by simp)]
      rfl
    | [part, up], noSlash, _ =>
      have inUp := noSlash up (by simp)
      rw [passes (noSlash part List.mem_cons_self) (by simpa using inUp) (by simp),
        passes inUp (by simp) (by simp)]
      rfl
    | part :: up :: next :: parts, _, notLonger => exact absurd rfl (notLonger part up next parts)

end

theorem substituted_joined {parts : List Text} (noSlash : ∀ part ∈ parts, '/' ∉ part) :
    substituted (joined parts) = joined (componentRound parts) := by
  have noSlash' : ∀ part ∈ thin [] parts, '/' ∉ part :=
    fun part isPart => noSlash part ((thin_sublist _ _).subset isPart)
  have noSlash'' : ∀ part ∈ thinned parts, '/' ∉ part :=
    fun part isPart => noSlash part ((thinned_sublist _).subset isPart)
  rw [substituted, collapse, sub_joined_eq_thin List.not_mem_nil doubleSlash_behind_iff noSlash,
    sub_joined_eq_thin (by decide) dotComponent_behind_iff noSlash']
  exact sub_joined_eq_cancel noSlash''

/-! ## What the rounds do to the place -/

theorem foldl_thin {dropped : Text} (stays : ∀ place, enter place dropped = place)
    (parts place : List Text) :
    (thin dropped parts).foldl enter place = parts.foldl enter place := by
  fun_induction thin dropped parts generalizing place with
  | case1 next parts ih => rw [List.foldl_cons, List.foldl_cons, List.foldl_cons, stays, ih]
  | case2 part next parts notDropped ih => rw [List.foldl_cons, List.foldl_cons, ih]
  | case3 parts => rfl

theorem foldl_thinned (parts place : List Text) :
    (thinned parts).foldl enter place = parts.foldl enter place := by
  rw [thinned, foldl_thin (fun place => rfl), foldl_thin (fun place => rfl)]

/-- What is cancelled before a `..` is a name, or the path leads through the
root later, where a missing `..` does not matter. -/
def Spares : List Text → List Text → Prop
  | place, part :: up :: next :: parts =>
      if up = ['.', '.'] then
        (IsName part ∨ ReachesRoot place (next :: parts)) ∧ Spares (enter place next) parts
      else Spares (enter place part) (up :: next :: parts)
  | _, _ => True

/-- A component with the `..` behind it leads back, or further to the root. -/
theorem behind_enter_up (place : List Text) (part : Text) :
    enter (enter place part) ['.', '.'] <+: place := by
  have isUp : ∀ place, enter place ['.', '.'] = place.dropLast := fun place => rfl
  rw [isUp, enter]
  split
  · exact List.dropLast_prefix place
  · split
    · exact (List.dropLast_prefix _).trans (List.dropLast_prefix place)
    · rw [List.dropLast_concat]

section

variable {parts place : List Text} {part : Text}

theorem enter_up_of_isName (isName : IsName part) (place : List Text) :
    enter (enter place part) ['.', '.'] = place := by
  rw [enter_of_isName isName]
  exact List.dropLast_concat

/-- Without a name, a `..` leads up from every place but the root. -/
theorem length_enter_up_lt (noSlash : '/' ∉ part) (notName : ¬ IsName part) (notRoot : place ≠ []) :
    (enter (enter place part) ['.', '.']).length < place.length := by
  have isPositive := List.length_pos_iff.2 notRoot
  have isUp : ∀ place, enter place ['.', '.'] = place.dropLast := fun place => rfl
  rw [isUp, List.length_dropLast, enter]
  split
  case isTrue => omega
  case isFalse notStaying =>
    split
    case isTrue =>
      rw [List.length_dropLast]
      omega
    case isFalse notUp =>
      obtain ⟨notEmpty, notDot⟩ := not_or.1 notStaying
      exact absurd ⟨notEmpty, notDot, notUp, noSlash⟩ notName

theorem length_foldl_cancel_le (parts place : List Text) : (parts.foldl enter place).length ≤
      ((cancel parts).foldl enter place).length := by
  fun_induction cancel parts generalizing place with
  | case1 part next parts ih =>
    have behind := Behind.of_front (behind_enter_up place part)
    exact (behind.foldl_enter (next :: parts)).length_le.trans (ih (enter place next))
  | case2 part up next parts notUp ih => exact ih (enter place part)
  | case3 parts => exact Nat.le_refl _

theorem foldl_cancel_of_spares (spares : Spares place parts) :
    (cancel parts).foldl enter place = parts.foldl enter place := by
  fun_induction cancel parts generalizing place with
  | case1 part next parts ih =>
    obtain ⟨isSpared, rest⟩ := spares
    have behind := Behind.of_front (behind_enter_up place part)
    have same : (part :: ['.', '.'] :: next :: parts).foldl enter place =
        (next :: parts).foldl enter place := by
      rw [List.foldl_cons, List.foldl_cons]
      rcases isSpared with isName | reaches
      · rw [enter_up_of_isName isName]
      · exact behind.foldl_eq_of_reachesRoot reaches
    rw [same, List.foldl_cons, List.foldl_cons]
    exact ih rest
  | case2 part up next parts notUp ih =>
    rw [Spares, if_neg notUp] at spares
    exact ih spares
  | case3 parts => rfl

theorem spares_of_length (noSlash : ∀ part ∈ parts, '/' ∉ part)
    (sameLength : ((cancel parts).foldl enter place).length ≤ (parts.foldl enter place).length) :
    Spares place parts := by
  fun_induction cancel parts generalizing place with
  | case1 part next parts ih =>
    have behind := Behind.of_front (behind_enter_up place part)
    have before := (behind.foldl_enter (next :: parts)).length_le
    have after := length_foldl_cancel_le parts (enter place next)
    constructor
    · by_cases isName : IsName part
      · exact Or.inl isName
      · right
        by_cases atRoot : place = []
        · exact ⟨[], List.nil_prefix, atRoot⟩
        · exact behind.reachesRoot (length_enter_up_lt (noSlash part List.mem_cons_self) isName
              atRoot) (after.trans sameLength)
    · exact ih (fun part isPart => noSlash part (by simp [isPart])) (sameLength.trans before)
  | case2 part up next parts notUp ih =>
    rw [Spares, if_neg notUp]
    exact ih (fun part isPart => noSlash part (List.mem_cons_of_mem _ isPart)) sameLength
  | case3 parts notLonger =>
    unfold Spares
    split
    case h_1 part up next parts => exact absurd rfl (notLonger _ _ _ _)
    case h_2 => trivial

/-- A round keeps the place exactly if it spares what it must not cancel. -/
theorem spares_thinned_iff (noSlash : ∀ part ∈ parts, '/' ∉ part) : Spares [] (thinned parts) ↔
      resolve (componentRound parts) = resolve parts := by
  have inThinned : ∀ part ∈ thinned parts, '/' ∉ part :=
    fun part isPart => noSlash part ((thinned_sublist _).subset isPart)
  rw [resolve, resolve, ← foldl_thinned parts]
  constructor
  · exact foldl_cancel_of_spares
  · intro same
    exact spares_of_length inThinned (congrArg List.length same).le

end

/-! ## Paths that are normalised -/

/-- The components are names, or a round spares what it must not cancel and
leads to components of this kind. -/
inductive Settles : List Text → Prop
  | root : Settles [[]]
  | names {parts : List Text} (someName : parts ≠ [])
      (isName : ∀ part ∈ parts, IsName part) : Settles parts
  | round {parts : List Text} (spares : Spares [] (thinned parts))
      (settles : Settles (componentRound parts)) : Settles parts

section

variable {parts : List Text}

theorem thin_of_not_mem {dropped : Text} (notMember : dropped ∉ parts) :
    thin dropped parts = parts := by
  fun_induction thin dropped parts with
  | case1 => exact absurd List.mem_cons_self notMember
  | case2 part next parts notDropped ih =>
    rw [ih fun isMember => notMember (List.mem_cons_of_mem _ isMember)]
  | case3 => rfl

theorem cancel_of_not_mem (notMember : ['.', '.'] ∉ parts) : cancel parts = parts := by
  fun_induction cancel parts with
  | case1 => exact absurd (by simp) notMember
  | case2 part up next parts notUp ih =>
    rw [ih fun isMember => notMember (List.mem_cons_of_mem _ isMember)]
  | case3 => rfl

theorem componentRound_of_isName (isName : ∀ part ∈ parts, IsName part) :
    componentRound parts = parts := by
  have noEmpty : [] ∉ parts := fun isMember => (isName _ isMember).1 rfl
  have noDot : ['.'] ∉ parts := fun isMember => (isName _ isMember).2.1 rfl
  have noUp : ['.', '.'] ∉ parts := fun isMember => (isName _ isMember).2.2.1 rfl
  rw [componentRound, thinned, thin_of_not_mem noEmpty, thin_of_not_mem noDot,
    cancel_of_not_mem noUp]

section

variable (noSlash : ∀ part ∈ parts, '/' ∉ part)
include noSlash

theorem eq_of_joined_eq_render {place : List Text} (isName : ∀ part ∈ place, IsName part)
    (same : joined parts = render place) :
    (parts = [[]] ∧ place = []) ∨ (parts = place ∧ place ≠ []) := by
  by_cases atRoot : place = []
  · subst atRoot
    have isRoot : joined parts = joined [[]] := same
    exact Or.inl ⟨(joined_inj noSlash (by simp)).1 isRoot, rfl⟩
  · rw [render_of_ne_nil atRoot] at same
    have inPlace : ∀ part ∈ place, '/' ∉ part := fun part isPart => (isName part isPart).2.2.2
    exact Or.inr ⟨(joined_inj noSlash inPlace).1 same, atRoot⟩

theorem noSlash_componentRound : ∀ part ∈ componentRound parts, '/' ∉ part :=
  fun part isPart => noSlash part ((componentRound_sublist _).subset isPart)

theorem normalised_succ (rounds : ℕ) : normalised (rounds + 1) (joined parts) =
      if componentRound parts = parts then some (joined parts)
      else normalised rounds (joined (componentRound parts)) := by
  rw [normalised, substituted_joined noSlash]
  exact if_congr (joined_inj (noSlash_componentRound noSlash) noSlash) rfl rfl

/-- Every round but the last takes a component away. -/
theorem exists_normalised : ∃ rounds kept, normalised rounds (joined parts) = some (joined kept) ∧
    kept.Sublist parts ∧ substituted (joined kept) = joined kept := by
  induction isLength : parts.length using Nat.strongRecOn generalizing parts with
  | _ length ih =>
    subst isLength
    by_cases same : componentRound parts = parts
    · exact ⟨1, parts, by rw [normalised_succ noSlash, if_pos same], .refl parts,
        by rw [substituted_joined noSlash, same]⟩
    · have isSublist := componentRound_sublist parts
      have isShorter : (componentRound parts).length < parts.length :=
        Nat.lt_of_le_of_ne isSublist.length_le fun sameLength =>
          same (isSublist.eq_of_length sameLength)
      obtain ⟨rounds, kept, isResult, inRound, fixed⟩ :=
        ih _ isShorter (noSlash_componentRound noSlash) rfl
      exact ⟨rounds + 1, kept, by rw [normalised_succ noSlash, if_neg same, isResult],
        inRound.trans isSublist, fixed⟩

end

theorem length_resolve_le (parts : List Text) :
    (resolve parts).length ≤ (resolve (componentRound parts)).length := by
  rw [resolve, ← foldl_thinned parts]
  exact length_foldl_cancel_le (thinned parts) []

/-- The result is not nearer to the root than the path. -/
theorem length_resolve_le_of_normalised {place : List Text} {rounds : ℕ}
    (noSlash : ∀ part ∈ parts, '/' ∉ part) (isName : ∀ part ∈ place, IsName part)
    (isResult : normalised rounds (joined parts) = some (render place)) :
    (resolve parts).length ≤ place.length := by
  induction rounds generalizing parts with
  | zero => cases isResult
  | succ rounds ih =>
    rw [normalised_succ noSlash] at isResult
    split at isResult
    · rcases eq_of_joined_eq_render noSlash isName
        (Option.some.inj isResult) with ⟨rfl, rfl⟩ | ⟨rfl, -⟩
      · exact Nat.le_refl _
      · rw [resolve_of_isName isName]
    · exact (length_resolve_le parts).trans (ih (noSlash_componentRound noSlash) isResult)

theorem normalised_of_settles (settles : Settles parts) (noSlash : ∀ part ∈ parts, '/' ∉ part) :
    ∃ rounds, normalised rounds (joined parts) = some (render (resolve parts)) := by
  induction settles with
  | root => exact ⟨1, rfl⟩
  | @names parts someName isName =>
    refine ⟨1, ?_⟩
    rw [normalised_succ noSlash, if_pos (componentRound_of_isName isName),
      resolve_of_isName isName, render_of_ne_nil someName]
  | @round parts spares settles ih =>
    obtain ⟨rounds, isResult⟩ := ih (noSlash_componentRound noSlash)
    rw [(spares_thinned_iff noSlash).1 spares] at isResult
    by_cases same : componentRound parts = parts
    · rw [same] at isResult
      exact ⟨rounds, isResult⟩
    · exact ⟨rounds + 1, by rw [normalised_succ noSlash, if_neg same, isResult]⟩

theorem settles_of_normalised {rounds : ℕ} (noSlash : ∀ part ∈ parts, '/' ∉ part)
    (isResult : normalised rounds (joined parts) = some (render (resolve parts))) :
    Settles parts := by
  induction rounds generalizing parts with
  | zero => cases isResult
  | succ rounds ih =>
    have isName := isName_of_mem_resolve noSlash
    rw [normalised_succ noSlash] at isResult
    split at isResult
    · rcases eq_of_joined_eq_render noSlash isName
        (Option.some.inj isResult) with ⟨rfl, -⟩ | ⟨isPlace, someName⟩
      · exact Settles.root
      · rw [← isPlace] at isName someName
        exact Settles.names someName isName
    · have inRound := noSlash_componentRound noSlash
      have noFurther := length_resolve_le_of_normalised inRound isName isResult
      have spares : Spares [] (thinned parts) := by
        apply spares_of_length
        · exact fun part isPart => noSlash part ((thinned_sublist _).subset isPart)
        · rw [foldl_thinned]
          exact noFurther
      refine Settles.round spares (ih inRound ?_)
      rw [(spares_thinned_iff noSlash).1 spares]
      exact isResult

end

/-! ## Lexical resolution -/

def lexicalPlace (cwd : NormalPath) (path : Text) : List Text :=
  (path.splitOn '/').foldl enter (if path.head? = some '/' then [] else cwd.parts)

/-- The call returns the path of that place, from which the parent and the
name of the entry can be read. -/
def ResolvesLexically (cwd : NormalPath) (path : Text) : Prop :=
  ∃ rounds result, originalPath cwd.text path rounds = some result ∧
    result = render (lexicalPlace cwd path) ∧
    dirname result = render (lexicalPlace cwd path).dropLast ∧
    LexicalPath.basename result = (lexicalPlace cwd path).getLast?.getD []

def fullComponents (cwd path : Text) : List Text :=
  (fullPath cwd path).tail.splitOn '/'

section

variable {cwd : NormalPath} {path : Text}

theorem joined_fullComponents : joined (fullComponents cwd.text path) = fullPath cwd.text path := by
  have absolute : (fullPath cwd.text path).head? = some '/' := by
    rw [fullPath]
    split
    case isTrue absolute => exact absolute
    case isFalse =>
      obtain ⟨rest, isText⟩ := cwd.exists_text_eq
      rw [isText]
      rfl
  obtain ⟨rest, isPath⟩ := List.head?_eq_some_iff.1 absolute
  rw [fullComponents, isPath]
  exact joined_splitOn rest

theorem foldl_enter_cwd (cwd : NormalPath) :
    (cwd.text.tail.splitOn '/').foldl enter [] = cwd.parts := by
  obtain ⟨parts, isName⟩ := cwd
  cases parts with
  | nil => rfl
  | cons part parts =>
    have noSlash : ∀ member ∈ part :: parts, '/' ∉ member :=
      fun member isMember => (isName member isMember).2.2.2
    have isSplit : ((NormalPath.mk (part :: parts) isName).text.tail).splitOn
        '/' = part :: parts := splitOn_append_joined noSlash
    rw [isSplit]
    exact resolve_of_isName isName

theorem resolve_fullComponents :
    resolve (fullComponents cwd.text path) = lexicalPlace cwd path := by
  rw [resolve, fullComponents, fullPath, lexicalPlace]
  split
  case isTrue absolute =>
    obtain ⟨rest, rfl⟩ := List.head?_eq_some_iff.1 absolute
    rfl
  case isFalse =>
    obtain ⟨rest, isText⟩ := cwd.exists_text_eq
    have isCwd := foldl_enter_cwd cwd
    rw [isText, List.tail_cons] at isCwd
    rw [isText, List.cons_append, List.tail_cons,
      List.splitOn_append_cons_self, List.foldl_append, isCwd]

/-- The loop is left, at components of the path that it no longer changes. -/
theorem originalPath_terminates (cwd : NormalPath) (path : Text) : ∃ rounds kept,
    originalPath cwd.text path rounds = some (joined kept) ∧
      kept.Sublist (fullComponents cwd.text path) ∧ substituted (joined kept) = joined kept := by
  have noSlash : ∀ part ∈ fullComponents cwd.text path, '/' ∉ part := noSlash_of_mem_splitOn
  obtain ⟨rounds, kept, isResult, fixed⟩ := exists_normalised noSlash
  rw [joined_fullComponents] at isResult
  exact ⟨rounds, kept, isResult, fixed⟩

theorem not_resolvesLexically {rounds : ℕ} {result : Text}
    (isResult : originalPath cwd.text path rounds = some result)
    (isOther : result ≠ render (lexicalPlace cwd path)) : ¬ ResolvesLexically cwd path := by
  rintro ⟨rounds', result', isResult', rfl, -, -⟩
  exact isOther (normalised_unique isResult isResult')

end

end Alice
