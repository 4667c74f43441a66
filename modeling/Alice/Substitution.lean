import Mathlib.Data.List.Basic

/-! # Substitution in a text

Matches are replaced from left to right; they do not overlap, and a
replacement is not searched again. -/

namespace Substitution

/-- What a pattern leaves of a text behind a match at its front. -/
structure Pattern where
  behind : List Char → Option (List Char)
  shorter : ∀ {text rest}, behind text = some rest → rest.length < text.length

namespace Pattern

variable (pattern : Pattern) (replacement : List Char)

def subWith : ℕ → List Char → List Char
  | 0, text => text
  | _ + 1, [] => []
  | fuel + 1, char :: text =>
      match pattern.behind (char :: text) with
      | some rest => replacement ++ subWith fuel rest
      | none => char :: subWith fuel text

def sub (text : List Char) : List Char :=
  pattern.subWith replacement text.length text

variable {pattern replacement}

variable {text : List Char}

theorem subWith_eq_sub {fuel : ℕ} (enough : text.length ≤ fuel) :
    pattern.subWith replacement fuel text = pattern.sub replacement text := by
  suffices same : ∀ fuel fuel' : ℕ, text.length ≤ fuel → text.length ≤ fuel' →
      pattern.subWith replacement fuel text = pattern.subWith replacement fuel' text by
    exact same fuel text.length enough (Nat.le_refl _)
  clear enough
  intro fuel
  induction fuel generalizing text with
  | zero =>
    intro fuel' noText _
    obtain rfl := List.length_eq_zero_iff.1 (Nat.le_zero.1 noText)
    cases fuel' <;> rfl
  | succ fuel ih =>
    intro fuel' enough enough'
    cases text with
    | nil => cases fuel' <;> rfl
    | cons char text =>
      obtain ⟨fuel', rfl⟩ : ∃ before, fuel' = before + 1 :=
        ⟨fuel' - 1, by rw [List.length_cons] at enough'; omega⟩
      rw [List.length_cons] at enough enough'
      rw [subWith, subWith]
      split
      case h_1 rest isBehind =>
        have isShorter := pattern.shorter isBehind
        rw [List.length_cons] at isShorter
        rw [ih fuel' (by omega) (by omega)]
      case h_2 => rw [ih fuel' (by omega) (by omega)]

theorem behind_nil : pattern.behind [] = none := by
  cases isBehind : pattern.behind [] with
  | none => rfl
  | some rest => exact absurd (pattern.shorter isBehind) (Nat.not_lt_zero _)

theorem sub_of_behind {rest : List Char} (isBehind : pattern.behind text = some rest) :
    pattern.sub replacement text = replacement ++ pattern.sub replacement rest := by
  cases text with
  | nil =>
    rw [behind_nil] at isBehind
    cases isBehind
  | cons char text =>
    have isShorter := pattern.shorter isBehind
    rw [sub, List.length_cons, subWith, isBehind, ← subWith_eq_sub (Nat.le_of_lt_succ isShorter)]

theorem sub_cons_of_not_behind {char : Char} (notBehind : pattern.behind (char :: text) = none) :
    pattern.sub replacement (char :: text) = char :: pattern.sub replacement text := by
  rw [sub, List.length_cons, subWith, notBehind, ← sub]

/-- Induction along the search. -/
theorem scan_induction (pattern : Pattern) {motive : List Char → Prop} (nil : motive [])
    (found : ∀ text rest, pattern.behind text = some rest → motive rest → motive text)
    (passed : ∀ char text, pattern.behind (char :: text) = none →
      motive text → motive (char :: text)) (text : List Char) : motive text := by
  induction isLength : text.length using Nat.strongRecOn generalizing text with
  | _ length ih =>
    subst isLength
    cases isBehind : pattern.behind text with
    | some rest => exact found text rest isBehind (ih _ (pattern.shorter isBehind) rest rfl)
    | none =>
      cases text with
      | nil => exact nil
      | cons char text => exact passed char text isBehind (ih _ (Nat.lt_succ_self _) text rfl)

end Pattern

end Substitution
