import Mathlib.Data.List.Basic

/-! # Computations that may fail

Inversion rules for `Except`. -/

namespace Checked

variable {ε : Type} {α β : Type}

theorem bind_eq_ok_iff {x : Except ε α} {f : α → Except ε β} {b : β} :
    (x >>= f) = .ok b ↔ ∃ a, x = .ok a ∧ f a = .ok b := by
  cases x with
  | error error => simp [bind, Except.bind]
  | ok a => simp [bind, Except.bind]

theorem map_eq_ok_iff {x : Except ε α} {f : α → β} {b : β} :
    x.map f = .ok b ↔ ∃ a, x = .ok a ∧ f a = b := by
  cases x with
  | error error => simp [Except.map]
  | ok a => simp [Except.map]

@[simp]
theorem pure_eq_ok_iff {a b : α} : (pure a : Except ε α) = .ok b ↔ a = b := by
  simp [pure, Except.pure]

@[simp]
theorem throw_eq_ok_iff {e : ε} {a : α} : (throw e : Except ε α) = .ok a ↔ False := by
  simp [throw, throwThe, MonadExceptOf.throw]

@[simp]
theorem ok_bind (a : α) (f : α → Except ε β) : (Except.ok a >>= f) = f a :=
  rfl

@[simp]
theorem error_bind (e : ε) (f : α → Except ε β) : (Except.error e >>= f) = .error e :=
  rfl

theorem map_bind_eq {γ : Type} (x : Except ε α) (f : α → β) (g : β → Except ε γ) :
    (x.map f >>= g) = (x >>= fun a => g (f a)) := by
  cases x <;> rfl

theorem bind_map_eq {γ : Type} (x : Except ε α) (f : α → Except ε β) (g : β → γ) :
    (x >>= f).map g = (x >>= fun a => (f a).map g) := by
  cases x <;> rfl

theorem mapM_ok_lookup {f : α → Except ε β} {list : List α} {result : List β}
    (mapped : list.mapM f = .ok result) : result.length = list.length ∧
      ∀ (i : ℕ) x, list[i]? = some x → ∃ y, f x = .ok y ∧ result[i]? = some y := by
  induction list generalizing result with
  | nil =>
    rw [List.mapM_nil, pure_eq_ok_iff] at mapped
    subst mapped
    simp
  | cons first rest ih =>
    rw [List.mapM_cons] at mapped
    obtain ⟨y, head, mapped⟩ := bind_eq_ok_iff.1 mapped
    obtain ⟨ys, tail, mapped⟩ := bind_eq_ok_iff.1 mapped
    rw [pure_eq_ok_iff] at mapped
    subst mapped
    obtain ⟨sameLength, lookups⟩ := ih tail
    refine ⟨by simp [sameLength], ?_⟩
    intro i x lookup
    cases i with
    | zero =>
      simp only [List.getElem?_cons_zero, Option.some.injEq] at lookup
      subst lookup
      exact ⟨y, head, rfl⟩
    | succ i => exact lookups i x lookup

end Checked
