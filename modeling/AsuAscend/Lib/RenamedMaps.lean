/-
A partial map kept under other keys.

`Represents f V m p` says that `p` holds under `f a` what `m` holds under `a`, for the
keys `a` of `V`, and holds nothing else. Where `f` is injective on `V` the operations
of the two maps keep this up.
-/
import Mathlib.Data.Set.Card

set_option autoImplicit false

namespace RenamedMaps

variable {α β γ : Type} {f : α → β} {V : Set α} {m : α → Option γ} {p : β → Option γ}

structure Represents (f : α → β) (V : Set α) (m : α → Option γ) (p : β → Option γ) : Prop where
  get : ∀ a ∈ V, p (f a) = m a
  onto : ∀ b, p b ≠ none → ∃ a ∈ V, f a = b
  only : ∀ a, m a ≠ none → a ∈ V

namespace Represents

theorem empty : Represents f V (fun _ => (none : Option γ)) (fun _ => none) where
  get _ _ := rfl
  onto _ h := absurd rfl h
  only _ h := absurd rfl h

/-- A change of an entry, and of its image. -/
theorem update [DecidableEq α] [DecidableEq β] (h : Represents f V m p) (hf : Set.InjOn f V) {a : α}
    (ha : a ∈ V) (value : Option γ) :
    Represents f V (Function.update m a value) (Function.update p (f a) value) := by
  constructor
  · intro a' ha'
    by_cases heq : a' = a
    · rw [heq, Function.update_self, Function.update_self]
    · rw [Function.update_of_ne heq, Function.update_of_ne, h.get a' ha']
      intro hfa
      exact heq (hf ha' ha hfa)
  · intro b hb
    by_cases heq : b = f a
    · exact ⟨a, ha, heq.symm⟩
    · rw [Function.update_of_ne heq] at hb
      exact h.onto b hb
  · intro a' ha'
    by_cases heq : a' = a
    · rw [heq]
      exact ha
    · rw [Function.update_of_ne heq] at ha'
      exact h.only a' ha'

/-- Keys may be dropped by a predicate that is the same on both sides. -/
theorem erase (h : Represents f V m p) {P : α → Prop} {Q : β → Prop} [DecidablePred P]
    [DecidablePred Q] (hPQ : ∀ a ∈ V, Q (f a) ↔ P a) :
    Represents f V (fun a => if P a then none else m a) (fun b => if Q b then none else p b) := by
  constructor
  · intro a ha
    by_cases hP : P a
    · rw [if_pos hP, if_pos ((hPQ a ha).mpr hP)]
    · rw [if_neg hP, if_neg (mt (hPQ a ha).mp hP), h.get a ha]
  · intro b hb
    by_cases hQ : Q b
    · rw [if_pos hQ] at hb
      exact absurd rfl hb
    · rw [if_neg hQ] at hb
      exact h.onto b hb
  · intro a ha
    by_cases hP : P a
    · rw [if_pos hP] at ha
      exact absurd rfl ha
    · rw [if_neg hP] at ha
      exact h.only a ha

/-- What is stored is the image of what should be. -/
theorem stored_iff (h : Represents f V m p) {b : β} : p b ≠ none ↔ ∃ a, m a ≠ none ∧ f a = b := by
  constructor
  · intro hb
    obtain ⟨a, ha, rfl⟩ := h.onto b hb
    exact ⟨a, h.get a ha ▸ hb, rfl⟩
  · rintro ⟨a, ha, rfl⟩
    rw [h.get a (h.only a ha)]
    exact ha

end Represents

end RenamedMaps
