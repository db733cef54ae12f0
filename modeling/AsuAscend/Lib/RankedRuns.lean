/-
Runs whose steps all lower a rank.

`Inv n s` is an invariant of `s` with `n` steps at most left. If every step keeps it
and lowers `n`, it holds in every state that a run reaches, and no run is infinite.
A system of parts that take turns has such an invariant if each of them does.

## Both at once

Proofs that an invariant is kept and that a run ends tend to split the same cases. With the number
of steps left as an argument of the invariant they are one proof: a step leads from `Inv n` to
`Inv n'` with a smaller `n'`, whatever that is. For parts the ranks add up (`AllParts`), as a step
is one of one part and leaves the others' ranks as they were.
-/
import Mathlib.Algebra.Order.BigOperators.Group.Finset
import Mathlib.Logic.Relation

set_option autoImplicit false

namespace RankedRuns

variable {σ : Type} {Step : σ → σ → Prop} {Inv : ℕ → σ → Prop}

/-- Every step keeps the invariant, with fewer steps left. -/
def Lowers (Step : σ → σ → Prop) (Inv : ℕ → σ → Prop) : Prop :=
  ∀ n s t, Inv n s → Step s t → ∃ n' < n, Inv n' t

/-- The invariant holds of every state that is reached, with a rank that has only gone down. -/
theorem Lowers.reaches (h : Lowers Step Inv) {n : ℕ} {s t : σ} (hs : Inv n s)
    (hst : Relation.ReflTransGen Step s t) : ∃ n', Inv n' t := by
  induction hst with
  | refl => exact ⟨n, hs⟩
  | tail _ hstep ih =>
      obtain ⟨n', hn'⟩ := ih
      obtain ⟨n'', _, hn''⟩ := h n' _ _ hn' hstep
      exact ⟨n'', hn''⟩

/-- No run from a state with the invariant goes on forever. -/
theorem Lowers.acc (h : Lowers Step Inv) {n : ℕ} {s : σ} (hs : Inv n s) :
    Acc (fun t s => Step s t) s := by
  induction n using Nat.strong_induction_on generalizing s with
  | _ n ih =>
      apply Acc.intro
      intro t ht
      obtain ⟨n', hlt, hn'⟩ := h n s t hs ht
      exact ih n' hlt hn'

/-! ## Parts -/

section Parts

variable {ι : Type} [Fintype ι] {Part : ι → ℕ → σ → Prop}

/-- Every step is one of some part, and does not concern the others. -/
def EachLowers (Step : σ → σ → Prop) (Part : ι → ℕ → σ → Prop) : Prop :=
  ∀ (left : ι → ℕ) s t, (∀ i, Part i (left i) s) → Step s t →
    ∃ i, (∃ n < left i, Part i n t) ∧ ∀ j, j ≠ i → Part j (left j) t

/-- All parts together have `n` steps at most left. -/
def AllParts (Part : ι → ℕ → σ → Prop) (n : ℕ) (s : σ) : Prop :=
  ∃ left : ι → ℕ, n = ∑ i, left i ∧ ∀ i, Part i (left i) s

/-- Where each part lowers its own rank the whole lowers the sum. -/
theorem EachLowers.lowers (h : EachLowers Step Part) : Lowers Step (AllParts Part) := by
  classical
  rintro _ s t ⟨left, rfl, hparts⟩ hstep
  obtain ⟨i, ⟨n, hlt, hn⟩, hothers⟩ := h left s t hparts hstep
  have hle : ∀ j ∈ Finset.univ, Function.update left i n j ≤ left j := by
    intro j _
    by_cases hj : j = i
    · rw [hj, Function.update_self]
      exact hlt.le
    · rw [Function.update_of_ne hj]
  have hless : Function.update left i n i < left i := by
    rw [Function.update_self]
    exact hlt
  refine ⟨_, Finset.sum_lt_sum hle ⟨i, Finset.mem_univ i, hless⟩, _, rfl, fun j => ?_⟩
  by_cases hj : j = i
  · rw [hj, Function.update_self]
    exact hn
  · rw [Function.update_of_ne hj]
    exact hothers j hj

end Parts

end RankedRuns
