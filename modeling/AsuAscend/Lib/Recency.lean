/-
The most recently used elements of a history.

`MostRecent n history x`: fewer than `n` distinct elements come after the last `x`. The
list `history.dedup` keeps the last occurrence of each element, so its last `n` elements
are the most recent ones (`mostRecent_iff_mem_drop`), and one more use moves an
element to its end (`dedup_append_singleton`).
-/
import Mathlib.Data.List.Dedup
import Mathlib.Data.Finset.Card
import Mathlib.Tactic.Common

set_option autoImplicit false

namespace Recency

variable {α : Type} [DecidableEq α]

/-- Fewer than `n` distinct elements come after the last `x`. -/
def MostRecent (n : ℕ) (history : List α) (x : α) : Prop :=
  ∃ before later, history = before ++ x :: later ∧ x ∉ later ∧ later.toFinset.card < n

/-- One use more makes its element the most recent one. -/
theorem dedup_append_singleton (history : List α) (x : α) :
    (history ++ [x]).dedup = history.dedup.erase x ++ [x] := by
  induction history with
  | nil => rfl
  | cons y ys ih =>
      rw [List.cons_append]
      by_cases hy : y ∈ ys
      · rw [List.dedup_cons_of_mem (List.mem_append_left _ hy), ih, List.dedup_cons_of_mem hy]
      · by_cases hyx : y = x
        · subst hyx
          rw [List.dedup_cons_of_mem (by simp), ih, List.dedup_cons_of_notMem hy,
            List.erase_cons_head, List.erase_of_not_mem (by rwa [List.mem_dedup])]
        · rw [List.dedup_cons_of_notMem (by simp [hy, hyx]), ih, List.dedup_cons_of_notMem hy,
            List.erase_cons_tail (by simpa using hyx), List.cons_append]

/-- What comes before does not change which elements of the end are distinct. -/
theorem dedup_append_suffix (before history : List α) :
    ∃ front, (before ++ history).dedup = front ++ history.dedup := by
  induction before with
  | nil => exact ⟨[], rfl⟩
  | cons y ys ih =>
      obtain ⟨front, hfront⟩ := ih
      rw [List.cons_append]
      by_cases hy : y ∈ ys ++ history
      · rw [List.dedup_cons_of_mem hy]
        exact ⟨front, hfront⟩
      · rw [List.dedup_cons_of_notMem hy, hfront]
        exact ⟨y :: front, rfl⟩

omit [DecidableEq α] in
/-- In a list without duplicates an element is among the last `n` if fewer than `n` follow it. -/
theorem mem_drop_iff {front rest : List α} {x : α} (h : (front ++ x :: rest).Nodup) (n : ℕ) :
    x ∈ (front ++ x :: rest).drop ((front ++ x :: rest).length - n) ↔ rest.length < n := by
  have hx : x ∉ rest := (List.nodup_cons.mp (List.nodup_append.mp h).2.1).1
  have hlen : (front ++ x :: rest).length = front.length + 1 + rest.length := by
    rw [List.length_append, List.length_cons]
    omega
  constructor
  · intro hmem
    by_contra hge
    have hdrop : (front ++ x :: rest).drop ((front ++ x :: rest).length - n) =
        rest.drop (rest.length - n) := by
      have hsplit : (front ++ x :: rest).length - n =
          (front ++ [x]).length + (rest.length - n) := by
        rw [hlen, List.length_append, List.length_singleton]
        omega
      rw [hsplit, List.append_cons front x rest, List.drop_length_add_append]
    rw [hdrop] at hmem
    exact hx (List.mem_of_mem_drop hmem)
  · intro hlt
    rw [List.drop_append_of_le_length (by rw [hlen]; omega)]
    exact List.mem_append_right _ List.mem_cons_self

/-- The `n` most recent elements are the last `n` of the history without repetitions. -/
theorem mostRecent_iff_mem_drop {n : ℕ} {history : List α} {x : α} :
    MostRecent n history x ↔ x ∈ history.dedup.drop (history.dedup.length - n) := by
  -- at the last `x` the list splits, and so do its distinct elements
  have hsplit : ∀ before later, history = before ++ x :: later → x ∉ later →
      (x ∈ history.dedup.drop (history.dedup.length - n) ↔ later.toFinset.card < n) := by
    rintro before later rfl hx
    obtain ⟨front, hfront⟩ := dedup_append_suffix before (x :: later)
    rw [List.dedup_cons_of_notMem hx] at hfront
    rw [hfront, mem_drop_iff (hfront ▸ List.nodup_dedup _), List.card_toFinset]
  constructor
  · rintro ⟨before, later, hhistory, hx, hcard⟩
    exact (hsplit before later hhistory hx).mpr hcard
  · intro hmem
    have hx : x ∈ history := List.mem_dedup.mp (List.mem_of_mem_drop hmem)
    obtain ⟨before, later, hhistory, hlater⟩ := List.eq_append_cons_of_mem (List.mem_reverse.mpr hx)
    have hhistory : history = later.reverse ++ x :: before.reverse := by
      rw [← List.reverse_inj, hhistory]
      simp
    have hnotin : x ∉ before.reverse := by rwa [List.mem_reverse]
    exact ⟨_, _, hhistory, hnotin, (hsplit _ _ hhistory hnotin).mp hmem⟩

end Recency
