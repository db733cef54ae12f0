/-
The order in which a wrapping index visits the cells of an array.

`next` is `++i; if (i == n) i = 0;`. From `start` it visits `order n start len` in
`len` turns; the first `n` of them visit every cell once.
-/
import Mathlib.Data.List.Nodup
import Mathlib.Data.List.Perm.Subperm
import Mathlib.Data.List.Range
import Mathlib.Data.Nat.ModEq

set_option autoImplicit false

namespace CircularOrder

/-- Increment and wrap. -/
def next (n i : ℕ) : ℕ := if i + 1 = n then 0 else i + 1

/-- The first `len` cells visited from `start`. -/
def order (n start len : ℕ) : List ℕ := (List.range len).map fun k => (start + k) % n

variable {n start len : ℕ}

theorem next_lt {i : ℕ} (h : i < n) : next n i < n := by
  unfold next
  split_ifs <;> omega

theorem next_mod (hn : 0 < n) (k : ℕ) : next n (k % n) = (k + 1) % n := by
  have hlt := Nat.mod_lt k hn
  rw [← Nat.mod_add_mod]
  generalize k % n = r at hlt ⊢
  unfold next
  split_ifs with h
  · rw [h, Nat.mod_self]
  · rw [Nat.mod_eq_of_lt (by omega)]

theorem order_length (n start len : ℕ) : (order n start len).length = len := by
  simp [order]

theorem order_succ (n start len : ℕ) :
    order n start (len + 1) = order n start len ++ [(start + len) % n] := by
  simp [order, List.range_succ]

/-- Within one turn no index comes up twice. -/
theorem order_nodup (start : ℕ) (h : len ≤ n) : (order n start len).Nodup := by
  refine List.Nodup.map_on ?_ List.nodup_range
  intro a ha b hb hab
  rw [List.mem_range] at ha hb
  have hmod : a % n = b % n := Nat.ModEq.add_left_cancel' start hab
  rwa [Nat.mod_eq_of_lt (by omega), Nat.mod_eq_of_lt (by omega)] at hmod

theorem lt_of_mem_order (hn : 0 < n) {i : ℕ} (h : i ∈ order n start len) : i < n := by
  obtain ⟨k, _, rfl⟩ := List.mem_map.mp h
  exact Nat.mod_lt _ hn

/-- A whole turn visits the cells of the array, each once. -/
theorem order_perm (hn : 0 < n) : (order n start n).Perm (List.range n) := by
  apply List.Subperm.perm_of_length_le
  · exact (order_nodup start le_rfl).subperm fun i hi => List.mem_range.mpr (lt_of_mem_order hn hi)
  · rw [order_length, List.length_range]

end CircularOrder
