/-
Lists of lists laid out in one, each element under the number of its list.

`number xss` is the order in which one thread does the items of its jobs
`xss[0]`, `xss[1]`, …; `number_prefix` says that a thread that has finished some
jobs and begun the next is a prefix of it.
-/
import Mathlib.Data.List.Basic
import Mathlib.Data.List.Induction
import Mathlib.Tactic.Common

set_option autoImplicit false

namespace NumberedLists

variable {α β : Type}

/-- The elements of the lists in order, each with the number of its list. -/
def number (xss : List (List α)) : List (ℕ × α) :=
  xss.zipIdx.flatMap fun p => p.1.map fun x => (p.2, x)

theorem number_append_singleton (xss : List (List α)) (xs : List α) :
    number (xss ++ [xs]) = number xss ++ xs.map fun x => (xss.length, x) := by
  unfold number
  rw [List.zipIdx_append, List.flatMap_append]
  simp

/-- More lists number what was there as before. -/
theorem number_append (xss yss : List (List α)) :
    ∃ rest, number (xss ++ yss) = number xss ++ rest := by
  unfold number
  rw [List.zipIdx_append, List.flatMap_append]
  exact ⟨_, rfl⟩

/-- A function on the elements leaves the numbers alone. -/
theorem map_number (f : α → β) (xss : List (List α)) :
    (number xss).map (fun p => (p.1, f p.2)) = number (xss.map (List.map f)) := by
  induction xss using List.reverseRecOn with
  | nil => rfl
  | append_singleton xss xs ih =>
      rw [number_append_singleton, List.map_append, ih, List.map_append, List.map_singleton,
        number_append_singleton, List.length_map, List.map_map, List.map_map]
      rfl

/-- A thread's work so far: the finished lists and a prefix of the next one. -/
theorem number_prefix {xss : List (List α)} {n : ℕ} {xs : List α} (hn : n ≤ xss.length)
    (hxs : xs <+: (xss[n]?).getD []) : number (xss.take n ++ [xs]) <+: number xss := by
  rw [number_append_singleton, List.length_take, Nat.min_eq_left hn]
  rcases Nat.lt_or_ge n xss.length with hlt | hge
  · rw [List.getElem?_eq_getElem hlt, Option.getD_some] at hxs
    obtain ⟨more, hmore⟩ := hxs
    obtain ⟨rest, hrest⟩ := number_append (xss.take n ++ [xss[n]]) (xss.drop (n + 1))
    refine ⟨more.map (fun x => (n, x)) ++ rest, ?_⟩
    rw [← List.take_succ_eq_append_getElem hlt, List.take_append_drop] at hrest
    rw [hrest, List.take_succ_eq_append_getElem hlt, number_append_singleton, List.length_take,
      Nat.min_eq_left hn, ← hmore, List.map_append]
    simp only [List.append_assoc]
  · rw [List.getElem?_eq_none hge, Option.getD_none] at hxs
    have hall : number (xss.take n) ++ xs.map (fun x => (n, x)) = number xss := by
      rw [List.prefix_nil.mp hxs, List.map_nil, List.append_nil, List.take_of_length_le hge]
    exact ⟨[], by rw [List.append_nil, hall]⟩

/-- The elements under one number are the list of that number. -/
theorem filter_number (xss : List (List α)) (k : ℕ) :
    ((number xss).filter fun p => p.1 = k).map Prod.snd = (xss[k]?).getD [] := by
  induction xss using List.reverseRecOn with
  | nil => rfl
  | append_singleton xss xs ih =>
      rw [number_append_singleton, List.filter_append, List.map_append, ih, List.filter_map]
      rcases Nat.lt_trichotomy k xss.length with hlt | rfl | hgt
      · have hnone : xs.filter ((fun p : ℕ × α => decide (p.1 = k)) ∘ fun x => (xss.length, x)) = [] :=
          List.filter_eq_nil_iff.mpr fun x _ => by simp [Nat.ne_of_gt hlt]
        rw [hnone, List.getElem?_append_left hlt]
        simp
      · have hall : xs.filter ((fun p : ℕ × α => decide (p.1 = xss.length)) ∘
            fun x => (xss.length, x)) = xs := List.filter_eq_self.mpr fun x _ => by simp
        have hid : xs.map (Prod.snd ∘ fun x => (xss.length, x)) = xs := List.map_id xs
        rw [hall, List.map_map, hid]
        simp
      · have hnone : xs.filter ((fun p : ℕ × α => decide (p.1 = k)) ∘ fun x => (xss.length, x)) = [] :=
          List.filter_eq_nil_iff.mpr fun x _ => by simp [Nat.ne_of_lt hgt]
        have hlen : (xss ++ [xs]).length ≤ k := by
          rw [List.length_append, List.length_singleton]
          exact hgt
        rw [hnone, List.getElem?_eq_none hlen, List.getElem?_eq_none (Nat.le_of_lt hgt)]
        rfl

end NumberedLists
