/-
Stable compaction by prefix counts.

The element at index `i` of a list, if it is marked, goes to position `rank i` of
the compacted list, where `rank i` counts the marked elements before it. So the
compacted list can be written in any order, by any number of writers, as long as
each knows the rank its part starts at: the sum of the counts of the parts before
(`rank_chunkBegin_succ`).

## Ranks

`rank` counts from the front of the list, so that a writer can compute it from the counts of the
parts before its own and from what it has met of its own part. A list with `MarkedFirst` is its own
partition, the marked elements before the others, and how many of each kind a front part or a back
part of it has follows from the number of the marked ones.
-/
import AsuAscend.Lib.WorkSplit

set_option autoImplicit false

open WorkSplit

namespace Compaction

variable {α : Type} (P : α → Bool) (xs : List α)

/-- How many marked elements stand before index `i`. -/
def rank (i : ℕ) : ℕ := (xs.take i).countP P

@[simp] theorem rank_zero : rank P xs 0 = 0 := rfl

/-- Past the end the rank is the number of all marked elements. -/
theorem rank_of_length_le {i : ℕ} (hi : xs.length ≤ i) : rank P xs i = xs.countP P := by
  unfold rank
  rw [List.take_of_length_le hi]

variable {P xs}

/-- One element more counts if it is marked. -/
theorem rank_succ {i : ℕ} {x : α} (hx : xs[i]? = some x) :
    rank P xs (i + 1) = rank P xs i + if P x then 1 else 0 := by
  unfold rank
  rw [List.take_add_one, hx, Option.toList_some, List.countP_append, List.countP_singleton]

theorem rank_mono {i j : ℕ} (hij : i ≤ j) : rank P xs i ≤ rank P xs j := by
  unfold rank
  apply List.Sublist.countP_le
  rw [← Nat.min_eq_left hij, ← List.take_take]
  exact List.take_sublist _ _

/-- A marked element has a lower rank than any after it, so that ranks tell marked elements
apart. -/
theorem rank_lt_of_lt {i j : ℕ} {x : α} (hx : xs[i]? = some x) (hm : P x = true) (hij : i < j) :
    rank P xs i < rank P xs j := by
  have hle : rank P xs (i + 1) ≤ rank P xs j := rank_mono (Nat.succ_le_of_lt hij)
  rw [rank_succ hx, if_pos hm] at hle
  omega

/-- Two marked elements go to different places. -/
theorem rank_inj {i j : ℕ} {x y : α} (hx : xs[i]? = some x) (hmx : P x = true)
    (hy : xs[j]? = some y) (hmy : P y = true) (h : rank P xs i = rank P xs j) : i = j := by
  rcases Nat.lt_trichotomy i j with hij | hij | hij
  · have := rank_lt_of_lt hx hmx hij; omega
  · exact hij
  · have := rank_lt_of_lt hy hmy hij; omega

/-- **Each marked element goes to its rank.** -/
theorem filter_getElem?_rank {i : ℕ} {x : α} (hx : xs[i]? = some x) (hm : P x = true) :
    (xs.filter P)[rank P xs i]? = some x := by
  have hlt : i < xs.length := (List.getElem?_eq_some_iff.mp hx).1
  have hget : xs[i] = x := (List.getElem?_eq_some_iff.mp hx).2
  have hsplit : xs = xs.take i ++ x :: xs.drop (i + 1) := by
    rw [← hget, List.getElem_cons_drop, List.take_append_drop]
  have hfilter : xs.filter P = (xs.take i).filter P ++ x :: (xs.drop (i + 1)).filter P := by
    conv_lhs => rw [hsplit]
    rw [List.filter_append, List.filter_cons_of_pos hm]
  have hlen : rank P xs i = ((xs.take i).filter P).length := List.countP_eq_length_filter
  rw [hfilter, hlen, List.getElem?_append_right (le_refl _), Nat.sub_self]
  rfl

/-- Every place of the compacted list is the rank of a marked element. -/
theorem exists_rank {k : ℕ} {y : α} (hy : (xs.filter P)[k]? = some y) :
    ∃ i, xs[i]? = some y ∧ P y = true ∧ rank P xs i = k := by
  induction xs using List.reverseRecOn with
  | nil => simp at hy
  | append_singleton ys z ih =>
      rw [List.filter_append] at hy
      -- the ranks of the elements before do not change
      have hold : ∀ i x, ys[i]? = some x → rank P (ys ++ [z]) i = rank P ys i ∧
          (ys ++ [z])[i]? = some x := by
        intro i x hx
        have hlt : i < ys.length := (List.getElem?_eq_some_iff.mp hx).1
        unfold rank
        rw [List.take_append_of_le_length (by omega), List.getElem?_append_left hlt]
        exact ⟨rfl, hx⟩
      -- the element is one of those before
      by_cases hk : k < (ys.filter P).length
      · rw [List.getElem?_append_left hk] at hy
        obtain ⟨i, hi, hm, hr⟩ := ih hy
        exact ⟨i, (hold i y hi).2, hm, (hold i y hi).1.trans hr⟩
      · -- the last element of the compacted list is `z` itself
        rw [List.getElem?_append_right (by omega)] at hy
        by_cases hz : P z = true
        · rw [List.filter_cons_of_pos hz, List.filter_nil] at hy
          have hk' : k = (ys.filter P).length := by
            have := (List.getElem?_eq_some_iff.mp hy).1
            simp at this
            omega
          subst hk'
          rw [Nat.sub_self] at hy
          obtain rfl : z = y := by simpa using hy
          refine ⟨ys.length, List.getElem?_concat_length, hz, ?_⟩
          unfold rank
          rw [List.take_left', List.countP_eq_length_filter]
          rfl
        · rw [List.filter_cons_of_neg hz] at hy
          simp at hy

/-! ## Marked elements first -/

/-- Every marked element comes before every unmarked one. -/
def MarkedFirst (P : α → Bool) (xs : List α) : Prop :=
  xs.Pairwise fun x y => P y = true → P x = true

theorem MarkedFirst.sublist (h : MarkedFirst P xs) {ys : List α} (hsub : ys.Sublist xs) :
    MarkedFirst P ys := List.Pairwise.sublist hsub h

/-- A partitioned list is its marked elements and then the others, each in their order. -/
theorem MarkedFirst.eq_filter_append (h : MarkedFirst P xs) :
    xs = xs.filter P ++ xs.filter fun x => !P x := by
  induction xs with
  | nil => rfl
  | cons x xs ih =>
      obtain ⟨hx, hxs⟩ := List.pairwise_cons.mp h
      by_cases hm : P x = true
      · rw [List.filter_cons_of_pos hm, List.filter_cons_of_neg (by rw [hm]; decide), List.cons_append,
          ← ih hxs]
      · -- no marked element can follow
        have hnone : ∀ y ∈ xs, ¬ P y = true := fun y hy hmy => hm (hx y hy hmy)
        rw [List.filter_cons_of_neg hm, List.filter_eq_nil_iff.mpr hnone, List.nil_append,
          List.filter_cons_of_pos (by simpa using hm),
          List.filter_eq_self.mpr fun y hy => by simpa using hnone y hy]

/-- The first `m` elements reach the unmarked ones after all marked ones. -/
theorem MarkedFirst.countP_take (h : MarkedFirst P xs) {m : ℕ} (hm : m ≤ xs.length) :
    (xs.take m).countP (fun x => !P x) = m - xs.countP P := by
  have hlen := List.length_eq_countP_add_countP P (l := xs)
  have hnot : xs.countP (fun x => !P x) = (xs.filter fun x => !P x).length :=
    List.countP_eq_length_filter
  have hcount : xs.countP (fun x => decide ¬P x = true) = xs.countP fun x => !P x := by
    congr 1
    funext x
    cases P x <;> rfl
  have hmarked : ((xs.filter P).take m).countP (fun x => !P x) = 0 := by
    rw [List.countP_eq_zero]
    intro x hx
    rw [List.of_mem_filter (List.mem_of_mem_take hx)]
    decide
  have hrest : ((xs.filter fun x => !P x).take (m - (xs.filter P).length)).countP (fun x => !P x) =
      ((xs.filter fun x => !P x).take (m - (xs.filter P).length)).length := by
    rw [List.countP_eq_length]
    exact fun x hx => (List.mem_filter.mp (List.mem_of_mem_take hx)).2
  conv_lhs => rw [h.eq_filter_append]
  rw [List.take_append, List.countP_append, hmarked, hrest, List.length_take, ← hnot,
    ← List.countP_eq_length_filter]
  omega

/-- What is left after the first `m` elements has the other marked ones. -/
theorem MarkedFirst.countP_drop (h : MarkedFirst P xs) (m : ℕ) :
    (xs.drop m).countP P = xs.countP P - m := by
  have hmarked : ((xs.filter P).drop m).countP P = ((xs.filter P).drop m).length := by
    rw [List.countP_eq_length]
    exact fun x hx => List.of_mem_filter (List.mem_of_mem_drop hx)
  have hrest : ((xs.filter fun x => !P x).drop (m - (xs.filter P).length)).countP P = 0 := by
    rw [List.countP_eq_zero]
    intro x hx
    have := List.of_mem_filter (List.mem_of_mem_drop hx)
    simpa using this
  conv_lhs => rw [h.eq_filter_append]
  rw [List.drop_append, List.countP_append, hmarked, hrest, List.length_drop,
    ← List.countP_eq_length_filter, Nat.add_zero]

/-! ## By parts -/

/-- The number of marked elements with an index in `b ≤ i < e`. -/
def countSpan (P : α → Bool) (xs : List α) (b e : ℕ) : ℕ :=
  rank P xs e - rank P xs b

theorem countSpan_self (b : ℕ) : countSpan P xs b b = 0 := Nat.sub_self _

/-- A stretch that is longer by one element. -/
theorem countSpan_succ {b p : ℕ} {x : α} (hb : b ≤ p) (hx : xs[p]? = some x) :
    countSpan P xs b (p + 1) = countSpan P xs b p + if P x then 1 else 0 := by
  have hmono : rank P xs b ≤ rank P xs p := rank_mono hb
  unfold countSpan
  rw [rank_succ hx]
  omega

/-- The count of one more part continues the ranks. -/
theorem rank_add_countSpan {b e : ℕ} (h : b ≤ e) :
    rank P xs b + countSpan P xs b e = rank P xs e := by
  have : rank P xs b ≤ rank P xs e := rank_mono h
  unfold countSpan
  omega

theorem rank_le (i : ℕ) : rank P xs i ≤ xs.length := by
  have : rank P xs i ≤ (xs.take i).length := List.countP_le_length
  rw [List.length_take] at this
  omega

/-- **Prefix sums.** The counts of the parts before a thread's add up to the rank
at which its own part starts. -/
theorem rank_chunkBegin_succ (n T t : ℕ) :
    rank P xs (chunkBegin n T t) + countSpan P xs (chunkBegin n T t) (chunkBegin n T (t + 1))
      = rank P xs (chunkBegin n T (t + 1)) := by
  apply rank_add_countSpan
  rw [chunkBegin_succ]
  omega

/-- A loop over a clamped part stops at the rank at which the next part starts. -/
theorem rank_chunkEnd {n T t : ℕ} (hn : xs.length ≤ n) :
    rank P xs (chunkBegin n T t + (chunkEnd n T t - chunkBegin n T t))
      = rank P xs (chunkBegin n T (t + 1)) := by
  unfold chunkEnd
  rw [chunkBegin_succ]
  rcases Nat.le_total (chunkBegin n T t + chunkSize n T) n with h | h
  · rw [Nat.min_eq_left h, Nat.add_sub_cancel_left]
  · rw [Nat.min_eq_right h, rank_of_length_le P xs (by omega), rank_of_length_le P xs (by omega)]

end Compaction
