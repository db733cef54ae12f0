/-
A set of small naturals kept in an array of machine words.

`mark` sets the bit of one member and `test` reads it, both by the word `i / w` and
the bit `i % w`; a member whose word lies past the end is not kept.

## Width

The width of a word is a parameter, and the words are bit vectors of that width. What is proved is
how `test` answers after `mark`, for the bit that was marked and for every other one.
-/
import Mathlib.Data.BitVec
import Mathlib.Data.List.Basic

set_option autoImplicit false

namespace WordBitmap

variable {w : ℕ}

/-- `words[i / w] |= 1 << (i % w)` -/
def mark (words : List (BitVec w)) (i : ℕ) : List (BitVec w) :=
  words.modify (i / w) fun word => word ||| (1#w <<< (i % w))

/-- `(words[i / w] & (1 << (i % w))) != 0` -/
def test (words : List (BitVec w)) (i : ℕ) : Bool :=
  (words.getD (i / w) 0#w &&& (1#w <<< (i % w))) != 0#w

/-- One bit of one word. -/
theorem and_shift_ne_zero {word : BitVec w} {k : ℕ} (hk : k < w) :
    ((word &&& (1#w <<< k)) != 0#w) = word.getLsbD k := by
  rw [← BitVec.twoPow_eq, BitVec.and_twoPow]
  by_cases hb : word.getLsbD k
  · rw [if_pos hb, hb, bne_iff_ne]
    intro h0
    have hbit : (BitVec.twoPow w k).getLsbD k = true := by simp [hk]
    rw [h0] at hbit
    simp at hbit
  · rw [if_neg hb, Bool.not_eq_true _ |>.mp hb]
    simp

/-- Bit `i` is bit `i % w` of word `i / w`. -/
theorem test_eq (hw : 0 < w) (words : List (BitVec w)) (i : ℕ) :
    test words i = (words.getD (i / w) 0#w).getLsbD (i % w) :=
  and_shift_ne_zero (Nat.mod_lt i hw)

/-- Marking keeps the number of words. -/
@[simp] theorem mark_length (words : List (BitVec w)) (i : ℕ) :
    (mark words i).length = words.length := by
  simp [mark]

/-- Nothing is marked in zeroed words. -/
theorem test_replicate (hw : 0 < w) (n i : ℕ) : test (List.replicate n (0#w)) i = false := by
  have hword : (List.replicate n (0#w)).getD (i / w) 0#w = 0#w := by
    rw [List.getD_eq_getElem?_getD, List.getElem?_replicate]
    split_ifs <;> rfl
  rw [test_eq hw, hword]
  simp

/-- After a mark that bit is set, and the others are as they were. -/
theorem test_mark (hw : 0 < w) {words : List (BitVec w)} {i : ℕ} (hi : i / w < words.length)
    (j : ℕ) : test (mark words i) j = (decide (j = i) || test words j) := by
  rw [test_eq hw, test_eq hw]
  unfold mark
  rw [List.getD_eq_getElem?_getD, List.getD_eq_getElem?_getD, List.getElem?_modify]
  by_cases hword : j / w = i / w
  · -- the two members share a word: they are equal when their bits are
    have hbit : (j % w = i % w) ↔ j = i := by
      constructor
      · intro h
        rw [← Nat.div_add_mod j w, ← Nat.div_add_mod i w, hword, h]
      · intro h; rw [h]
    have hlt := Nat.mod_lt i hw
    rw [hword, List.getElem?_eq_getElem hi, ← BitVec.twoPow_eq]
    simp only [if_true, Option.map_eq_map, Option.map_some, Option.getD_some, BitVec.getLsbD_or,
      BitVec.getLsbD_twoPow]
    rw [Bool.or_comm, decide_eq_true hlt, Bool.true_and]
    congr 1
    exact decide_eq_decide.mpr (by rw [eq_comm, hbit])
  · have hne : j ≠ i := fun h => hword (by rw [h])
    have hne' : ¬ i / w = j / w := fun h => hword h.symm
    rw [decide_eq_false hne, Bool.false_or]
    simp only [if_neg hne', Option.map_eq_map, Option.map_id']

end WordBitmap
