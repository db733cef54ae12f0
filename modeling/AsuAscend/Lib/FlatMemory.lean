/-
Rows of one length, laid out one after the other in flat memory.

An access outside the memory has no result (`load`, `store`). Row `i` of rows of length `e`
starts at `i * e` (`flatten_split`, `length_flatten_take`), so that a loop that copies `e`
elements from one such place to another copies a row (`copy_row`).

## Negative addresses

An address is an integer, since the code computes it with signed arithmetic and a miss shows as a
negative number; `load` and `store` refuse it as they refuse one past the end.
-/
import Mathlib.Data.List.Basic
import Mathlib.Data.Int.Order.Basic

set_option autoImplicit false

namespace FlatMemory

variable {γ : Type}

/-! ## Accesses -/

def load (mem : List γ) (i : ℤ) : Option γ := if 0 ≤ i then mem[i.toNat]? else none

def store (mem : List γ) (i : ℤ) (v : γ) : Option (List γ) :=
  if 0 ≤ i ∧ i < mem.length then some (mem.set i.toNat v) else none

theorem load_natCast {mem : List γ} {i : ℕ} (h : i < mem.length) :
    load mem (i : ℤ) = some mem[i] := by
  unfold load
  rw [if_pos (by omega), Int.toNat_natCast, List.getElem?_eq_getElem h]

theorem store_natCast {mem : List γ} {i : ℕ} (h : i < mem.length) (v : γ) :
    store mem (i : ℤ) v = some (mem.set i v) := by
  unfold store
  rw [if_pos (by omega), Int.toNat_natCast]

/-- The load of an element, by what stands before it. -/
theorem load_append (before : List γ) (v : γ) (after : List γ) :
    load (before ++ v :: after) (before.length : ℤ) = some v := by
  rw [load_natCast (by simp)]
  simp

theorem store_append (before : List γ) (u : γ) (after : List γ) (v : γ) :
    store (before ++ u :: after) (before.length : ℤ) v = some (before ++ v :: after) := by
  rw [store_natCast (by simp)]
  simp

/-- A loop that copies between places that both memories have. -/
theorem copy_total {src : List γ} {s d : ℕ → ℤ} {js : List ℕ} {dst : List γ}
    (hs : ∀ j ∈ js, 0 ≤ s j ∧ s j < src.length) (hd : ∀ j ∈ js, 0 ≤ d j ∧ d j < dst.length) :
    ∃ dst', js.foldlM (fun dst j => (load src (s j)).bind fun v => store dst (d j) v) dst = some dst' ∧
      dst'.length = dst.length := by
  induction js generalizing dst with
  | nil => exact ⟨dst, rfl, rfl⟩
  | cons j js ih =>
      obtain ⟨hs0, hs1⟩ := hs j List.mem_cons_self
      obtain ⟨hd0, hd1⟩ := hd j List.mem_cons_self
      obtain ⟨k, hk⟩ := Int.eq_ofNat_of_zero_le hs0
      obtain ⟨i, hi⟩ := Int.eq_ofNat_of_zero_le hd0
      have hlen : (dst.set i src[k]).length = dst.length := List.length_set
      obtain ⟨dst', hrun, hdst'⟩ := @ih (dst.set i src[k])
        (fun j' hj' => hs j' (List.mem_cons_of_mem j hj'))
        (fun j' hj' => by rw [hlen]; exact hd j' (List.mem_cons_of_mem j hj'))
      refine ⟨dst', ?_, hdst'.trans hlen⟩
      rw [List.foldlM_cons, hk, hi, load_natCast (by omega), Option.bind_some,
        store_natCast (by omega)]
      exact hrun

theorem store_length {mem mem' : List γ} {i : ℤ} {v : γ} (h : store mem i v = some mem') :
    mem'.length = mem.length := by
  unfold store at h
  split_ifs at h
  cases h
  exact List.length_set

/-- A loop that copies leaves the length alone, if it gets through at all. -/
theorem copy_length {src : List γ} {s d : ℕ → ℤ} {js : List ℕ} {dst dst' : List γ}
    (h : js.foldlM (fun dst j => (load src (s j)).bind fun v => store dst (d j) v) dst = some dst') :
    dst'.length = dst.length := by
  induction js generalizing dst with
  | nil =>
      cases h
      rfl
  | cons j js ih =>
      rw [List.foldlM_cons] at h
      obtain ⟨dst1, hstep, h⟩ := Option.bind_eq_some_iff.mp h
      obtain ⟨v, -, hstore⟩ := Option.bind_eq_some_iff.mp hstep
      exact (ih h).trans (store_length hstore)

/-! ## Copying a block -/

/-- A loop over `src[s j]`, `dst[d j]` that goes through two blocks of the same length. -/
theorem copy_block {s d : ℕ → ℤ} {block : List γ} {old : List γ} (hlen : old.length = block.length) :
    ∀ {start : ℕ} {sBefore sAfter dBefore dAfter : List γ},
    (∀ j < block.length, s (start + j) = (sBefore.length + j : ℕ)) →
    (∀ j < block.length, d (start + j) = (dBefore.length + j : ℕ)) →
    (List.range' start block.length).foldlM (fun dst j =>
        (load (sBefore ++ block ++ sAfter) (s j)).bind fun v => store dst (d j) v)
      (dBefore ++ old ++ dAfter) = some (dBefore ++ block ++ dAfter) := by
  induction block generalizing old with
  | nil =>
      intro start sBefore sAfter dBefore dAfter hs hd
      rw [List.length_nil] at hlen
      rw [List.eq_nil_of_length_eq_zero hlen]
      rfl
  | cons v block ih =>
      intro start sBefore sAfter dBefore dAfter hs hd
      cases old with
      | nil => cases hlen
      | cons u old =>
          have hs0 := hs 0 (by simp)
          have hd0 := hd 0 (by simp)
          rw [Nat.add_zero, Nat.add_zero] at hs0 hd0
          rw [List.length_cons, List.range'_succ, List.foldlM_cons, hs0, hd0]
          have hload : load (sBefore ++ v :: block ++ sAfter) (sBefore.length : ℤ) = some v := by
            rw [List.append_assoc, List.cons_append]
            exact load_append _ _ _
          have hstore : store (dBefore ++ u :: old ++ dAfter) (dBefore.length : ℤ) v =
              some (dBefore ++ v :: old ++ dAfter) := by
            rw [List.append_assoc, List.append_assoc, List.cons_append, List.cons_append]
            exact store_append _ _ _ _
          rw [hload, Option.bind_some, hstore]
          -- the element just copied belongs to what lies before the rest of the block
          have hshift : ∀ (before rest after : List γ),
              before ++ v :: rest ++ after = (before ++ [v]) ++ rest ++ after := by simp
          show (List.range' (start + 1) block.length).foldlM _ (dBefore ++ v :: old ++ dAfter) = _
          rw [hshift dBefore old, hshift dBefore block, hshift sBefore block]
          refine ih (Nat.succ.inj hlen) (fun j hj => ?_) (fun j hj => ?_)
          · have := hs (j + 1) (by simpa using hj)
            rw [Nat.add_assoc, Nat.add_comm 1, this]
            simp
            omega
          · have := hd (j + 1) (by simpa using hj)
            rw [Nat.add_assoc, Nat.add_comm 1, this]
            simp
            omega

/-! ## Rows -/

section

variable {rows : List (List γ)} {e : ℕ}

/-- Rows of one length, laid out one after the other. -/
theorem length_flatten_rows (h : ∀ row ∈ rows, row.length = e) :
    rows.flatten.length = rows.length * e := by
  induction rows with
  | nil => simp
  | cons row rows ih =>
      rw [List.flatten_cons, List.length_append, h row List.mem_cons_self,
        ih fun r hr => h r (List.mem_cons_of_mem row hr), List.length_cons, Nat.succ_mul, Nat.add_comm]

/-- Row `i` starts at `i * e`. -/
theorem length_flatten_take (h : ∀ row ∈ rows, row.length = e) {i : ℕ} (hi : i < rows.length) :
    (rows.take i).flatten.length = i * e := by
  rw [length_flatten_rows fun row hrow => h row (List.mem_of_mem_take hrow), List.length_take,
    Nat.min_eq_left (Nat.le_of_lt hi)]

theorem flatten_split {i : ℕ} (hi : i < rows.length) :
    rows.flatten = (rows.take i).flatten ++ rows[i] ++ (rows.drop (i + 1)).flatten := by
  conv_lhs => rw [← List.take_append_drop i rows, List.drop_eq_getElem_cons hi]
  rw [List.flatten_append, List.flatten_cons, List.append_assoc]

/-- A row that is replaced as a whole is one stretch of the memory. -/
theorem flatten_set {i : ℕ} (hi : i < rows.length) (row : List γ) :
    (rows.set i row).flatten = (rows.take i).flatten ++ row ++ (rows.drop (i + 1)).flatten := by
  rw [List.set_eq_take_append_cons_drop, if_pos hi, List.flatten_append, List.flatten_cons,
    List.append_assoc]

/-- **A loop that copies `e` elements** from the place of row `j` to the place of row `i`. -/
theorem copy_row {src : List (List γ)} (hsrc : ∀ row ∈ src, row.length = e)
    (hrows : ∀ row ∈ rows, row.length = e) {i j : ℕ} (hi : i < rows.length) (hj : j < src.length)
    {s d : ℕ → ℤ} (hs : ∀ k < e, s k = (j * e + k : ℕ)) (hd : ∀ k < e, d k = (i * e + k : ℕ)) :
    (List.range e).foldlM (fun dst k => (load src.flatten (s k)).bind fun v => store dst (d k) v)
      rows.flatten = some (rows.set i src[j]).flatten := by
  have hlen : src[j].length = e := hsrc _ (List.getElem_mem hj)
  have hold : rows[i].length = src[j].length := (hrows _ (List.getElem_mem hi)).trans hlen.symm
  rw [List.range_eq_range', flatten_split hi, flatten_split hj, flatten_set hi, ← hlen]
  refine copy_block hold (fun k hk => ?_) (fun k hk => ?_)
  · rw [length_flatten_take hsrc hj, Nat.zero_add, hs k (by omega)]
  · rw [length_flatten_take hrows hi, Nat.zero_add, hd k (by omega)]

end

end FlatMemory
