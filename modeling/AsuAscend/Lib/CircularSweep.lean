/-
Loops that sweep a circular array until they have found enough.

The loop goes from cell to cell, wrapping around, and takes the cells that satisfy a
predicate `p` and that it has not taken before; it stops when it has taken `h` of them,
and has no bound of its own. `found` lists what has been taken after `k` turns: the cells
with `p` among the first `k`, and after a whole turn all of them. Since a cell that is
taken does not come up again, the loop goes on forever when there are fewer than `h`.

What a turn does to the program's state, and that it stops with an error where the cell
it takes is no good (`good`), is the premise `Sweeps`; an equation for one turn gives it
(`Sweeps.of_turn`). From it follows what the loop has come to when it ends (`Sweeps.ok`), and
that it ends within one turn of the array when enough cells are there and the first `h` are
good (`Sweeps.ends`).

## Fuel

`sweep` runs the loop on fuel, and ends in `cut` where that does not last. For a loop that has
enough to find, one turn of the array is enough fuel; for one that has not, no fuel is, as `found`
never gets longer than the number of cells with `p`.
-/
import AsuAscend.Lib.CircularOrder
import AsuAscend.Lib.Folds

set_option autoImplicit false

open CircularOrder

namespace CircularSweep

variable {τ ε : Type}

/-- A loop with a condition and no bound, cut off after `fuel` turns. -/
def sweep (more : τ → Prop) [DecidablePred more] (turn : τ → Except ε τ) (cut : ε) : ℕ → τ → Except ε τ
  | 0, c => if more c then .error cut else .ok c
  | fuel + 1, c => if more c then turn c >>= sweep more turn cut fuel else .ok c

/-! ## What has been taken -/

/-- The cells taken in the first `k` turns from `start`, in the order in which they come up. -/
def found (n start : ℕ) (p : ℕ → Prop) [DecidablePred p] (k : ℕ) : List ℕ :=
  (order n start (min k n)).filter (p ·)

section

variable {n start : ℕ} {p : ℕ → Prop} [DecidablePred p]

/-- No cell is taken twice. -/
theorem found_nodup (k : ℕ) : (found n start p k).Nodup :=
  (order_nodup start (Nat.min_le_right k n)).filter _

/-- A cell that has been taken is a cell, and it has `p`. -/
theorem mem_found (hn : 0 < n) {k i : ℕ} (h : i ∈ found n start p k) : i < n ∧ p i := by
  unfold found at h
  rw [List.mem_filter, decide_eq_true_iff] at h
  exact ⟨lt_of_mem_order hn h.1, h.2⟩

/-- After a whole turn all cells with `p` are taken. -/
theorem found_full (hn : 0 < n) {i : ℕ} (hi : i < n) (hp : p i) {k : ℕ} (hk : n ≤ k) :
    i ∈ found n start p k := by
  unfold found
  rw [Nat.min_eq_right hk, List.mem_filter, decide_eq_true_iff, (order_perm hn).mem_iff,
    List.mem_range]
  exact ⟨hi, hp⟩

/-- In its first turn around the array the loop comes upon cells that it has not taken. -/
theorem not_mem_found {k : ℕ} (hk : k < n) : (start + k) % n ∉ found n start p k := by
  unfold found
  rw [Nat.min_eq_left hk.le]
  have hnd := order_nodup start (Nat.succ_le_of_lt hk)
  rw [order_succ, List.nodup_append] at hnd
  exact fun h => hnd.2.2 _ (List.mem_of_mem_filter h) _ (List.mem_singleton.mpr rfl) rfl

/-- The cell of turn `k` is taken if it has `p` and has not been taken before. -/
theorem found_succ (hn : 0 < n) (k : ℕ) : found n start p (k + 1) = found n start p k ++
    if (start + k) % n ∉ found n start p k ∧ p ((start + k) % n) then [(start + k) % n] else [] := by
  by_cases hk : k < n
  · have hnot : (start + k) % n ∉ found n start p k := not_mem_found hk
    unfold found
    rw [Nat.min_eq_left hk, Nat.min_eq_left hk.le, order_succ, List.filter_append,
      List.filter_singleton]
    unfold found at hnot
    rw [Nat.min_eq_left hk.le] at hnot
    by_cases hp : p ((start + k) % n)
    · rw [if_pos ⟨hnot, hp⟩, decide_eq_true hp, cond_true]
    · rw [if_neg fun h => hp h.2, decide_eq_false hp, cond_false]
  · rw [if_neg fun h => h.1 (found_full hn (Nat.mod_lt _ hn) h.2 (Nat.le_of_not_lt hk)),
      List.append_nil]
    unfold found
    rw [Nat.min_eq_right (by omega), Nat.min_eq_right (by omega)]

/-- What is taken first is taken in front. -/
theorem found_isPrefix {k k' : ℕ} (hle : k ≤ k') : found n start p k <+: found n start p k' := by
  unfold found
  apply List.IsPrefix.filter
  apply List.IsPrefix.map
  rw [List.prefix_iff_eq_take, List.length_range, List.take_range]
  congr 1
  omega

theorem found_zero : found n start p 0 = [] := by
  unfold found
  rw [Nat.zero_min]
  rfl

/-- Past a whole turn nothing more is taken. -/
theorem found_min (k : ℕ) : found n start p (min k n) = found n start p k := by
  unfold found
  rw [Nat.min_assoc, Nat.min_self]

/-- More turns than the array has cells do not take more of them. -/
theorem found_length_le (k : ℕ) : (found n start p k).length ≤ (found n start p n).length := by
  rw [← found_min k]
  exact (found_isPrefix (Nat.min_le_right k n)).length_le

/-- A turn takes at most one cell. -/
theorem found_succ_length_le (hn : 0 < n) (k : ℕ) :
    (found n start p (k + 1)).length ≤ (found n start p k).length + 1 := by
  rw [found_succ hn, List.length_append]
  split_ifs
  · rw [List.length_singleton]
  · exact Nat.le_succ _

/-- The first `h` cells of a turn are those taken when there are `h`. -/
theorem found_eq_take {k h : ℕ} (hlen : (found n start p k).length = h) :
    found n start p k = (found n start p n).take h := by
  have hpre : found n start p (min k n) <+: found n start p n := found_isPrefix (Nat.min_le_right k n)
  rw [found_min, List.prefix_iff_eq_take, hlen] at hpre
  exact hpre

end

/-! ## The loop -/

/-- A loop over states of the program, where `rep k` is its state after `k` turns. Turn `k`
fails with `e` where it would take a cell that is no good. -/
structure Sweeps (n start : ℕ) (p good : ℕ → Prop) [DecidablePred p] (h : ℕ) (more : τ → Prop)
    (turn : τ → Except ε τ) (e : ε) (rep : ℕ → τ) : Prop where
  pos : 0 < n
  more : ∀ k, more (rep k) ↔ (found n start p k).length < h
  next : ∀ k, (found n start p k).length < h → (∀ v ∈ found n start p k, good v) →
    (∀ v ∈ found n start p (k + 1), good v) → turn (rep k) = .ok (rep (k + 1))
  fails : ∀ k, (found n start p k).length < h → (∀ v ∈ found n start p k, good v) →
    (¬ ∀ v ∈ found n start p (k + 1), good v) → turn (rep k) = .error e

section

variable {n start : ℕ} {p good : ℕ → Prop} [DecidablePred p] {h : ℕ} {more : τ → Prop}
  [DecidablePred more] {turn : τ → Except ε τ} {e cut : ε} {rep : ℕ → τ}

omit [DecidablePred more] in
/-- The rule for a loop with one kind of turn: it fails at a new cell with `p` that is no good, and
goes on to the next state otherwise. -/
theorem Sweeps.of_turn [DecidablePred good] (hn : 0 < n)
    (hmore : ∀ k, more (rep k) ↔ (found n start p k).length < h)
    (hturn : ∀ k, (found n start p k).length < h → (∀ v ∈ found n start p k, good v) →
      turn (rep k) =
        if (start + k) % n ∉ found n start p k ∧ p ((start + k) % n) ∧ ¬ good ((start + k) % n)
          then .error e
        else .ok (rep (k + 1))) :
    Sweeps n start p good h more turn e rep := by
  refine ⟨hn, hmore, fun k hlt hgood hgood' => ?_, fun k hlt hgood hbad => ?_⟩
  · rw [hturn k hlt hgood, if_neg]
    rintro ⟨hmem, hp, hout⟩
    apply hout
    apply hgood'
    rw [found_succ hn, if_pos ⟨hmem, hp⟩]
    exact List.mem_append_right _ (List.mem_singleton.mpr rfl)
  · rw [hturn k hlt hgood, if_pos]
    -- the cell of this turn is the one that is no good
    rw [found_succ hn] at hbad
    split_ifs at hbad with hnew
    · refine ⟨hnew.1, hnew.2, fun hin => hbad fun v hv => ?_⟩
      rcases List.mem_append.mp hv with hv | hv
      · exact hgood v hv
      · rw [List.mem_singleton.mp hv]
        exact hin
    · rw [List.append_nil] at hbad
      exact absurd hgood hbad

/-- **A sweep that has ended** had enough cells to find, has taken the first `h`, and all of
them were good. -/
theorem Sweeps.ok (hs : Sweeps n start p good h more turn e rep) {fuel : ℕ} {c : τ}
    (hrun : sweep more turn cut fuel (rep 0) = .ok c) :
    h ≤ (found n start p n).length ∧ (∀ v ∈ (found n start p n).take h, good v) ∧
      ∃ k, found n start p k = (found n start p n).take h ∧ c = rep k := by
  -- from turn `k` on, with all good so far and none too many
  have key : ∀ fuel k, (∀ v ∈ found n start p k, good v) → (found n start p k).length ≤ h →
      sweep more turn cut fuel (rep k) = .ok c →
      ∃ k', (∀ v ∈ found n start p k', good v) ∧ (found n start p k').length = h ∧ c = rep k' := by
    intro fuel
    induction fuel with
    | zero =>
        intro k hgood hle hrun
        unfold sweep at hrun
        split_ifs at hrun with hmore
        rw [hs.more] at hmore
        exact ⟨k, hgood, by omega, (Except.ok.inj hrun).symm⟩
    | succ fuel ih =>
        intro k hgood hle hrun
        unfold sweep at hrun
        split_ifs at hrun with hmore
        · rw [hs.more] at hmore
          by_cases hnext : ∀ v ∈ found n start p (k + 1), good v
          · rw [hs.next k hmore hgood hnext] at hrun
            refine ih (k + 1) hnext ?_ hrun
            exact (found_succ_length_le hs.pos k).trans hmore
          · rw [hs.fails k hmore hgood hnext] at hrun
            cases hrun
        · rw [hs.more] at hmore
          exact ⟨k, hgood, by omega, (Except.ok.inj hrun).symm⟩
  obtain ⟨k, hgood, hlen, rfl⟩ := key fuel 0 (by rw [found_zero]; simp) (by rw [found_zero]; simp) hrun
  have htake := found_eq_take hlen
  refine ⟨by rw [← hlen]; exact found_length_le k, ?_, k, htake, rfl⟩
  rw [← htake]
  exact hgood

/-- **A sweep ends** within one turn of the array, if enough cells are there and the first `h`
of them are good. -/
theorem Sweeps.ends (hs : Sweeps n start p good h more turn e rep) (cut : ε)
    (henough : h ≤ (found n start p n).length) (hgood : ∀ v ∈ (found n start p n).take h, good v)
    {fuel : ℕ} (hfuel : n ≤ fuel) :
    ∃ k, found n start p k = (found n start p n).take h ∧
      sweep more turn cut fuel (rep 0) = .ok (rep k) := by
  -- what is found before there are enough is among the first `h`
  have hpre : ∀ k, (found n start p k).length ≤ h → ∀ v ∈ found n start p k, good v := by
    intro k hle v hv
    rw [found_eq_take rfl] at hv
    exact hgood v ((List.take_sublist_take_left hle).subset hv)
  -- `m` turns of the array are left, and there is fuel for them
  have key : ∀ m k fuel, k + m = n → m ≤ fuel → (found n start p k).length ≤ h →
      ∃ k', (found n start p k').length = h ∧
        sweep more turn cut fuel (rep k) = .ok (rep k') := by
    intro m
    induction m with
    | zero =>
        -- a whole turn is over: all cells with `p` are found, which are enough
        intro k fuel hk _ hle
        have hkn : k = n := hk
        have hlen : (found n start p k).length = h := by rw [hkn] at hle ⊢; omega
        have hstop : ¬ more (rep k) := by rw [hs.more]; omega
        refine ⟨k, hlen, ?_⟩
        cases fuel with
        | zero => exact if_neg hstop
        | succ fuel => exact if_neg hstop
    | succ m ih =>
        intro k fuel hk hfuel hle
        obtain ⟨fuel, rfl⟩ := Nat.exists_eq_add_of_le' (Nat.le_trans (Nat.le_add_left 1 m) hfuel)
        -- one turn more, on one unit of fuel
        by_cases hmore : (found n start p k).length < h
        · have hstep : (found n start p (k + 1)).length ≤ h :=
            (found_succ_length_le hs.pos k).trans hmore
          obtain ⟨k', hlen, hrun⟩ := ih (k + 1) fuel (by omega) (by omega) hstep
          refine ⟨k', hlen, ?_⟩
          rw [sweep, if_pos ((hs.more k).mpr hmore),
            hs.next k hmore (hpre k hle) (hpre (k + 1) hstep)]
          exact hrun
        -- enough has been found already
        · refine ⟨k, by omega, ?_⟩
          rw [sweep, if_neg (by rw [hs.more]; exact hmore)]
  obtain ⟨k, hlen, hrun⟩ := key n 0 fuel (Nat.zero_add n) hfuel (by rw [found_zero]; simp)
  exact ⟨k, found_eq_take hlen, hrun⟩

end

end CircularSweep
