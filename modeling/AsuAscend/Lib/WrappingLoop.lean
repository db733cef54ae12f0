/-
`for (uint32_t i = core; i < n; i += T)`, with the counter that the machine has.

`visits` runs the loop on fuel and lists the indices it visits; the increment wraps at
`2 ^ 32`. Up to `n + T ≤ 2 ^ 32` the wrap does not show, and the loop visits the grid
stride (`visits_eq`), so that `T` such loops visit every index once (`gridStride_once`).

## The counter

With a bound near the top of the counter's range the increment of the last turn can wrap to a small
index, and the loop goes round again. `Visits` says of `T` loops that they end, and which indices
each of them visits.
-/
import AsuAscend.Lib.MachineWords
import AsuAscend.Lib.WorkSplit
import Mathlib.Data.List.Nodup

set_option autoImplicit false

open MachineWords WorkSplit

namespace WrappingLoop

/-- The indices that the loop visits from counter `i` on; `none` when the fuel runs out. -/
def visits (n T : ℕ) : ℕ → ℕ → Option (List ℕ)
  | 0, _ => none
  | fuel + 1, i => if i < n then (visits n T fuel (u32 (i + T : ℕ))).map (i :: ·) else some []

variable {n T : ℕ}

/-- More fuel does not change a loop that has ended. -/
theorem visits_unique {fuel fuel' i : ℕ} {l l' : List ℕ} (h : visits n T fuel i = some l)
    (h' : visits n T fuel' i = some l') : l = l' := by
  induction fuel generalizing fuel' i l l' with
  | zero => cases h
  | succ fuel ih =>
      cases fuel' with
      | zero => cases h'
      | succ fuel' =>
          unfold visits at h h'
          split_ifs at h h' with hi
          · obtain ⟨k, hk, rfl⟩ := Option.map_eq_some_iff.mp h
            obtain ⟨k', hk', rfl⟩ := Option.map_eq_some_iff.mp h'
            rw [ih hk hk']
          · cases h
            cases h'
            rfl

/-- The grid stride from `i` on: `i` and the stride from `i + T` on. -/
theorem gridStride_cons (hT : 0 < T) {i : ℕ} (hi : i < n) :
    gridStride i n T = i :: gridStride (i + T) n T := by
  have hcount : (n + T - 1 - i) / T = (n + T - 1 - (i + T)) / T + 1 := by
    rw [← Nat.add_div_right _ hT]
    congr 1
    omega
  unfold gridStride
  rw [hcount, List.range'_succ]

/-- A thread that starts past the end has nothing to do. -/
theorem gridStride_nil {i : ℕ} (hi : n ≤ i) : gridStride i n T = [] := by
  unfold gridStride
  by_cases hT : T = 0
  · rw [hT, Nat.div_zero]
    rfl
  · rw [Nat.div_eq_of_lt (by omega)]
    rfl

/-- **A loop whose counter does not wrap** visits the grid stride. -/
theorem visits_eq (hT : 0 < T) (hwrap : n + T ≤ 2 ^ 32) {fuel i : ℕ} (hfuel : n - i < fuel) :
    visits n T fuel i = some (gridStride i n T) := by
  induction fuel generalizing i with
  | zero => omega
  | succ fuel ih =>
      unfold visits
      by_cases hi : i < n
      · have hnext : u32 (i + T : ℕ) = i + T := u32_natCast (by omega)
        rw [if_pos hi, hnext, ih (by omega), gridStride_cons hT hi]
        rfl
      · rw [if_neg hi, gridStride_nil (by omega)]

/-- The `T` loops together. -/
theorem gridStride_once (hT : 0 < T) :
    ((List.range T).flatMap fun c => gridStride c n T).Perm (List.range n) := by
  have hnodup : ((List.range T).flatMap fun c => gridStride c n T).Nodup := by
    refine List.nodup_flatMap.mpr ⟨fun c _ => gridStride_nodup hT, ?_⟩
    refine List.nodup_range.pairwise_of_forall_ne fun c hc u hu hne => ?_
    intro p hpc hpu
    exact hne (gridStride_unique (List.mem_range.mp hc) (List.mem_range.mp hu) hpc hpu)
  rw [List.perm_ext_iff_of_nodup hnodup List.nodup_range]
  intro p
  rw [List.mem_flatMap, List.mem_range]
  constructor
  · rintro ⟨c, hc, hp⟩
    exact ((mem_gridStride (List.mem_range.mp hc)).mp hp).1
  · intro hp
    exact ⟨p % T, List.mem_range.mpr (Nat.mod_lt p hT), gridStride_cover hT hp⟩

/-- What `T` loops over `n` indices visit when all of them end. -/
structure Visits (n T : ℕ) (rows : ℕ → List ℕ) : Prop where
  ends : ∀ c < T, ∃ fuel, visits n T fuel c = some (rows c)

/-- Below the wrap the loop visits what a loop over integers does. -/
theorem visits_gridStride (hT : 0 < T) (hwrap : n + T ≤ 2 ^ 32) :
    Visits n T fun c => gridStride c n T :=
  ⟨fun _ _ => ⟨n + 1, visits_eq hT hwrap (by omega)⟩⟩

/-- And that is all that it can visit. -/
theorem Visits.eq_gridStride {rows : ℕ → List ℕ} (h : Visits n T rows) (hwrap : n + T ≤ 2 ^ 32)
    {c : ℕ} (hc : c < T) : rows c = gridStride c n T := by
  obtain ⟨fuel, hfuel⟩ := h.ends c hc
  exact visits_unique hfuel (visits_eq (Nat.lt_of_le_of_lt (Nat.zero_le c) hc) hwrap
    (Nat.lt_succ_self _))

end WrappingLoop
