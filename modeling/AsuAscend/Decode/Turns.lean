/-
One turn of the resolver's loop: everything that it can do to a context whose slot pool
is in order.

It refuses the token and leaves the context alone, answers from the tables, installs the
token, or takes a slot off the stack and then finds that it cannot copy (`Turn.lost`).
What holds of a call follows from these four.

## Why four cases

A turn that raises before the pop has changed nothing, whichever check it was; a turn that raises
after the pop has changed the stack and nothing else. Between the two lies the only write that a
raise can leave half-done. `resolveToken_turn` goes through the checks of the source once, in their
order; what holds of every outcome is proved by cases on `Turn`.
-/
import AsuAscend.Decode.Pool

set_option autoImplicit false

open SentinelTable StateExcept

namespace AsuAscend.Decode

variable {α β : Type}

/-- The row of the paged cache to copy from, where the token's state and the block table name
one. -/
def sourceSlot (c : Context α β) (src : Source α β) (block_size t : ℕ) : Option ℤ :=
  if read c.token_state t = ASU_ONLY then some (read c.asu_record_addr t)
  else if read c.token_state t = TAIL_HBM ∧ t / block_size < src.original_block_table.length then
    some (sourceRow src.original_block_table block_size t)
  else none

def Context.popped (c : Context α β) : Context α β :=
  { c with free_slot_count := c.free_slot_count - 1 }

/-- The token is one of the sequence and of the tables. -/
structure InTables (c : Context α β) (n t : ℤ) : Prop where
  nonneg : 0 ≤ t
  lt_len : t < n
  lt_max : t < c.max_seq_len

inductive Turn (src : Source α β) (n : ℤ) (block_size : ℕ) (t : ℤ) (c : Context α β) :
    EStateM.Result PyError (Context α β) ℤ → Prop
  | refused (e : PyError)
      (h : ¬ InTables c n t ∨ ¬ Resident c t.toNat ∧
        (sourceSlot c src block_size t.toNat = none ∨ c.free_slot_count ≤ 0)) :
      Turn src n block_size t c (.error e c)
  | resident (hin : InTables c n t) (h : Resident c t.toNat) :
      Turn src n block_size t c (.ok (read c.hbm_slot_of_token t.toNat) c)
  | lost (e : PyError) {row : ℤ} (hin : InTables c n t)
      (hrow : sourceSlot c src block_size t.toNat = some row) (hpos : 0 < c.free_slot_count)
      (hcopies : ¬ Copies c src row c.top) :
      Turn src n block_size t c (.error e c.popped)
  | installed {row slot : ℕ} (hin : InTables c n t)
      (hrow : sourceSlot c src block_size t.toNat = some (row : ℤ)) (hpos : 0 < c.free_slot_count)
      (hslot : c.top = slot) (hcopies : Copies c src row slot) :
      Turn src n block_size t c (.ok (slot : ℤ) (c.installed src t.toNat row slot))

section

variable {c : Context α β} {src : Source α β} {n : ℤ} {block_size t : ℕ} {row : ℤ}

/-- A token that has a source row is not resident: the two states that name one are others. -/
theorem sourceSlot_not_resident (h : sourceSlot c src block_size t = some row) : ¬ Resident c t := by
  intro hres
  have hstate : read c.token_state t = HBM_RESIDENT := hres
  unfold sourceSlot at h
  rw [hstate, if_neg (by decide), if_neg (fun h => absurd h.1 (by decide))] at h
  cases h

/-- An install, with what becomes of the popped slot. -/
theorem install_cases (src : Source α β) (hc : Tabled c) (hp : Pool c) (ht : t < c.max_seq_len) (row : ℤ) :
    (∃ e, installTokenToManagedCache src t row c = .error e c ∧ c.free_slot_count ≤ 0) ∨
    (∃ e, installTokenToManagedCache src t row c = .error e c.popped ∧ 0 < c.free_slot_count ∧
      ¬ Copies c src row c.top) ∨
    ∃ (row' slot : ℕ), row = row' ∧
      installTokenToManagedCache src t row c = .ok (slot : ℤ) (c.installed src t row' slot) ∧
      0 < c.free_slot_count ∧ c.top = slot ∧ Copies c src row' slot := by
  by_cases hpos : 0 < c.free_slot_count
  · obtain ⟨slot, hslot, hslotlt⟩ := hp.top_slot hc hpos
    by_cases hcopies : Copies c src row c.top
    · obtain ⟨row', rfl⟩ := Int.eq_ofNat_of_zero_le hcopies.source_nonneg
      rw [hslot] at hcopies
      exact Or.inr (Or.inr ⟨row', slot, rfl,
        install_ok hc ht hpos hp.count_le hslot hslotlt hcopies, hpos, hslot, hcopies⟩)
    · have hcopies' : ¬ Copies c.popped src row c.top := fun h =>
        hcopies ⟨h.1, h.2, h.3, h.4, h.5, h.6⟩
      obtain ⟨e, he⟩ := copyFullKvPair_error hcopies'
      refine Or.inr (Or.inl ⟨e, ?_, hpos, hcopies⟩)
      unfold installTokenToManagedCache
      rw [bind_ok (popFreeSlot_ok hpos (by rw [hc.stack_length]; exact hp.count_le))]
      exact bind_error he
  · refine Or.inl ⟨.RuntimeError "free_slot_stack does not have enough slots", ?_, by omega⟩
    unfold installTokenToManagedCache
    refine bind_error ?_
    unfold popFreeSlot
    rw [get_bind, if_pos (by omega)]
    rfl

/-- **A turn.** -/
theorem resolveToken_turn (hc : Tabled c) (hp : Pool c) (src : Source α β) (n : ℤ) (block_size : ℕ)
    (t : ℤ) : Turn src n block_size t c (resolveToken src n block_size t c) := by
  unfold resolveToken
  by_cases hrange : t < 0 ∨ t ≥ n
  · rw [if_pos hrange]
    exact Turn.refused _ (Or.inl fun h => by have := h.nonneg; have := h.lt_len; omega)
  rw [if_neg hrange, get_bind]
  by_cases hmax : t < c.max_seq_len
  · have hin : InTables c n t := ⟨by omega, by omega, hmax⟩
    have ht : t.toNat < c.max_seq_len := by omega
    rw [bind_ok (tensorValue_ok (by rw [hc.state_length]; exact ht))]
    -- installing is the same from either source
    have hinstall : ∀ row, sourceSlot c src block_size t.toNat = some row →
        Turn src n block_size t c (installTokenToManagedCache src t.toNat row c) := by
      intro row hrow
      rcases install_cases src hc hp ht row with ⟨e, he, hzero⟩ | ⟨e, he, hpos, hcopies⟩ |
        ⟨row', slot, rfl, he, hpos, hslot, hcopies⟩
      · rw [he]
        exact Turn.refused e (Or.inr ⟨sourceSlot_not_resident hrow, Or.inr hzero⟩)
      · rw [he]
        exact Turn.lost e hin hrow hpos hcopies
      · rw [he]
        exact Turn.installed hin hrow hpos hslot hcopies
    by_cases hres : read c.token_state t.toNat = HBM_RESIDENT
    · rw [if_pos hres, tensorValue_ok (by rw [hc.slot_length]; exact ht)]
      exact Turn.resident hin hres
    rw [if_neg hres]
    by_cases hasu : read c.token_state t.toNat = ASU_ONLY
    · rw [if_pos hasu, bind_ok (tensorValue_ok (by rw [hc.addr_length]; exact ht))]
      exact hinstall _ (if_pos hasu)
    rw [if_neg hasu]
    by_cases htail : read c.token_state t.toNat = TAIL_HBM
    · rw [if_pos htail]
      by_cases hblock : t.toNat / block_size < src.original_block_table.length
      · rw [bind_ok (resolveTailSourceSlot_ok hblock)]
        refine hinstall _ ?_
        unfold sourceSlot
        rw [if_neg hasu, if_pos ⟨htail, hblock⟩]
      · have hnone : sourceSlot c src block_size t.toNat = none := by
          unfold sourceSlot
          rw [if_neg hasu, if_neg fun h => hblock h.2]
        have herr : ∃ e, resolveTailSourceSlot src t.toNat block_size c = .error e c := by
          unfold resolveTailSourceSlot
          rw [if_pos (by omega)]
          exact ⟨_, rfl⟩
        obtain ⟨e, he⟩ := herr
        rw [bind_error he]
        exact Turn.refused e (Or.inr ⟨hres, Or.inl hnone⟩)
    · rw [if_neg htail]
      refine Turn.refused _ (Or.inr ⟨hres, Or.inl ?_⟩)
      unfold sourceSlot
      rw [if_neg hasu, if_neg fun h => htail h.1]
  · have herr : ∃ e, tensorValue c.token_state t.toNat c = .error e c := by
      unfold tensorValue checkIndex
      rw [if_neg (by rw [hc.state_length]; omega)]
      exact ⟨_, rfl⟩
    obtain ⟨e, he⟩ := herr
    rw [bind_error he]
    exact Turn.refused e (Or.inl fun h => hmax h.lt_max)

end

end AsuAscend.Decode
