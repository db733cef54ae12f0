/-
The slot pool of a layer context: the free stack below `free_slot_count` and the
slots owned by resident tokens share out the managed cache.

A reset makes the pool (`Pool.reset`), installing a token moves one slot from the
stack to the token (`Pool.installed`) and leaves the other tokens' slots and data
alone (`installed_kept`), and with at least as many slots as token positions the
stack cannot be empty while a token is not resident (`Pool.free_pos`).

## The pool as a partition

`Pool` says that each slot is free or belongs to exactly one resident token. Three fields are about
the stack below `free_slot_count` (its length, no repetitions, slots of the cache), two about what
the residents own, and the last two tell the two kinds apart and exhaust the slots between them.
The entries of the stack above the count are what earlier pops have left there, and mean nothing.
-/
import AsuAscend.Decode.Resolver
import Mathlib.Data.Finset.Card

set_option autoImplicit false

open MachineWords SentinelTable StateExcept

namespace AsuAscend.Decode

variable {α β : Type}

def Resident (c : Context α β) (t : ℕ) : Prop := read c.token_state t = HBM_RESIDENT

instance (c : Context α β) (t : ℕ) : Decidable (Resident c t) :=
  inferInstanceAs (Decidable (_ = _))

/-- Every other state of a token says that it has no slot. -/
theorem not_resident_of_state {c : Context α β} {t : ℕ} {state : ℤ} (h : read c.token_state t = state)
    (hne : state ≠ HBM_RESIDENT) : ¬ Resident c t := by
  unfold Resident
  rw [h]
  exact hne

/-- The slot on top of the free stack. -/
def Context.top (c : Context α β) : ℤ := read c.free_slot_stack (c.free_slot_count - 1).toNat

/-- The slots on the free stack. -/
def freeSlots (c : Context α β) : List ℤ := c.free_slot_stack.take c.free_slot_count.toNat

/-- A slot of the managed cache holds the data of a row of the paged cache. -/
def HoldsRow (c : Context α β) (slot : ℕ) (src : Source α β) (row : ℕ) : Prop :=
  ∃ x y, src.original_kv_cache_0[row]? = some x ∧ src.original_kv_cache_1[row]? = some y ∧
    c.managed_kv_cache_0[slot]? = some x ∧ c.managed_kv_cache_1[slot]? = some y

/-- A slot that is left alone. -/
def SameSlot (c c' : Context α β) (slot : ℕ) : Prop :=
  c'.managed_kv_cache_0[slot]? = c.managed_kv_cache_0[slot]? ∧
    c'.managed_kv_cache_1[slot]? = c.managed_kv_cache_1[slot]?

/-- The free slots and the slots of the resident tokens are a partition of the
managed cache, and a resident token's slot names the token as its owner. -/
structure Pool (c : Context α β) : Prop where
  count_nonneg : 0 ≤ c.free_slot_count
  count_le : c.free_slot_count ≤ c.managed_slot_count
  free_nodup : (freeSlots c).Nodup
  free_range : ∀ s ∈ freeSlots c, 0 ≤ s ∧ s < c.managed_slot_count
  owned : ∀ t, Resident c t → 0 ≤ read c.hbm_slot_of_token t ∧
    read c.hbm_slot_of_token t < c.managed_slot_count ∧
    read c.slot_owner_token (read c.hbm_slot_of_token t).toNat = t
  disjoint : ∀ t, Resident c t → read c.hbm_slot_of_token t ∉ freeSlots c
  covered : ∀ s : ℕ, s < c.managed_slot_count → (s : ℤ) ∈ freeSlots c ∨
    ∃ t, Resident c t ∧ read c.hbm_slot_of_token t = s

section

variable {c : Context α β} {src : Source α β} {t row slot : ℕ}

/-- Only positions of the table can be resident; a read outside gives no state at all. -/
theorem Resident.lt (hc : Tabled c) (h : Resident c t) : t < c.max_seq_len := by
  by_contra hge
  unfold Resident at h
  rw [read_of_ge (by rw [hc.state_length]; omega)] at h
  exact absurd h (by decide)

/-- Two resident tokens never share a slot. -/
theorem Pool.slot_inj (h : Pool c) {u : ℕ} (ht : Resident c t) (hu : Resident c u)
    (heq : read c.hbm_slot_of_token t = read c.hbm_slot_of_token u) : t = u := by
  have h1 := (h.owned t ht).2.2
  have h2 := (h.owned u hu).2.2
  rw [heq, h2] at h1
  omega

/-- While a token is not resident, a slot is left for it. -/
theorem Pool.free_pos (hc : Shaped c) (h : Pool c) (hM : c.max_seq_len ≤ c.managed_slot_count)
    (ht : t < c.max_seq_len) (hn : ¬ Resident c t) : 0 < c.free_slot_count := by
  by_contra hle
  have hempty : freeSlots c = [] := by
    unfold freeSlots
    rw [show c.free_slot_count.toNat = 0 by omega, List.take_zero]
  -- otherwise every slot has an owner, and the owners miss `t`
  have hall : ∀ s : ℕ, s < c.managed_slot_count →
      ∃ u, Resident c u ∧ read c.hbm_slot_of_token u = s := by
    intro s hs
    rcases h.covered s hs with hmem | hu
    · rw [hempty] at hmem; cases hmem
    · exact hu
  choose! owner howner using hall
  have hcard : (Finset.range c.managed_slot_count).card ≤
      ((Finset.range c.max_seq_len).erase t).card := by
    apply Finset.card_le_card_of_injOn owner
    · intro s hs
      rw [Finset.mem_coe, Finset.mem_range] at hs
      have hres := (howner s hs).1
      rw [Finset.mem_coe, Finset.mem_erase, Finset.mem_range]
      exact ⟨fun heq => hn (heq ▸ hres), hres.lt hc.tabled⟩
    · intro s hs s' hs' heq
      rw [Finset.mem_coe, Finset.mem_range] at hs hs'
      have h1 := (howner s hs).2
      have h2 := (howner s' hs').2
      rw [heq, h2] at h1
      omega
  rw [Finset.card_range, Finset.card_erase_of_mem (Finset.mem_range.mpr ht), Finset.card_range]
    at hcard
  omega

/-- The pool lies in the stack, the residents and the two slot tables. -/
theorem Pool.congr (h : Pool c) {c' : Context α β} (hfree : freeSlots c' = freeSlots c)
    (hcount : c'.free_slot_count = c.free_slot_count)
    (hslots : c'.managed_slot_count = c.managed_slot_count)
    (hslot : c'.hbm_slot_of_token = c.hbm_slot_of_token)
    (howner : c'.slot_owner_token = c.slot_owner_token)
    (hres : ∀ t, Resident c' t ↔ Resident c t) : Pool c' := by
  constructor
  · rw [hcount]
    exact h.count_nonneg
  · rw [hcount, hslots]
    exact h.count_le
  · rw [hfree]
    exact h.free_nodup
  · rw [hfree, hslots]
    exact h.free_range
  · intro t ht
    rw [hslot, howner, hslots]
    exact h.owned t ((hres t).mp ht)
  · intro t ht
    rw [hslot, hfree]
    exact h.disjoint t ((hres t).mp ht)
  · intro s hs
    rw [hfree, hslot]
    exact (h.covered s (hslots ▸ hs)).imp_right fun ⟨t, ht, heq⟩ => ⟨t, (hres t).mpr ht, heq⟩

/-! ## After a reset -/

theorem reset_notResident (hc : Tabled c) (req_id : String) (n pre : ℤ) (block_table : List ℤ) :
    ∀ t, ¬ Resident (c.reset req_id n pre block_table) t := by
  intro t h
  have hlt : t < (c.reset req_id n pre block_table).max_seq_len := h.lt hc.reset
  unfold Resident at h
  rw [reset_state hc hlt] at h
  split_ifs at h <;> exact absurd h (by decide)

/-- All slots on the stack, and no token resident. -/
theorem Pool.full (hnone : ∀ t, ¬ Resident c t) (hcount : c.free_slot_count = c.managed_slot_count)
    (hstack : c.free_slot_stack = (List.range c.managed_slot_count).map fun i : ℕ => (i : ℤ)) :
    Pool c := by
  have hfree : freeSlots c = (List.range c.managed_slot_count).map fun i : ℕ => (i : ℤ) := by
    unfold freeSlots
    rw [hstack]
    apply List.take_of_length_le
    simp [hcount]
  constructor
  · omega
  · omega
  · rw [hfree]
    exact List.nodup_range.map fun a b hab => by exact_mod_cast hab
  · intro s hs
    rw [hfree] at hs
    obtain ⟨i, hi, rfl⟩ := List.mem_map.mp hs
    rw [List.mem_range] at hi
    exact ⟨by omega, by exact_mod_cast hi⟩
  · exact fun t ht => absurd ht (hnone t)
  · exact fun t ht => absurd ht (hnone t)
  · intro s hs
    rw [hfree]
    exact Or.inl (List.mem_map.mpr ⟨s, List.mem_range.mpr hs, rfl⟩)

/-- So all slots are free again, and the pool is whole. -/
theorem Pool.reset (hc : Tabled c) {req_id : String} {n pre : ℤ} {block_table : List ℤ} :
    Pool (c.reset req_id n pre block_table) :=
  Pool.full (reset_notResident hc req_id n pre block_table) rfl rfl

/-! ## After an install -/

theorem Shaped.installed (hc : Shaped c) : Shaped (c.installed src t row slot) := by
  constructor
  · exact hc.block_pos
  · simpa [Context.installed] using hc.state_length
  · exact hc.addr_length
  · simpa [Context.installed] using hc.slot_length
  · simpa [Context.installed] using hc.owner_length
  · exact hc.stack_length
  · simpa [Context.installed, copyRow_length] using hc.cache_0_length
  · simpa [Context.installed, copyRow_length] using hc.cache_1_length

theorem Tabled.installed (hc : Tabled c) : Tabled (c.installed src t row slot) := by
  constructor
  · simpa [Context.installed] using hc.state_length
  · exact hc.addr_length
  · simpa [Context.installed] using hc.slot_length
  · simpa [Context.installed] using hc.owner_length
  · exact hc.stack_length

/-- The state table after an install: its token is resident now. -/
theorem installed_state (hc : Tabled c) (ht : t < c.max_seq_len) (u : ℕ) :
    read (c.installed src t row slot).token_state u =
      if u = t then HBM_RESIDENT else read c.token_state u :=
  read_set (by rw [hc.state_length]; exact ht) _ _

theorem installed_slot (hc : Tabled c) (ht : t < c.max_seq_len) (u : ℕ) :
    read (c.installed src t row slot).hbm_slot_of_token u =
      if u = t then (slot : ℤ) else read c.hbm_slot_of_token u :=
  read_set (by rw [hc.slot_length]; exact ht) _ _

theorem installed_resident (hc : Tabled c) (ht : t < c.max_seq_len) {u : ℕ} :
    Resident (c.installed src t row slot) u ↔ u = t ∨ Resident c u := by
  unfold Resident
  rw [installed_state hc ht]
  split_ifs with hu
  · simp [hu]
  · simp [hu]

/-- The stack before an install is the stack after it and the slot that was taken. -/
theorem freeSlots_pop (hc : Tabled c) (h : Pool c) (src : Source α β) (t row : ℕ)
    (hpos : 0 < c.free_slot_count)
    (hslot : read c.free_slot_stack (c.free_slot_count - 1).toNat = slot) :
    freeSlots c = freeSlots (c.installed src t row slot) ++ [(slot : ℤ)] := by
  have hlen := hc.stack_length
  have hle := h.count_le
  have hlt : (c.free_slot_count - 1).toNat < c.free_slot_stack.length := by omega
  have hsucc : c.free_slot_count.toNat = (c.free_slot_count - 1).toNat + 1 := by omega
  unfold freeSlots
  rw [hsucc, List.take_succ_eq_append_getElem hlt, ← read_of_lt hlt, hslot]
  rfl

/-- The entry on top of the stack is a slot, and a free one. -/
theorem Pool.slot_free (hc : Tabled c) (h : Pool c) (hpos : 0 < c.free_slot_count)
    (hslot : read c.free_slot_stack (c.free_slot_count - 1).toNat = slot) :
    (slot : ℤ) ∈ freeSlots c ∧ slot < c.managed_slot_count := by
  have hlt : (c.free_slot_count - 1).toNat < c.free_slot_stack.length := by
    have := hc.stack_length
    have := h.count_le
    omega
  have hmem : (slot : ℤ) ∈ freeSlots c := by
    rw [← hslot, read_of_lt hlt]
    exact List.mem_take_iff_getElem.mpr ⟨_, by omega, rfl⟩
  exact ⟨hmem, by exact_mod_cast (h.free_range _ hmem).2⟩

/-- The top of a pool's stack is a slot. -/
theorem Pool.top_slot (hc : Tabled c) (h : Pool c) (hpos : 0 < c.free_slot_count) :
    ∃ slot : ℕ, c.top = slot ∧ slot < c.managed_slot_count := by
  have hlen := hc.stack_length
  have hcount := h.count_le
  have hlt : (c.free_slot_count - 1).toNat < c.free_slot_stack.length := by omega
  have hmem : c.top ∈ freeSlots c := by
    unfold Context.top
    rw [read_of_lt hlt]
    exact List.mem_take_iff_getElem.mpr ⟨_, by omega, rfl⟩
  obtain ⟨h0, h1⟩ := h.free_range _ hmem
  exact ⟨c.top.toNat, (Int.toNat_of_nonneg h0).symm, by omega⟩

/-- **An install keeps the pool whole**: the slot on top goes over from the free ones to those
of residents. -/
theorem Pool.installed (hc : Tabled c) (h : Pool c) (ht : t < c.max_seq_len) (hn : ¬ Resident c t)
    (hpos : 0 < c.free_slot_count)
    (hslot : read c.free_slot_stack (c.free_slot_count - 1).toNat = slot) :
    Pool (c.installed src t row slot) := by
  have hpop := freeSlots_pop hc h src t row hpos hslot
  obtain ⟨hfree, hslotlt⟩ := h.slot_free hc hpos hslot
  have hnd := h.free_nodup
  rw [hpop, List.nodup_append] at hnd
  have hsub : ∀ s ∈ freeSlots (c.installed src t row slot), s ∈ freeSlots c := by
    intro s hs
    rw [hpop]
    exact List.mem_append_left _ hs
  -- no other resident token has the slot that was taken
  have hother : ∀ u, Resident c u → read c.hbm_slot_of_token u ≠ (slot : ℤ) := by
    intro u hu heq
    exact h.disjoint u hu (by rw [heq]; exact hfree)
  constructor
  · show 0 ≤ c.free_slot_count - 1
    omega
  · show c.free_slot_count - 1 ≤ c.managed_slot_count
    have := h.count_le
    omega
  · exact hnd.1
  · exact fun s hs => h.free_range s (hsub s hs)
  · intro u hu
    rw [installed_resident hc ht] at hu
    rw [installed_slot hc ht]
    have howner : ∀ s : ℕ, read (c.installed src t row slot).slot_owner_token s =
        if s = slot then (t : ℤ) else read c.slot_owner_token s :=
      fun s => read_set (by rw [hc.owner_length]; exact hslotlt) _ _
    split_ifs with hut
    · refine ⟨by omega, by exact_mod_cast hslotlt, ?_⟩
      rw [howner, if_pos (Int.toNat_natCast slot), hut]
    · have hu := hu.resolve_left hut
      obtain ⟨h0, h1, h2⟩ := h.owned u hu
      refine ⟨h0, h1, ?_⟩
      have hne := hother u hu
      rw [howner, if_neg (by omega), h2]
  · intro u hu hmem
    rw [installed_resident hc ht] at hu
    rw [installed_slot hc ht] at hmem
    split_ifs at hmem with hut
    · exact hnd.2.2 _ hmem _ (by simp) rfl
    · exact h.disjoint u (hu.resolve_left hut) (hsub _ hmem)
  · intro s hs
    have hcov := h.covered s hs
    rw [hpop] at hcov
    rcases hcov with hmem | ⟨u, hu, hus⟩
    · rcases List.mem_append.mp hmem with hmem | hmem
      · exact Or.inl hmem
      · refine Or.inr ⟨t, (installed_resident hc ht).mpr (Or.inl rfl), ?_⟩
        rw [installed_slot hc ht, if_pos rfl, ← List.mem_singleton.mp hmem]
    · refine Or.inr ⟨u, (installed_resident hc ht).mpr (Or.inr hu), ?_⟩
      have hut : u ≠ t := by
        rintro rfl
        exact hn hu
      rw [installed_slot hc ht, if_neg hut, hus]

/-- After an install the other resident tokens have their slots and data. -/
theorem installed_kept (hc : Tabled c) (hp : Pool c) (src : Source α β) {u row slot : ℕ}
    (hu : u < c.max_seq_len) (hpos : 0 < c.free_slot_count) (hslot : c.top = slot)
    (hcopies : Copies c src row slot) {t : ℕ} (ht : Resident c t) (htu : t ≠ u) :
    Resident (c.installed src u row slot) t ∧
      read (c.installed src u row slot).hbm_slot_of_token t = read c.hbm_slot_of_token t ∧
      SameSlot c (c.installed src u row slot) (read c.hbm_slot_of_token t).toNat := by
  have hfree := (hp.slot_free hc hpos hslot).1
  have hne : (read c.hbm_slot_of_token t).toNat ≠ slot := by
    intro heq
    have hnonneg := (hp.owned t ht).1
    refine hp.disjoint t ht ?_
    rw [show read c.hbm_slot_of_token t = slot by omega]
    exact hfree
  have hrow_0 := hcopies.source_lt_0
  have hrow_1 := hcopies.source_lt_1
  have hslot_0 := hcopies.slot_lt_0
  have hslot_1 := hcopies.slot_lt_1
  refine ⟨(installed_resident hc hu).mpr (Or.inr ht), ?_, ?_, ?_⟩
  · rw [installed_slot hc hu, if_neg htu]
  · exact (copyRow_get (by omega) (List.getElem?_eq_getElem (by omega)) _).trans (if_neg hne)
  · exact (copyRow_get (by omega) (List.getElem?_eq_getElem (by omega)) _).trans (if_neg hne)

/-- The slot holds the row it was copied from. -/
theorem installed_holds {u row slot : ℕ} (hcopies : Copies c src row slot) :
    HoldsRow (c.installed src u row slot) slot src row := by
  have hrow_0 := hcopies.source_lt_0
  have hrow_1 := hcopies.source_lt_1
  have hslot_0 := hcopies.slot_lt_0
  have hslot_1 := hcopies.slot_lt_1
  have hget_0 := List.getElem?_eq_getElem (l := src.original_kv_cache_0) (i := row) (by omega)
  have hget_1 := List.getElem?_eq_getElem (l := src.original_kv_cache_1) (i := row) (by omega)
  refine ⟨_, _, hget_0, hget_1, ?_, ?_⟩
  · exact (copyRow_get (by omega) hget_0 slot).trans (if_pos rfl)
  · exact (copyRow_get (by omega) hget_1 slot).trans (if_pos rfl)

/-! ## After a mark -/

/-- A mark makes no token resident, and the marked one was not. -/
theorem mark_resident (ht : t < c.token_state.length) (hn : ¬ Resident c t) (u : ℕ) :
    read (c.token_state.set t TAIL_HBM) u = HBM_RESIDENT ↔ Resident c u := by
  rw [read_set ht]
  split_ifs with hu
  · subst hu
    exact ⟨fun heq => absurd heq (by decide), fun hr => absurd hr hn⟩
  · rfl

end

end AsuAscend.Decode
