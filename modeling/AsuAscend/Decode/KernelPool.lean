/-
The slot pool of a context that the NPU kernel works on, over any run of resets, marks and
kernel calls.

The kernel lowers `free_slot_count` and then reads the stack there; the Python resolver looks
first whether a slot is left. So the pool is safe in a run only if it never runs out: at each
call, the distinct tokens asked for since the last reset are not more than the managed slots
(`kernel_pool`). While that holds, the run keeps the accounts of `SlotPool` (`Accounts`), turn
by turn (`During`).

## The budget

A turn pops a slot when its token is not resident, so that a call pops as many as it brings in new
tokens, and since the last reset no token is brought in twice. The accounts identify the tokens
asked for with the resident ones; the free slots are those that are left, and with fewer tokens
than slots there is one (`Accounts.count`).

The converse is about runs whose calls find a source for each token that they install: there the
last turn that is short of a slot reads the stack in front of its beginning.
-/
import AsuAscend.Lib.PartialRuns
import AsuAscend.Decode.Kernel
import AsuAscend.Decode.SlotPool

set_option autoImplicit false

open FlatMemory MachineWords PartialRuns SentinelTable StateExcept

namespace AsuAscend.Decode.Kernel

variable {T : Type}

/-! ## Runs -/

/-- What a kernel call is given besides the context. All caches are flat here. -/
structure Call (T : Type) where
  src : Source T T
  topk : List ℤ
  tiling : TilingData
  resolved : List ℤ

/-- The global memory of a call, with `resolved` in the output. -/
def Call.memory (a : Call T) (resolved : List ℤ) (c : Context T T) : GlobalMemory T where
  originalTopkIndicesGm := a.topk
  tokenStateGm := c.token_state
  asuRecordAddrGm := c.asu_record_addr
  hbmSlotOfTokenGm := c.hbm_slot_of_token
  slotOwnerTokenGm := c.slot_owner_token
  freeSlotStackGm := c.free_slot_stack
  freeSlotCountGm := [c.free_slot_count]
  originalBlockTableGm := a.src.original_block_table
  originalKvCache0Gm := a.src.original_kv_cache_0
  originalKvCache1Gm := a.src.original_kv_cache_1
  managedKvCache0Gm := c.managed_kv_cache_0
  managedKvCache1Gm := c.managed_kv_cache_1
  resolvedKvSlotsGm := resolved

/-- The context with the tensors as the kernel has left them. -/
def takeBack (c : Context T T) (gm : GlobalMemory T) : Context T T :=
  { c with
    managed_kv_cache_0 := gm.managedKvCache0Gm
    managed_kv_cache_1 := gm.managedKvCache1Gm
    token_state := gm.tokenStateGm
    asu_record_addr := gm.asuRecordAddrGm
    hbm_slot_of_token := gm.hbmSlotOfTokenGm
    slot_owner_token := gm.slotOwnerTokenGm
    free_slot_stack := gm.freeSlotStackGm
    free_slot_count := read gm.freeSlotCountGm 0 }

inductive Op (T : Type) where
  | reset (req_id : String) (actual_seq_len managed_prefix_len : ℤ) (block_table : List ℤ)
  | mark (token_id : ℤ)
  | call (a : Call T)

/-- An exception of the first two leaves the context to the rest of the run; a kernel call that
leaves a buffer has no result. -/
def stepOp : Op T → Context T T → Option (Context T T)
  | .reset req_id n pre block_table, c => some (after (resetState req_id n pre block_table c))
  | .mark token_id, c => some (after (markDecodeToken token_id c))
  | .call a, c => (process a.tiling (a.memory a.resolved c)).map (takeBack c)

/-- A context as `from_kv_caches` makes it, with its caches flat. -/
def newContext (max_seq_len block_size slots : ℕ) (cache_0 cache_1 : List T) : Context T T :=
  { freshContext max_seq_len block_size (List.replicate slots ()) (List.replicate slots ()) with
    managed_kv_cache_0 := cache_0
    managed_kv_cache_1 := cache_1 }

/-- The tokens of a call are tokens of the sequence, and a mark is of a token at or past its
end. -/
def Op.Valid : Op T → Context T T → Prop
  | .reset _ _ _ _, _ => True
  | .mark token_id, c => c.actual_seq_len ≤ token_id
  | .call a, c => a.tiling.topkNumel = a.topk.length ∧ ∀ t ∈ a.topk, 0 ≤ t ∧ t < c.actual_seq_len

/-- A call on caches that have their slots, in which each token that is not resident has a source
row. -/
structure Call.Sourced (a : Call T) (e0 e1 : ℕ) (c : Context T T) : Prop where
  output : a.resolved.length = a.topk.length
  kv0 : a.tiling.kv0SlotElements = e0
  kv1 : a.tiling.kv1SlotElements = e1
  managed_0 : c.managed_kv_cache_0.length = c.managed_slot_count * e0
  managed_1 : c.managed_kv_cache_1.length = c.managed_slot_count * e1
  managed_lt : c.managed_kv_cache_0.length < 2 ^ 63 ∧ c.managed_kv_cache_1.length < 2 ^ 63
  original_lt : a.src.original_kv_cache_0.length < 2 ^ 63 ∧ a.src.original_kv_cache_1.length < 2 ^ 63
  source : ∀ t : ℕ, (t : ℤ) ∈ a.topk → read c.token_state t ≠ HBM_RESIDENT → ∃ row : ℕ,
    (if read c.token_state t = ASU_ONLY then load c.asu_record_addr t
      else resolveTailSourceSlot a.tiling (a.memory a.resolved c) t) = some (row : ℤ) ∧
    (row + 1) * e0 ≤ a.src.original_kv_cache_0.length ∧
    (row + 1) * e1 ≤ a.src.original_kv_cache_1.length

def Op.Sourced : Op T → Context T T → Prop
  | .call a, c => ∃ e0 e1, a.Sourced e0 e1 c
  | _, _ => True

instance : ∀ (op : Op T) (c : Context T T), Decidable (op.Valid c)
  | .reset _ _ _ _, _ => isTrue trivial
  | .mark token_id, c => inferInstanceAs (Decidable (c.actual_seq_len ≤ token_id))
  | .call a, c => inferInstanceAs (Decidable (a.tiling.topkNumel = a.topk.length ∧
      ∀ t ∈ a.topk, 0 ≤ t ∧ t < c.actual_seq_len))

/-! ## What is asked of the pool -/

/-- `PopFreeSlot` reads the stack at a place below the count, leaves the place as the count, and
hands out a slot of the cache that no resident token has. -/
def PopSafe (slots : ℕ) (gm : GlobalMemory T) : Prop :=
  ∃ place slot gm', popFreeSlot gm = some (slot, gm') ∧ load gm.freeSlotStackGm place = some slot ∧
    read gm'.freeSlotCountGm 0 = place ∧ 0 ≤ place ∧ place < read gm.freeSlotCountGm 0 ∧
    0 ≤ slot ∧ slot < slots ∧
    ∀ u, read gm.tokenStateGm u = HBM_RESIDENT → read gm.hbmSlotOfTokenGm u ≠ slot

/-- The turn of a token that is not resident calls `PopFreeSlot`. -/
def TurnSafe (slots i : ℕ) (gm : GlobalMemory T) : Prop :=
  ∀ tokenId state, load gm.originalTopkIndicesGm i = some tokenId →
    load gm.tokenStateGm tokenId = some state → state ≠ HBM_RESIDENT → PopSafe slots gm

/-- Every turn of the loop of `Process` that a call comes to. -/
def OpSafe (slots : ℕ) : Op T → Context T T → Prop
  | .call a, c => Throughout (fun i gm => processIndex a.tiling gm i) (TurnSafe slots)
      (List.range a.tiling.topkNumel.toNat) (a.memory a.resolved c)
  | _, _ => True

/-- A reset that passes the checks forgets what was asked for. -/
def askedAfter (max_seq_len : ℕ) (asked : List ℤ) : Op T → List ℤ
  | .reset _ n pre _ => if 0 ≤ pre ∧ pre ≤ n ∧ n ≤ max_seq_len then [] else asked
  | .mark _ => asked
  | .call a => asked ++ a.topk

/-- The tokens asked for since the last reset. -/
def asked (max_seq_len : ℕ) (ops : List (Op T)) : List ℤ := ops.foldl (askedAfter max_seq_len) []

/-! ## The accounts -/

/-- The ledger, with the tokens asked for since the last reset: those and no others are
resident. -/
structure Accounts (max_seq_len slots : ℕ) (asked : List ℤ) (c : Context T T) : Prop where
  ledger : ∃ spent, Ledger spent c
  mem : ∀ z, z ∈ asked ↔ ∃ t : ℕ, z = t ∧ Resident c t
  len_le : c.actual_seq_len ≤ max_seq_len
  max_eq : c.max_seq_len = max_seq_len
  slots_eq : c.managed_slot_count = slots

section

variable {max_seq_len slots : ℕ} {asked : List ℤ} {c c' : Context T T} {a : Call T}
  {resolved : List ℤ} {t : ℕ}

/-- **The free slots are counted by the tokens asked for.** -/
theorem Accounts.count (h : Accounts max_seq_len slots asked c) :
    c.free_slot_count + (asked.toFinset.card : ℤ) = slots := by
  obtain ⟨spent, hledger⟩ := h.ledger
  have hasked : asked.toFinset = spent.toFinset.image fun t : ℕ => (t : ℤ) := by
    ext z
    rw [List.mem_toFinset, h.mem, Finset.mem_image]
    constructor
    · rintro ⟨t, rfl, ht⟩
      exact ⟨t, List.mem_toFinset.mpr ((hledger.mem t).mpr ht), rfl⟩
    · rintro ⟨t, ht, rfl⟩
      exact ⟨t, rfl, (hledger.mem t).mp (List.mem_toFinset.mp ht)⟩
  have hcard : asked.toFinset.card = spent.length := by
    rw [hasked, Finset.card_image_of_injective _ Nat.cast_injective,
      List.toFinset_card_of_nodup hledger.nodup]
  rw [hcard, ← h.slots_eq]
  exact hledger.count

/-- A new context has all slots free and nobody to account for. -/
theorem Accounts.fresh {max_seq_len block_size slots : ℕ} {cache_0 cache_1 : List T} :
    Accounts max_seq_len slots [] (newContext max_seq_len block_size slots cache_0 cache_1) where
  ledger := ⟨[], ledger_fresh.recached cache_0 cache_1⟩
  mem _ := ⟨fun h => (nomatch h), fun ⟨t, _, ht⟩ => absurd ht (replicate_notResident max_seq_len t)⟩
  len_le := Int.natCast_nonneg _
  max_eq := rfl
  slots_eq := List.length_replicate

/-- Nothing has been asked for since a reset that passed the checks. -/
theorem Accounts.empty (h : Ledger [] c) (hlen : c.actual_seq_len ≤ max_seq_len)
    (hmax : c.max_seq_len = max_seq_len) (hslots : c.managed_slot_count = slots) :
    Accounts max_seq_len slots [] c where
  ledger := ⟨[], h⟩
  mem _ := ⟨fun h => (nomatch h), fun ⟨t, _, ht⟩ => (nomatch (h.mem t).mpr ht)⟩
  len_le := hlen
  max_eq := hmax
  slots_eq := hslots

/-- A reset clears the accounts, also where it raises on the block table; where it raises on its
other arguments it leaves them. -/
theorem Accounts.reset (h : Accounts max_seq_len slots asked c) (req_id : String) (n pre : ℤ)
    (block_table : List ℤ) :
    Accounts max_seq_len slots (askedAfter max_seq_len asked (.reset req_id n pre block_table : Op T))
      (after (resetState req_id n pre block_table c)) := by
  obtain ⟨spent, hledger⟩ := h.ledger
  have hmax := h.max_eq
  show Accounts _ _ (if 0 ≤ pre ∧ pre ≤ n ∧ n ≤ max_seq_len then [] else asked) _
  rcases resetState_cases c req_id n pre block_table with
    ⟨e, he, hno⟩ | ⟨e, he, hlen, hpre, -⟩ | ⟨hargs, hok⟩
  · rw [if_neg (hmax ▸ hno), he]
    exact h
  · rw [if_pos ⟨by omega, by omega, by omega⟩, he]
    exact Accounts.empty (hledger.emptied req_id n pre) (hmax ▸ hlen.2) hmax h.slots_eq
  · have hlen := hargs.len_le
    rw [if_pos ⟨hargs.pre_nonneg, hargs.pre_le, by omega⟩, hok]
    exact Accounts.empty (hledger.afterReset req_id n pre block_table) (hmax ▸ hlen) hmax h.slots_eq

/-- A mark of a token past the end brings nobody into the cache. -/
theorem Accounts.mark (h : Accounts max_seq_len slots asked c) {z : ℤ} (hz : c.actual_seq_len ≤ z) :
    Accounts max_seq_len slots asked (after (markDecodeToken z c)) := by
  obtain ⟨spent, hledger⟩ := h.ledger
  have hmax := h.max_eq
  by_cases hrange : z < 0 ∨ z ≥ c.max_seq_len
  · obtain ⟨e, he⟩ := markDecodeToken_error hrange
    rw [he]
    exact h
  · have hok : markDecodeToken z c = _ := markDecodeToken_ok z (by omega) (by omega)
    have hmarked := hledger.mark hz hok
    rw [hok]
    refine ⟨⟨spent, hmarked⟩, fun u => ?_, ?_, hmax, h.slots_eq⟩
    · -- the same tokens have spent the same slots
      rw [h.mem]
      exact exists_congr fun t => and_congr_right fun _ => (hledger.mem t).symm.trans (hmarked.mem t)
    · have := h.len_le
      show max c.actual_seq_len (z + 1) ≤ max_seq_len
      omega

/-! ## A turn -/

/-- The context after the kernel has given `slot` to token `t`. -/
def handed (c : Context T T) (t slot : ℕ) (cache_0 cache_1 : List T) : Context T T :=
  { c with
    managed_kv_cache_0 := cache_0
    managed_kv_cache_1 := cache_1
    token_state := c.token_state.set t HBM_RESIDENT
    hbm_slot_of_token := c.hbm_slot_of_token.set t slot
    slot_owner_token := c.slot_owner_token.set slot t
    free_slot_count := c.free_slot_count - 1 }

/-- What a turn on token `t` does to the context. -/
inductive KernelTurn (c : Context T T) (t : ℕ) : Context T T → Prop
  | resident (h : Resident c t) : KernelTurn c t c
  | handed {slot : ℕ} {cache_0 cache_1 : List T} (hnew : ¬ Resident c t)
      (hpos : 0 < c.free_slot_count) (htop : c.top = slot)
      (h0 : cache_0.length = c.managed_kv_cache_0.length)
      (h1 : cache_1.length = c.managed_kv_cache_1.length) :
      KernelTurn c t (handed c t slot cache_0 cache_1)

/-- **A turn** adds its token to those asked for, whether or not it takes a slot. -/
theorem Accounts.turn (h : Accounts max_seq_len slots asked c) (hlt : (t : ℤ) < c.actual_seq_len)
    (hturn : KernelTurn c t c') : Accounts max_seq_len slots (asked ++ [(t : ℤ)]) c' := by
  obtain ⟨spent, hledger⟩ := h.ledger
  have hlen := h.len_le
  have hmax := h.max_eq
  cases hturn with
  | resident hres =>
      refine ⟨⟨spent, hledger⟩, fun z => ?_, hlen, hmax, h.slots_eq⟩
      rw [List.mem_append, List.mem_singleton, ← h.mem, or_iff_left_of_imp]
      rintro rfl
      exact (h.mem t).mpr ⟨t, rfl, hres⟩
  | @handed slot cache_0 cache_1 hnew hpos htop =>
      -- but for the caches this is an install
      have hinstall : Ledger (spent ++ [t]) (c.installed ⟨[], [], []⟩ t 0 slot) :=
        hledger.installed _ (by omega) hlt hnew hpos htop
      have hinstalled : Ledger (spent ++ [t]) (handed c t slot cache_0 cache_1) :=
        hinstall.recached cache_0 cache_1
      refine ⟨⟨_, hinstalled⟩, fun z => ?_, hlen, hmax, h.slots_eq⟩
      simp only [← hinstalled.mem, List.mem_append, List.mem_singleton, h.mem, ← hledger.mem]
      constructor
      · rintro (⟨u, hu, hmem⟩ | rfl)
        · exact ⟨u, hu, Or.inl hmem⟩
        · exact ⟨t, rfl, Or.inr rfl⟩
      · rintro ⟨u, hu, hmem | rfl⟩
        · exact Or.inl ⟨u, hu, hmem⟩
        · exact Or.inr hu

/-- A token of the sequence has its place in the tables. -/
theorem Accounts.token_lt (h : Accounts max_seq_len slots asked c) (hlt : (t : ℤ) < c.actual_seq_len) :
    t < c.token_state.length := by
  obtain ⟨spent, hledger⟩ := h.ledger
  have hlen := h.len_le
  rw [hledger.tabled.state_length, h.max_eq]
  omega

/-- The place that a pop reads. -/
theorem Accounts.top (h : Accounts max_seq_len slots asked c) (hpos : 0 < c.free_slot_count) :
    ∃ place slot : ℕ, c.free_slot_count = (place : ℤ) + 1 ∧ place < c.free_slot_stack.length ∧
      read c.free_slot_stack place = slot ∧ c.top = slot ∧ slot < slots ∧
      ∀ u, Resident c u → read c.hbm_slot_of_token u ≠ slot := by
  obtain ⟨spent, hledger⟩ := h.ledger
  obtain ⟨slot, htop, hslot⟩ := hledger.pool.top_slot hledger.tabled hpos
  have hfree := (hledger.pool.slot_free hledger.tabled hpos htop).1
  have hstack := hledger.tabled.stack_length
  have hcount := hledger.pool.count_le
  refine ⟨(c.free_slot_count - 1).toNat, slot, by omega, by omega, htop, htop, h.slots_eq ▸ hslot, ?_⟩
  intro u hu heq
  exact hledger.pool.disjoint u hu (heq ▸ hfree)

/-- With a slot free the pop stays inside the stack. -/
theorem Accounts.popSafe (h : Accounts max_seq_len slots asked c) (hslots : slots < 2 ^ 31)
    (hpos : 0 < c.free_slot_count) : PopSafe slots (a.memory resolved c) := by
  obtain ⟨place, slot, hcount, hstack, hread, -, hlt, hother⟩ := h.top hpos
  have hbelow : c.free_slot_count ≤ slots := by
    have := h.count
    omega
  have hcell : (a.memory resolved c).freeSlotCountGm = [(place : ℤ) + 1] := by
    rw [← hcount]
    rfl
  refine ⟨place, slot, _, popFreeSlot_eq hcell (by omega) hstack hread, ?_, rfl, by omega, ?_, by omega,
    by omega, hother⟩
  · rw [← hread]
    exact load_read hstack
  · show (place : ℤ) < c.free_slot_count
    omega

/-- A turn on a token of the sequence, in the memory of a context whose accounts are kept: the slot
is there if it is needed, and the turn comes to nothing only at the source, in the two copies or at
the output. -/
theorem Accounts.processIndex_eq (h : Accounts max_seq_len slots asked c) (hslots : slots < 2 ^ 31)
    {i : ℕ} (htoken : load a.topk (i : ℤ) = some (t : ℤ)) (hlt : (t : ℤ) < c.actual_seq_len)
    (hpos : ¬ Resident c t → 0 < c.free_slot_count) :
    (Resident c t ∧ processIndex a.tiling (a.memory resolved c) i =
      (store resolved i (read c.hbm_slot_of_token t)).bind fun r => some (a.memory r c)) ∨
    ∃ slot : ℕ, ¬ Resident c t ∧ c.top = slot ∧ slot < slots ∧
      processIndex a.tiling (a.memory resolved c) i =
        (if read c.token_state t = ASU_ONLY then load c.asu_record_addr t
          else resolveTailSourceSlot a.tiling (a.memory resolved c) t).bind fun sourceSlot =>
        (copySlot a.src.original_kv_cache_0 c.managed_kv_cache_0 sourceSlot slot
          a.tiling.kv0SlotElements).bind fun cache_0 =>
        (copySlot a.src.original_kv_cache_1 c.managed_kv_cache_1 sourceSlot slot
          a.tiling.kv1SlotElements).bind fun cache_1 =>
        (store resolved i slot).bind fun r => some (a.memory r (handed c t slot cache_0 cache_1)) := by
  obtain ⟨spent, hledger⟩ := h.ledger
  obtain ⟨hstate, -, hslot, howner, -⟩ := hledger.tabled
  have hlen := h.len_le
  have hmax := h.max_eq
  by_cases hres : Resident c t
  -- a resident token: the output alone
  · refine Or.inl ⟨hres, ?_⟩
    have hturn := @processIndex_resident T a.tiling (a.memory resolved c) i t htoken
      (show t < c.token_state.length by omega) (show t < c.hbm_slot_of_token.length by omega) hres
    exact hturn
  -- otherwise the pop reads the top of the stack, which is a free slot
  · obtain ⟨place, slot, hcount, hstack, hread, htop, hless, -⟩ := h.top (hpos hres)
    refine Or.inr ⟨slot, hres, htop, hless, ?_⟩
    have hbelow : c.free_slot_count ≤ slots := by
      have := h.count
      omega
    -- the count of the memory is that of the context
    have hcell : (a.memory resolved c).freeSlotCountGm = [(place : ℤ) + 1] := by
      rw [← hcount]
      rfl
    have hturn := @processIndex_install T a.tiling (a.memory resolved c) i t htoken
      (show t < c.token_state.length by omega) (show t < c.hbm_slot_of_token.length by omega) hres
    rw [hturn, installToken_eq hcell (by omega) hstack hread
      (show t < c.token_state.length by omega) (show t < c.hbm_slot_of_token.length by omega)
      (show slot < c.slot_owner_token.length by rw [howner, h.slots_eq]; exact hless)]
    simp only [Option.bind_assoc, Option.bind_some]
    -- what is left is one slot less
    have hleft : (place : ℤ) = c.free_slot_count - 1 := by omega
    rw [hleft]
    rfl

/-- What a turn of the kernel that has not faulted has done, as a turn on the context. -/
theorem Accounts.turn_of_some (h : Accounts max_seq_len slots asked c) (hslots : slots < 2 ^ 31)
    {i : ℕ} (htoken : load a.topk (i : ℤ) = some (t : ℤ)) (hlt : (t : ℤ) < c.actual_seq_len)
    (hpos : ¬ Resident c t → 0 < c.free_slot_count) {gm' : GlobalMemory T}
    (hrun : processIndex a.tiling (a.memory resolved c) i = some gm') :
    ∃ r c', gm' = a.memory r c' ∧ r.length = resolved.length ∧ KernelTurn c t c' := by
  rcases h.processIndex_eq hslots htoken hlt hpos with ⟨hres, heq⟩ | ⟨slot, hnew, htop, -, heq⟩
  · rw [heq] at hrun
    obtain ⟨r, hstore, hr⟩ := Option.bind_eq_some_iff.mp hrun
    cases hr
    exact ⟨r, c, rfl, store_length hstore, .resident hres⟩
  · rw [heq] at hrun
    obtain ⟨sourceSlot, -, hrun⟩ := Option.bind_eq_some_iff.mp hrun
    obtain ⟨cache_0, hcopy_0, hrun⟩ := Option.bind_eq_some_iff.mp hrun
    obtain ⟨cache_1, hcopy_1, hrun⟩ := Option.bind_eq_some_iff.mp hrun
    obtain ⟨r, hstore, hr⟩ := Option.bind_eq_some_iff.mp hrun
    cases hr
    exact ⟨r, _, rfl, store_length hstore,
      .handed hnew (hpos hnew) htop (copySlot_length hcopy_0) (copySlot_length hcopy_1)⟩

/-! ## A call -/

/-- What the turns of a call leave alone. -/
structure Since (c c' : Context T T) : Prop where
  others : c' = { c with
    managed_kv_cache_0 := c'.managed_kv_cache_0
    managed_kv_cache_1 := c'.managed_kv_cache_1
    token_state := c'.token_state
    hbm_slot_of_token := c'.hbm_slot_of_token
    slot_owner_token := c'.slot_owner_token
    free_slot_count := c'.free_slot_count }
  state : ∀ u, ¬ Resident c' u → read c'.token_state u = read c.token_state u
  cache_0_length : c'.managed_kv_cache_0.length = c.managed_kv_cache_0.length
  cache_1_length : c'.managed_kv_cache_1.length = c.managed_kv_cache_1.length

theorem Since.refl : Since c c := ⟨rfl, fun _ _ => rfl, rfl, rfl⟩

/-- The context can be read back from the memory that the call works on. -/
theorem Since.takeBack (h : Since c c') : takeBack c (a.memory resolved c') = c' := by
  rw [h.others]
  rfl

/-- A call does not change the length of the sequence. -/
theorem Since.seq_len (h : Since c c') : c'.actual_seq_len = c.actual_seq_len := by
  rw [h.others]

theorem Since.addr (h : Since c c') : c'.asu_record_addr = c.asu_record_addr := by
  rw [h.others]

theorem Since.slot_count (h : Since c c') : c'.managed_slot_count = c.managed_slot_count := by
  rw [h.others]

theorem Since.turn {c'' : Context T T} (h : Since c c') (hlt : t < c'.token_state.length)
    (hturn : KernelTurn c' t c'') : Since c c'' := by
  cases hturn with
  | resident hres => exact h
  | @handed slot cache_0 cache_1 hnew hpos htop h0 h1 =>
      refine ⟨?_, fun u hu => ?_, h0.trans h.cache_0_length, h1.trans h.cache_1_length⟩
      · unfold handed
        rw [h.others]
      · -- a token that is still not resident is not the one of this turn
        have hread : ∀ u, read (handed c' t slot cache_0 cache_1).token_state u =
            if u = t then HBM_RESIDENT else read c'.token_state u := read_set hlt _
        unfold Resident at hu
        rw [hread] at hu ⊢
        split_ifs at hu ⊢ with hut
        · exact absurd rfl hu
        · exact h.state u hu

/-- A call after its first `k` turns. -/
def During (max_seq_len slots : ℕ) (asked : List ℤ) (a : Call T) (c : Context T T) (k : ℕ)
    (gm : GlobalMemory T) : Prop :=
  ∃ r c', gm = a.memory r c' ∧ r.length = a.resolved.length ∧
    Accounts max_seq_len slots (asked ++ a.topk.take k) c' ∧ Since c c'

/-- The turn of a call that comes next. -/
theorem range_split {n i : ℕ} {pre suf : List ℕ} (h : List.range n = pre ++ i :: suf) :
    i = pre.length ∧ i < n := by
  have hlt : pre.length < (List.range n).length := by
    rw [h]
    simp
  have hget : (List.range n)[pre.length]? = some i := by
    rw [h]
    simp
  rw [List.getElem?_eq_getElem hlt, List.getElem_range] at hget
  rw [List.length_range] at hlt
  cases hget
  exact ⟨rfl, hlt⟩

/-- The `k`-th entry of the list, as a token of the sequence. -/
theorem Call.token (htopk : ∀ t ∈ a.topk, 0 ≤ t ∧ t < c.actual_seq_len) {k : ℕ}
    (hk : k < a.topk.length) : ∃ t : ℕ, load a.topk (k : ℤ) = some (t : ℤ) ∧ (t : ℤ) ∈ a.topk ∧
      a.topk.take (k + 1) = a.topk.take k ++ [(t : ℤ)] ∧ (t : ℤ) < c.actual_seq_len := by
  have hmem : a.topk[k] ∈ a.topk := List.getElem_mem hk
  obtain ⟨t, ht⟩ := Int.eq_ofNat_of_zero_le (htopk _ hmem).1
  refine ⟨t, ?_, ht ▸ hmem, ?_, ht ▸ (htopk _ hmem).2⟩
  · rw [load_natCast hk, ht]
  · rw [List.take_succ_eq_append_getElem hk, ht]

/-- Where a turn is safe, a token that is new finds a slot free. -/
theorem TurnSafe.count_pos {i : ℕ} (h : TurnSafe slots i (a.memory resolved c))
    (htoken : load a.topk (i : ℤ) = some (t : ℤ)) (hlt : t < c.token_state.length)
    (hnew : ¬ Resident c t) : 0 < c.free_slot_count := by
  obtain ⟨place, slot, gm', -, -, -, h0, hless, -⟩ := h t _ htoken (load_read hlt) hnew
  have hcell : place < c.free_slot_count := hless
  omega

section

variable {k : ℕ} {gm : GlobalMemory T}

/-- With slots for all that is asked for, there is one for the token that comes next. -/
theorem During.safe (h : During max_seq_len slots asked a c k gm) (hslots : slots < 2 ^ 31)
    (htopk : ∀ t ∈ a.topk, 0 ≤ t ∧ t < c.actual_seq_len) (hk : k < a.topk.length)
    (hcard : (asked ++ a.topk).toFinset.card ≤ slots) : TurnSafe slots k gm := by
  obtain ⟨r, c', rfl, -, haccounts, hsince⟩ := h
  rw [← hsince.seq_len] at htopk
  obtain ⟨t, htoken, hmem, -, hlt⟩ := Call.token htopk hk
  have hless := haccounts.token_lt hlt
  intro tokenId state htokenId hstate hnew
  rw [show load (a.memory r c').originalTopkIndicesGm (k : ℤ) = some (t : ℤ) from htoken] at htokenId
  cases htokenId
  rw [show load (a.memory r c').tokenStateGm (t : ℤ) = some (read c'.token_state t) from
    load_read hless] at hstate
  cases hstate
  refine haccounts.popSafe hslots ?_
  -- the token is new to those asked for, so that they are not all of them yet
  have hfresh : (t : ℤ) ∉ asked ++ a.topk.take k := by
    rw [haccounts.mem]
    rintro ⟨u, hu, hres⟩
    exact hnew (Int.natCast_inj.mp hu ▸ hres)
  have hlt_card : (asked ++ a.topk.take k).toFinset.card < (asked ++ a.topk).toFinset.card := by
    refine Finset.card_lt_card ⟨fun z hz => ?_, fun hsub => ?_⟩
    · rw [List.mem_toFinset] at hz ⊢
      exact List.mem_append.mpr ((List.mem_append.mp hz).imp_right List.mem_of_mem_take)
    · refine hfresh (List.mem_toFinset.mp (hsub ?_))
      exact List.mem_toFinset.mpr (List.mem_append_right asked hmem)
  have := haccounts.count
  omega

/-- **One turn more** of a call, from accounts to accounts. -/
theorem During.next (h : During max_seq_len slots asked a c k gm) (hslots : slots < 2 ^ 31)
    (htopk : ∀ t ∈ a.topk, 0 ≤ t ∧ t < c.actual_seq_len) (hk : k < a.topk.length)
    (hsafe : TurnSafe slots k gm) {gm' : GlobalMemory T} (hrun : processIndex a.tiling gm k = some gm') :
    During max_seq_len slots asked a c (k + 1) gm' := by
  obtain ⟨r, c', rfl, hr, haccounts, hsince⟩ := h
  rw [← hsince.seq_len] at htopk
  obtain ⟨t, htoken, -, htake, hlt⟩ := Call.token htopk hk
  have hless := haccounts.token_lt hlt
  obtain ⟨r', c'', rfl, hr', hturn⟩ := haccounts.turn_of_some hslots htoken hlt
    (hsafe.count_pos htoken hless) hrun
  refine ⟨r', c'', rfl, hr'.trans hr, ?_, hsince.turn hless hturn⟩
  rw [htake, ← List.append_assoc]
  exact haccounts.turn hlt hturn

/-- A safe turn in a call with its source rows has a result. -/
theorem During.returns (h : During max_seq_len slots asked a c k gm) (hslots : slots < 2 ^ 31)
    (htopk : ∀ t ∈ a.topk, 0 ≤ t ∧ t < c.actual_seq_len) (hk : k < a.topk.length) {e0 e1 : ℕ}
    (hsourced : a.Sourced e0 e1 c) (hsafe : TurnSafe slots k gm) :
    ∃ gm', processIndex a.tiling gm k = some gm' := by
  obtain ⟨r, c', rfl, hr, haccounts, hsince⟩ := h
  rw [← hsince.seq_len] at htopk
  -- the token of this turn
  obtain ⟨t, htoken, hmem, -, hlt⟩ := Call.token htopk hk
  have hless := haccounts.token_lt hlt
  -- the output has a place for it
  have hroom : k < r.length := by
    rw [hr, hsourced.output]
    exact hk
  rcases haccounts.processIndex_eq hslots htoken hlt (hsafe.count_pos htoken hless) with
    ⟨-, heq⟩ | ⟨slot, hnew, -, hslot, heq⟩
  -- it is resident, and its slot is stored
  · rw [heq, store_natCast hroom]
    exact ⟨_, rfl⟩
  · -- source, slot and output were all there before the call
    have hstate := hsince.state t hnew
    obtain ⟨row, hsource, hrow_0, hrow_1⟩ := hsourced.source t hmem (hstate ▸ hnew)
    have hsource' : (if read c'.token_state t = ASU_ONLY then load c'.asu_record_addr t
        else resolveTailSourceSlot a.tiling (a.memory r c') t) = some (row : ℤ) := by
      rw [hstate, hsince.addr]
      exact hsource
    have hslot_c : slot + 1 ≤ c.managed_slot_count := by
      rw [← hsince.slot_count, haccounts.slots_eq]
      exact hslot
    have hroom_0 : (slot + 1) * e0 ≤ c'.managed_kv_cache_0.length := by
      rw [hsince.cache_0_length, hsourced.managed_0]
      exact Nat.mul_le_mul_right _ hslot_c
    have hroom_1 : (slot + 1) * e1 ≤ c'.managed_kv_cache_1.length := by
      rw [hsince.cache_1_length, hsourced.managed_1]
      exact Nat.mul_le_mul_right _ hslot_c
    -- so both copies go through, and the store of the slot does
    obtain ⟨cache_0, hcopy_0⟩ := copySlot_total hrow_0 hroom_0 hsourced.original_lt.1
      (hsince.cache_0_length ▸ hsourced.managed_lt.1)
    obtain ⟨cache_1, hcopy_1⟩ := copySlot_total hrow_1 hroom_1 hsourced.original_lt.2
      (hsince.cache_1_length ▸ hsourced.managed_lt.2)
    rw [heq, hsource', Option.bind_some, hsourced.kv0, hsourced.kv1, hcopy_0, Option.bind_some, hcopy_1,
      Option.bind_some, store_natCast hroom]
    exact ⟨_, rfl⟩

end

/-- A call begins with the accounts of the context. -/
theorem During.start (h : Accounts max_seq_len slots asked c) :
    During max_seq_len slots asked a c 0 (a.memory a.resolved c) :=
  ⟨a.resolved, c, rfl, rfl, by rwa [List.take_zero, List.append_nil], .refl⟩

section

variable (h : Accounts max_seq_len slots asked c) (hslots : slots < 2 ^ 31)
  (hvalid : (Op.call a).Valid c)

include h hslots hvalid

/-- **Enough slots for all**: if no more tokens have been asked for than there are slots, the
call is safe throughout. -/
theorem Accounts.call_safe (hcard : (asked ++ a.topk).toFinset.card ≤ slots) :
    OpSafe slots (.call a) c := by
  obtain ⟨hnumel, htopk⟩ := hvalid
  refine Throughout.keeps (fun done gm => During max_seq_len slots asked a c done.length gm)
    (During.start h) throughout_true ?_
  intro pre i suf gm hsplit hduring _
  obtain ⟨rfl, hlt⟩ := range_split hsplit
  have hk : pre.length < a.topk.length := by omega
  have hsafe := hduring.safe hslots htopk hk hcard
  refine ⟨hsafe, fun gm' hrun => ?_⟩
  rw [List.length_append, List.length_singleton]
  exact hduring.next hslots htopk hk hsafe hrun

/-- The accounts after a call that returns, each of whose turns found its slot. -/
theorem Accounts.call (hsafe : OpSafe slots (.call a) c) {c' : Context T T}
    (hrun : stepOp (.call a) c = some c') :
    Accounts max_seq_len slots (askedAfter max_seq_len asked (.call a)) c' := by
  obtain ⟨hnumel, htopk⟩ := hvalid
  obtain ⟨gm', hprocess, rfl⟩ := Option.map_eq_some_iff.mp hrun
  have hend := run_keeps (fun done gm => During max_seq_len slots asked a c done.length gm)
    (During.start h) hsafe ((run_eq_foldlM _ _).trans hprocess) ?_
  · obtain ⟨r, c', rfl, -, haccounts, hsince⟩ := hend
    rw [List.length_range, hnumel, Int.toNat_natCast, List.take_length] at haccounts
    rw [hsince.takeBack]
    exact haccounts
  · intro pre i suf gm gm' hsplit hduring hturn hstep
    obtain ⟨rfl, hlt⟩ := range_split hsplit
    rw [List.length_append, List.length_singleton]
    exact hduring.next hslots htopk (by omega) hturn hstep

/-- A safe call with its source rows returns. -/
theorem Accounts.call_returns (hsafe : OpSafe slots (.call a) c) (hsourced : (Op.call a).Sourced c) :
    ∃ c', stepOp (.call a) c = some c' := by
  obtain ⟨hnumel, htopk⟩ := hvalid
  obtain ⟨e0, e1, hsourced⟩ := hsourced
  have hend := reaches (fun done gm => During max_seq_len slots asked a c done.length gm)
    (During.start h) hsafe ?_
  · obtain ⟨gm', hrun, -⟩ := hend
    rw [run_eq_foldlM] at hrun
    exact ⟨_, congrArg (Option.map (takeBack c)) hrun⟩
  · intro pre i suf gm hsplit hduring hturn
    obtain ⟨rfl, hlt⟩ := range_split hsplit
    have hk : pre.length < a.topk.length := by omega
    obtain ⟨gm', hstep⟩ := hduring.returns hslots htopk hk hsourced hturn
    refine ⟨gm', hstep, ?_⟩
    rw [List.length_append, List.length_singleton]
    exact hduring.next hslots htopk hk hturn hstep

end

end

/-! ## A run -/

section

variable {max_seq_len slots : ℕ} {done : List ℤ} {op : Op T} {c c' : Context T T}

/-- **One operation** keeps the accounts. -/
theorem Accounts.step (h : Accounts max_seq_len slots done c) (hslots : slots < 2 ^ 31)
    (hvalid : op.Valid c) (hsafe : OpSafe slots op c) (hstep : stepOp op c = some c') :
    Accounts max_seq_len slots (askedAfter max_seq_len done op) c' := by
  cases op with
  | reset req_id n pre block_table =>
      cases hstep
      exact h.reset req_id n pre block_table
  | mark token_id =>
      cases hstep
      exact h.mark hvalid
  | call a => exact h.call hslots hvalid hsafe hstep

/-- The tokens asked for after one operation more. -/
theorem asked_concat (max_seq_len : ℕ) (ops : List (Op T)) (op : Op T) :
    asked max_seq_len (ops ++ [op]) = askedAfter max_seq_len (asked max_seq_len ops) op := by
  unfold asked
  rw [List.foldl_append]
  rfl

end

/-- **The pool of the kernel** in a run is safe, however its operations come, if the tokens asked
for since the last reset are never more than the managed slots; and where every token has a source
row, only then. -/
theorem kernel_pool {max_seq_len block_size slots : ℕ} {cache_0 cache_1 : List T} {ops : List (Op T)}
    (hslots : slots < 2 ^ 31)
    (hvalid : Throughout stepOp Op.Valid ops (newContext max_seq_len block_size slots cache_0 cache_1)) :
    ((∀ done, done <+: ops → (asked max_seq_len done).toFinset.card ≤ slots) →
      Throughout stepOp (OpSafe slots) ops (newContext max_seq_len block_size slots cache_0 cache_1)) ∧
    (Throughout stepOp Op.Sourced ops (newContext max_seq_len block_size slots cache_0 cache_1) →
      Throughout stepOp (OpSafe slots) ops (newContext max_seq_len block_size slots cache_0 cache_1) →
      ∀ done, done <+: ops → (asked max_seq_len done).toFinset.card ≤ slots) := by
  constructor
  -- with enough slots every operation is safe, by the accounts before it
  · intro hcard
    refine Throughout.keeps (fun done c => Accounts max_seq_len slots (asked max_seq_len done) c)
      .fresh hvalid ?_
    intro pre op suf c hsplit haccounts hop
    have hsafe : OpSafe slots op c := by
      cases op with
      | reset => trivial
      | mark => trivial
      -- a call is safe if the tokens asked for by its end are not too many
      | call a =>
          refine haccounts.call_safe hslots hop ?_
          have hcall := hcard (pre ++ [.call a]) ⟨suf, by rw [hsplit]; simp⟩
          rwa [asked_concat] at hcall
    refine ⟨hsafe, fun c' hstep => ?_⟩
    rw [asked_concat]
    exact haccounts.step hslots hop hsafe hstep
  -- the converse: a run that is safe comes to the end of `done`, with its accounts
  · intro hsourced hsafe done hdone
    have hall := (hvalid.and (hsourced.and hsafe)).cut hdone
    have hend := reaches (fun done c => Accounts max_seq_len slots (asked max_seq_len done) c)
      .fresh hall ?_
    · -- a count that is not negative
      obtain ⟨c, -, hend⟩ := hend
      have hcount := hend.count
      obtain ⟨spent, hledger⟩ := hend.ledger
      have := hledger.pool.count_nonneg
      omega
    -- a step that is safe and finds its sources returns
    · rintro pre op suf c hsplit haccounts ⟨hop, hsrc, hsafe⟩
      have hstep : ∃ c', stepOp op c = some c' := by
        cases op with
        | reset => exact ⟨_, rfl⟩
        | mark => exact ⟨_, rfl⟩
        | call a => exact haccounts.call_returns hslots hop hsafe hsrc
      obtain ⟨c', hstep⟩ := hstep
      refine ⟨c', hstep, ?_⟩
      rw [asked_concat]
      exact haccounts.step hslots hop hsafe hstep

/-- A call for two tokens out of four, in blocks of two. -/
def pairCall (t u : ℤ) : Call ℕ where
  src := ⟨[0, 1], [10, 11, 12, 13], [20, 21, 22, 23]⟩
  topk := [t, u]
  tiling := ⟨2, 4, 2, 1, 1⟩
  resolved := [0, 0]

/-- Two slots, and two resets with two tokens each. -/
def twoResets : List (Op ℕ) :=
  [.reset "first" 4 2 [0, 1], .call (pairCall 0 3), .call (pairCall 3 0),
    .reset "second" 3 0 [0, 1], .mark 3, .call (pairCall 1 3)]

/-- The run of the example is safe throughout: it asks for no more than two tokens between
resets. -/
theorem kernel_pool_twice :
    Throughout stepOp (OpSafe 2) twoResets (newContext 4 2 2 [0, 0] [0, 0]) := by
  have hcard : ∀ done ∈ twoResets.inits, (asked 4 done).toFinset.card ≤ 2 := by decide
  exact (kernel_pool (by decide) (by decide)).1 fun done hdone =>
    hcard done ((List.mem_inits _ _).mpr hdone)

/-- One slot, and a call for two tokens. -/
def oneSlot : List (Op ℕ) := [.reset "first" 4 2 [0, 1], .call (pairCall 0 1)]

/-- The second token finds the stack empty. The kernel reads it at `-1`; the Python resolver
raises. -/
theorem kernel_pool_exhausted :
    Throughout stepOp Op.Valid oneSlot (newContext 4 2 1 [0] [0]) ∧
    ¬ Throughout stepOp (OpSafe 1) oneSlot (newContext 4 2 1 [0] [0]) ∧
    ∃ c, stepOp (oneSlot.head (by decide)) (newContext 4 2 1 [0] [0]) = some c ∧
      (∃ gm, processIndex (pairCall 0 1).tiling ((pairCall 0 1).memory [0, 0] c) 0 = some gm ∧
        gm.freeSlotCountGm = [0] ∧ popFreeSlot gm = none) ∧
      ∃ c', asuResolveKvSlotsSingleReq (pairCall 0 1).src [0, 1] 4 2 c =
        .error (.RuntimeError "free_slot_stack does not have enough slots") c' := by
  refine ⟨by decide, ?_, _, rfl, ⟨_, rfl, rfl, rfl⟩, _, rfl⟩
  intro h
  have hcall : OpSafe 1 (.call (pairCall 0 1)) _ := (h.2 _ rfl).1
  have hturn : TurnSafe 1 1 _ := (hcall.2 _ rfl).1
  obtain ⟨place, slot, gm', -, -, -, h0, hless, -⟩ := hturn 1 ASU_ONLY rfl rfl (by decide)
  have hcount : place < 0 := hless
  omega

end AsuAscend.Decode.Kernel
