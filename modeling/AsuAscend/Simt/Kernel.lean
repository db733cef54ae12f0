/-
`pta-ops/asu_hbm_index_lookup_simt/src/asu_hbm_index_lookup_simt_kernel.cpp`: the
SIMT lookup kernel, for one request.

A request owns a row of each of the six tensors and a slice of the workspace; the
named pointers into them (`req_token_to_slot`, `hit_flags`, ...) are the
constructors of `Cell`. Each global load, store and `asc_atomic_cas` is one access
of a `BarrierThreads.Prog`, and `asc_syncthreads` is its barrier. The loops are
lists of indices: `gridStride` where a thread strides by `thread_count`, `span`
over its own chunk where the order matters.

Cell values are integers. The casts of the source stay visible: `u32`, `i32` and
`i16` of `MachineWords` wrap. `uint32_t` loop variables are naturals, as no bound comes near
`2 ^ 32`.

## What is a step

One access of global memory is one step, and everything between two accesses is local: a run is an
interleaving of single loads, stores and compare-and-swaps, sequentially consistent, in which no
thread passes a barrier before all have come to it. A cell that has not been written holds `none`,
and a thread that loads it is stuck there; so is one that accesses a cell outside the request's
arrays. Theorems about the kernel therefore say that no thread gets stuck, besides what they say of
the memory.

`writeBack` comes last in a thread's program and is one phase: no barrier lies between the LRU
order and the slots of the duplicates (`resolveDuplicate`).
-/
import AsuAscend.Lib.MachineWords
import AsuAscend.Lib.RaceFree
import AsuAscend.Lib.WorkSplit
import AsuAscend.Lookup.Reference

set_option autoImplicit false

open BarrierThreads BarrierThreads.Prog MachineWords WorkSplit

namespace AsuAscend.Simt

/-! ## Sizes and cells -/

/-- The constants header, less its sentinels. -/
structure Sizes where
  INDEX_SIZE : ℕ
  SLOT_COUNT : ℕ
  QUERY_COUNT : ℕ
  SIMT_THREADS : ℕ

def asuSizes : Sizes where
  INDEX_SIZE := 128 * 1024
  SLOT_COUNT := 10 * 1024
  QUERY_COUNT := 2 * 1024
  SIMT_THREADS := 256

def NOT_FOUND : ℤ := -1

def CLAIMING : ℤ := -2

/-- What the kernel's casts and its allocation rely on. -/
structure Sizes.Fits (d : Sizes) : Prop where
  index_i32 : d.INDEX_SIZE ≤ 2 ^ 31
  slot_i16 : d.SLOT_COUNT ≤ 2 ^ 15
  query_le_slot : d.QUERY_COUNT ≤ d.SLOT_COUNT
  threads_pos : 0 < d.SIMT_THREADS

/-- The sizes that are built in fit the 16-bit and 32-bit arithmetic. -/
theorem asuSizes_fits : asuSizes.Fits := ⟨by decide, by decide, by decide, by decide⟩

/-- One element behind one of the request's pointers. -/
inductive Cell where
  | token_to_slot (token : ℕ)
  | slot_to_token (slot : ℕ)
  | lru_slots (pos : ℕ)
  | query_token_ids (pos : ℕ)
  | slot_ids (pos : ℕ)
  | miss_mask (pos : ℕ)
  | hit_flags (slot : ℕ)
  | hit_slots (i : ℕ)
  | evictable_slots (i : ℕ)
  | thread_hit_counts (tid : ℕ)
  | thread_evict_counts (tid : ℕ)
  | thread_miss_counts (tid : ℕ)
  | counters (i : ℕ)
deriving DecidableEq

/-- The element lies inside the request's row or the request's workspace slice. -/
def Cell.Inside (d : Sizes) : Cell → Prop
  | token_to_slot token => token < d.INDEX_SIZE
  | slot_to_token slot => slot < d.SLOT_COUNT
  | lru_slots pos => pos < d.SLOT_COUNT
  | query_token_ids pos => pos < d.QUERY_COUNT
  | slot_ids pos => pos < d.QUERY_COUNT
  | miss_mask pos => pos < d.QUERY_COUNT
  | hit_flags slot => slot < d.SLOT_COUNT
  | hit_slots i => i < d.SLOT_COUNT
  | evictable_slots i => i < d.SLOT_COUNT
  | thread_hit_counts tid => tid < d.SIMT_THREADS
  | thread_evict_counts tid => tid < d.SIMT_THREADS
  | thread_miss_counts tid => tid < d.SIMT_THREADS
  | counters i => i < 4

/-! ## The kernel -/

/-- A thread's program. -/
abbrev Thread := Prog Cell ℤ

section Phases

variable (d : Sizes) (tid : ℕ)

/-- Clear the hit flags and the counters. -/
def clearFlags : Thread Unit := do
  forEach (gridStride tid d.SLOT_COUNT d.SIMT_THREADS) fun slot => write (.hit_flags slot) 0
  if tid < 4 then write (.counters tid) 0 else pure ()

/-- Direct token -> slot lookup of one query. A unique miss claims its table entry
with CAS; a duplicate observes CLAIMING. -/
def claimQuery (pos : ℕ) : Thread Unit := do
  let token ← read (.query_token_ids pos)
  write (.slot_ids pos) NOT_FOUND
  write (.miss_mask pos) 0
  if token < 0 ∨ token ≥ d.INDEX_SIZE then pure ()
  else do
    let slot ← read (.token_to_slot (u32 token))
    if slot ≥ 0 then do
      write (.slot_ids pos) slot
      write (.hit_flags (u32 slot)) 1
      pure ()
    else if slot = NOT_FOUND then do
      let old ← atomicCas (.token_to_slot (u32 token)) NOT_FOUND CLAIMING
      if old = NOT_FOUND then do
        write (.miss_mask pos) 1
        pure ()
      else if old ≥ 0 then do
        write (.slot_ids pos) old
        write (.hit_flags (u32 old)) 1
        pure ()
      else pure ()
    else pure ()

def claimQueries : Thread Unit :=
  forEach (gridStride tid d.QUERY_COUNT d.SIMT_THREADS) (claimQuery d)

/-- The thread's part of the LRU order, from `lru_begin` to `lru_end`. -/
def lruChunk : List ℕ :=
  span (chunkBegin d.SLOT_COUNT d.SIMT_THREADS tid) (chunkEnd d.SLOT_COUNT d.SIMT_THREADS tid)

/-- Count `local_hits` and `local_evictables`. -/
def countSlot (c : ℤ × ℤ) (pos : ℕ) : Thread (ℤ × ℤ) := do
  let slot ← read (.lru_slots pos)
  let flag ← read (.hit_flags (u32 slot))
  if flag ≠ 0 then pure (c.1 + 1, c.2) else pure (c.1, c.2 + 1)

def countSlots : Thread (ℤ × ℤ) := do
  let c ← foldEach (lruChunk d tid) (0, 0) countSlot
  write (.thread_hit_counts tid) c.1
  write (.thread_evict_counts tid) c.2
  pure c

/-- Sum the counts of one lower thread into `hit_prefix` and `evict_prefix`. -/
def addSlotCounts (c : ℤ × ℤ) (i : ℕ) : Thread (ℤ × ℤ) := do
  let hits ← read (.thread_hit_counts i)
  let evictables ← read (.thread_evict_counts i)
  pure (c.1 + hits, c.2 + evictables)

/-- Write one slot at `hit_offset` or `evict_offset`. -/
def scatterSlot (c : ℤ × ℤ) (pos : ℕ) : Thread (ℤ × ℤ) := do
  let slot ← read (.lru_slots pos)
  let flag ← read (.hit_flags (u32 slot))
  if flag ≠ 0 then do
    write (.hit_slots (u32 c.1)) slot
    pure (c.1 + 1, c.2)
  else do
    write (.evictable_slots (u32 c.2)) slot
    pure (c.1, c.2 + 1)

/-- Stable partition of the prior LRU order. -/
def scatterSlots (local_counts : ℤ × ℤ) : Thread Unit := do
  let pre ← foldEach (span 0 tid) (0, 0) addSlotCounts
  let _ ← foldEach (lruChunk d tid) pre scatterSlot
  if tid = d.SIMT_THREADS - 1 then do
    write (.counters 0) (pre.1 + local_counts.1)
    write (.counters 1) (pre.2 + local_counts.2)
    pure ()
  else pure ()

/-- The thread's part of the query row, from `query_begin` to `query_end`. -/
def queryChunk : List ℕ :=
  span (chunkBegin d.QUERY_COUNT d.SIMT_THREADS tid) (chunkEnd d.QUERY_COUNT d.SIMT_THREADS tid)

/-- Count `local_misses`. -/
def countMiss (c : ℤ) (pos : ℕ) : Thread ℤ := do
  let miss ← read (.miss_mask pos)
  if miss ≠ 0 then pure (c + 1) else pure c

def countMisses : Thread ℤ := do
  let c ← foldEach (queryChunk d tid) 0 countMiss
  write (.thread_miss_counts tid) c
  pure c

/-- Sum the count of one lower thread into `miss_prefix`. -/
def addMissCount (c : ℤ) (i : ℕ) : Thread ℤ := do
  let misses ← read (.thread_miss_counts i)
  pure (c + misses)

/-- The entry of the token that the victim slot held. -/
def invalidate (victim_token : ℤ) : Thread Unit :=
  if victim_token ≥ 0 ∧ victim_token < d.INDEX_SIZE then do
    write (.token_to_slot (u32 victim_token)) NOT_FOUND
    pure ()
  else pure ()

/-- The nth miss reuses the nth evictable slot. -/
def installMiss (miss_offset : ℤ) (pos : ℕ) : Thread ℤ := do
  let miss ← read (.miss_mask pos)
  if miss = 0 then pure miss_offset
  else do
    let miss_rank := u32 miss_offset
    let evictable ← read (.evictable_slots miss_rank)
    let victim_slot := u32 evictable
    let victim_token ← read (.slot_to_token victim_slot)
    invalidate d victim_token
    let token ← read (.query_token_ids pos)
    write (.slot_to_token victim_slot) token
    write (.token_to_slot (u32 token)) (i32 victim_slot)
    write (.slot_ids pos) (i32 victim_slot)
    pure (miss_offset + 1)

/-- Compact unique misses in query order and allocate their slots. -/
def installMisses (local_misses : ℤ) : Thread Unit := do
  let miss_prefix ← foldEach (span 0 tid) 0 addMissCount
  let _ ← foldEach (queryChunk d tid) miss_prefix (installMiss d)
  let total := miss_prefix + local_misses
  if tid = d.SIMT_THREADS - 1 then do
    write (.counters 2) total
    pure ()
  else pure ()

/-- Untouched stale slots, then newly allocated miss slots, then existing hits. -/
def writeLru (evictable_count miss_count stale_count pos : ℕ) : Thread Unit :=
  if pos < stale_count then do
    let slot ← read (.evictable_slots (miss_count + pos))
    write (.lru_slots pos) (i16 slot)
    pure ()
  else if pos < evictable_count then do
    let slot ← read (.evictable_slots (pos - stale_count))
    write (.lru_slots pos) (i16 slot)
    pure ()
  else do
    let slot ← read (.hit_slots (pos - evictable_count))
    write (.lru_slots pos) (i16 slot)
    pure ()

/-- Resolve a duplicate miss after its canonical occurrence has installed the
mapping. -/
def resolveDuplicate (pos : ℕ) : Thread Unit := do
  let token ← read (.query_token_ids pos)
  let slot ← read (.slot_ids pos)
  if slot = NOT_FOUND ∧ token ≥ 0 ∧ token < d.INDEX_SIZE then do
    let final ← read (.token_to_slot (u32 token))
    write (.slot_ids pos) final
    pure ()
  else pure ()

def writeBack : Thread Unit := do
  let evictables ← read (.counters 1)
  let misses ← read (.counters 2)
  let evictable_count := u32 evictables
  let miss_count := u32 misses
  -- unsigned subtraction
  let stale_count := u32 (evictable_count - miss_count)
  forEach (gridStride tid d.SLOT_COUNT d.SIMT_THREADS)
    (writeLru evictable_count miss_count stale_count)
  forEach (gridStride tid d.QUERY_COUNT d.SIMT_THREADS) (resolveDuplicate d)

/-- `AsuHbmIndexLookupSimt`, as thread `tid` runs it. -/
def asuHbmIndexLookupSimt : Thread Unit := do
  clearFlags d tid
  barrier
  claimQueries d tid
  barrier
  let local_counts ← countSlots d tid
  barrier
  scatterSlots d tid local_counts
  barrier
  let local_misses ← countMisses d tid
  barrier
  installMisses d tid local_misses
  barrier
  writeBack d tid

end Phases

end AsuAscend.Simt
