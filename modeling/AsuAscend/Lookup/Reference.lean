/-
`pta-ops/asu_hbm_index_lookup_simt/python/lookup_lru_reference.py`: the oracle of
the Ascend 950 lookup operator.

`lookup_allocate_evict` mutates its `LookupState` in place and can raise at six
points, the last of them after part of the tables has been rewritten. A raise is
therefore modelled with the state it leaves behind (`Raised`), and every helper
runs in `Except Raised`.

Python's `set` of slots and of pending tokens is a `Finset`; `sorted` is
insertion sort. Every subscript in the source is guarded by a range test or goes
through `lru_slots` after the permutation check, so reading a cell is total here.

## How the source is followed

The locals of `lookup_allocate_evict` are the fields of `Scan`: the two outputs, the list
of unique misses with their positions, the set of slots that were hit and the set of pending
tokens. `scanQuery` is the body of the loop over the row, `installMiss` the body of the loop over
the misses, `resolveQuery` the body of the last loop; the statements between the loops are in
`allocate`. The messages of the exceptions are those of the source.
-/
import AsuAscend.Lib.SentinelTable
import Mathlib.Data.Finset.Insert
import Mathlib.Data.List.Sort

set_option autoImplicit false

open SentinelTable

namespace AsuAscend.Lookup

def NOT_FOUND : ℤ := -1

/-- Mutable token/slot mappings and an LRU-to-MRU slot permutation. -/
structure LookupState where
  token_to_slot : List ℤ
  slot_to_token : List ℤ
  lru_slots : List ℤ
deriving DecidableEq

/-- A `ValueError` and the state it leaves behind. -/
structure Raised where
  message : String
  state : LookupState
deriving DecidableEq

/-- What a call returns: `slot_ids`, `miss_mask`. -/
structure Outputs where
  slot_ids : List ℤ
  miss_mask : List Bool
deriving DecidableEq

/-! ## The query scan -/

/-- The locals that the first loop over the queries fills. -/
structure Scan where
  slot_ids : List ℤ
  miss_mask : List Bool
  hit_slot_set : Finset ℤ
  unique_misses : List (ℕ × ℤ)
  pending_misses : Finset ℤ
deriving DecidableEq

def Scan.init (n : ℕ) : Scan where
  slot_ids := List.replicate n NOT_FOUND
  miss_mask := List.replicate n false
  hit_slot_set := ∅
  unique_misses := []
  pending_misses := ∅

/-- A token that the tables can hold; the others are padding. -/
def InRange (s : LookupState) (token : ℤ) : Prop :=
  0 ≤ token ∧ token < s.token_to_slot.length

instance (s : LookupState) (token : ℤ) : Decidable (InRange s token) :=
  inferInstanceAs (Decidable (_ ∧ _))

/-- One turn of the first loop. -/
def scanQuery (s : LookupState) (c : Scan) (q : ℤ × ℕ) : Except Raised Scan :=
  let token := q.1
  let pos := q.2
  if token < 0 ∨ token ≥ s.token_to_slot.length then .ok c
  else
    let slot := read s.token_to_slot token.toNat
    if slot ≥ 0 then
      if slot ≥ s.slot_to_token.length then
        .error ⟨s!"token {token} maps outside the slot table", s⟩
      else
        .ok { c with
          slot_ids := c.slot_ids.set pos slot
          hit_slot_set := insert slot c.hit_slot_set }
    else if slot = NOT_FOUND ∧ token ∉ c.pending_misses then
      .ok { c with
        pending_misses := insert token c.pending_misses
        unique_misses := c.unique_misses ++ [(pos, token)]
        miss_mask := c.miss_mask.set pos true }
    else if slot ≠ NOT_FOUND then
      .error ⟨s!"token {token} has transient/invalid slot {slot}", s⟩
    else .ok c

/-- The first loop, over `enumerate(query_token_ids)`. -/
def scanQueries (s : LookupState) (query : List ℤ) : Except Raised Scan :=
  query.zipIdx.foldlM (scanQuery s) (Scan.init query.length)

/-! ## The allocation -/

/-- One turn of the second loop: `token` takes over `victim_slot`. -/
def installMiss (s : LookupState) (m : ℤ × ℤ) : Except Raised LookupState :=
  let token := m.1
  let victim_slot := m.2
  let victim_token := read s.slot_to_token victim_slot.toNat
  if victim_token ≥ 0 then
    if victim_token ≥ s.token_to_slot.length then
      .error ⟨s!"slot {victim_slot} contains out-of-range token {victim_token}", s⟩
    else
      .ok { s with
        token_to_slot :=
          (s.token_to_slot.set victim_token.toNat NOT_FOUND).set token.toNat victim_slot
        slot_to_token := s.slot_to_token.set victim_slot.toNat token }
  else
    .ok { s with
      token_to_slot := s.token_to_slot.set token.toNat victim_slot
      slot_to_token := s.slot_to_token.set victim_slot.toNat token }

/-- The last loop over the queries: every in-range position reads its token's
final slot. -/
def resolveQuery (s : LookupState) (slot_ids : List ℤ) (q : ℤ × ℕ) : List ℤ :=
  if InRange s q.1 then slot_ids.set q.2 (read s.token_to_slot q.1.toNat) else slot_ids

/-- Everything after the query scan: the stable partition of the LRU order, the
allocation of the unique misses, the final slots and the new LRU order. -/
def allocate (query : List ℤ) (s : LookupState) (c : Scan) :
    Except Raised (Outputs × LookupState) :=
  let hit_slots := s.lru_slots.filter (· ∈ c.hit_slot_set)
  let evictable_slots := s.lru_slots.filter (· ∉ c.hit_slot_set)
  if c.unique_misses.length > evictable_slots.length then
    .error ⟨"unique misses exceed evictable slot count", s⟩
  else do
    -- the `miss_rank`-th miss takes the `miss_rank`-th evictable slot
    let s' ← ((c.unique_misses.map Prod.snd).zip evictable_slots).foldlM installMiss s
    let slot_ids := query.zipIdx.foldl (resolveQuery s') c.slot_ids
    let miss_count := c.unique_misses.length
    return (⟨slot_ids, c.miss_mask⟩, { s' with
      lru_slots :=
        evictable_slots.drop miss_count ++ evictable_slots.take miss_count ++ hit_slots })

/-- Resolve queries and apply the batch LRU approximation. -/
def lookup_allocate_evict (query : List ℤ) (s : LookupState) :
    Except Raised (Outputs × LookupState) :=
  let slot_count := s.slot_to_token.length
  if s.lru_slots.length ≠ slot_count then
    .error ⟨"lru_slots length must match slot_to_token", s⟩
  else if s.lru_slots.insertionSort (· ≤ ·) ≠ (List.range slot_count).map Int.ofNat then
    .error ⟨"lru_slots must be a permutation of all slot ids", s⟩
  else do
    let c ← scanQueries s query
    allocate query s c

/-! ## The invariants the operator's README asks of its callers -/

/-- `lru_slots` permutes all slot ids and the two tables are mutually inverse. -/
structure Wf (s : LookupState) : Prop where
  perm : s.lru_slots.Perm ((List.range s.slot_to_token.length).map Int.ofNat)
  inverse : MutuallyInverse s.token_to_slot s.slot_to_token

instance (s : LookupState) : Decidable (Wf s) :=
  decidable_of_iff
    (s.lru_slots.Perm ((List.range s.slot_to_token.length).map Int.ofNat) ∧
      MutuallyInverse s.token_to_slot s.slot_to_token)
    ⟨fun h => ⟨h.1, h.2⟩, fun h => ⟨h.perm, h.inverse⟩⟩

-- the second step of `test_multiple_steps_keep_bidirectional_mapping_consistent`
example : (lookup_allocate_evict [5, 4] ⟨[-1, 1, 2, 3, 0, -1], [4, 1, 2, 3], [2, 3, 0, 1]⟩).toOption
    = some (⟨[2, 0], [true, false]⟩, ⟨[-1, 1, -1, 3, 0, 2], [4, 1, 5, 3], [3, 1, 2, 0]⟩) := by
  decide

end AsuAscend.Lookup
