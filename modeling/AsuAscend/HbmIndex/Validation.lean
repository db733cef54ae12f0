/-
`ops/scripts/validate_hbm_index_ops.py` on the cases of `asu_hbm_index_common.py`.

The script makes tables and queries, copies them to the device, launches the lookup and
the maintenance, and compares what it reads back with the reference. `validate_passes`:
on no case, seed or number of cores, in no interleaving and whatever the device memory
held before, does it raise an `AssertionError`.

## What makes the assertions pass

The cases are rows in the state that the operators ask for (`indexCase_ready`,
`maintainCase_maintainable`), and their queries are tokens of the row. With at most `2 ^ 15`
requests the launches leave what the reference computes, and the comparison is of the rows of the
requests: what the device memory held before, or holds behind them, is never looked at.

`Target` are the operators and paths that the command line offers, each on its own or all after
one another, and `seed` is what `--seed` gives: any integer.
-/
import AsuAscend.HbmIndex.MaintainScan
import AsuAscend.HbmIndex.Serving

set_option autoImplicit false

open MachineWords SentinelTable StrideCores

namespace AsuAscend.HbmIndex

/-! ## The cases -/

abbrev RESIDENT_SLOT_COUNT : ℕ := 8 * 1024

/-- The values of `--pattern`. -/
inductive Pattern where
  | hit
  | miss
  | mixed
deriving DecidableEq

section

variable (d : Sizes)

def hitQuery : List ℤ :=
  (List.range d.QUERY_COUNT).map fun i => ((i % RESIDENT_SLOT_COUNT : ℕ) : ℤ)

/-- The `"mixed"` row: hits, then misses, two of which are asked for twice. -/
def mixedQuery (req_id : ℕ) : List ℤ :=
  let half := d.QUERY_COUNT / 2
  let query := (hitQuery d).take half ++ (missQuery d req_id).take half
  let query := query.set (half + 1) (read query half)
  query.set (half + 3) (read query (half + 2))

def makeQuery (pattern : Pattern) (req_id : ℕ) : List ℤ :=
  match pattern with
  | .hit => hitQuery d
  | .miss => missQuery d req_id
  | .mixed => mixedQuery d req_id

/-- The arrays of `make_index_case`. -/
def makeIndexCase (req_num : ℕ) (pattern : Pattern) : Tables :=
  (repeatedRow d (indexCase d RESIDENT_SLOT_COUNT)).asking d req_num (makeQuery d pattern)

/-- A row of `make_maintain_case`: the residents, `evict_slots` tokens in the free slots that
they have been given, and the free list used up to there. -/
def maintainCase (evict_slots : ℕ) : Row where
  index := (List.range d.INDEX_SIZE).map fun t =>
    if t < RESIDENT_SLOT_COUNT then (t : ℤ)
    else if 20000 ≤ t ∧ t < 20000 + evict_slots then ((RESIDENT_SLOT_COUNT + (t - 20000) : ℕ) : ℤ)
    else NOT_FOUND
  slotToIndex := (List.range d.SLOT_COUNT).map fun s =>
    if s < RESIDENT_SLOT_COUNT then (s : ℤ)
    else if s < RESIDENT_SLOT_COUNT + evict_slots then ((20000 + (s - RESIDENT_SLOT_COUNT) : ℕ) : ℤ)
    else NOT_FOUND
  freeSlots := (List.range d.FREE_SLOT_COUNT).map fun i => ((RESIDENT_SLOT_COUNT + i : ℕ) : ℤ)
  freeHead := evict_slots

/-- A row of `last_query_slots` in `make_maintain_case`. -/
def lastQuerySlots (evict_slots : ℕ) : List ℤ :=
  (List.range (d.QUERY_COUNT - evict_slots)).map Int.ofNat ++
    (List.range evict_slots).map fun i => ((RESIDENT_SLOT_COUNT + i : ℕ) : ℤ)

def makeMaintainCase (req_num evict_slots : ℕ) : Tables :=
  (repeatedRow d (maintainCase d evict_slots)).asking d req_num fun _ => lastQuerySlots d evict_slots

/-! ## The script -/

inductive ValidationError where
  | halt (h : Halt)
  | assertion (array : String)
deriving DecidableEq

/-- `to_npu` of the host's arrays; `memory` is what the device held before, and holds
where the arrays do not reach. -/
def toNpu (req_num : ℕ) (host memory : Tables) : Tables :=
  (memory.served d (fun r => ([], host.row d arrayBase r)) (Finset.range req_num)).asking d req_num
    (host.queryRow d arrayBase)

/-- `np.testing.assert_array_equal` on arrays of `req_num` rows. -/
def assertArrayEqual (array : String) (req_num len : ℕ) (actual expected : ℕ → ℤ) :
    Except ValidationError Unit :=
  if ∀ r < req_num, window actual (arrayBase len r) len = window expected (arrayBase len r) len then
    .ok ()
  else .error (.assertion array)

def validateLookup (req_num blockNum : ℕ) (schedule : List ℕ) (case memory : Tables) :
    Except ValidationError Tables := do
  let expected ← (expectedLookup d req_num case).mapError .halt
  let s ← (lookupKernel d req_num blockNum schedule (toNpu d req_num case memory)).mapError .halt
  assertArrayEqual "slot_out" req_num d.QUERY_COUNT s.shared.slotOut expected.slotOut
  assertArrayEqual "index" req_num d.INDEX_SIZE s.shared.index expected.index
  assertArrayEqual "slot_to_index" req_num d.SLOT_COUNT s.shared.slotToIndex expected.slotToIndex
  assertArrayEqual "free_head" req_num 1 s.shared.freeHead expected.freeHead
  return expected

/-- The arrays that the maintenance is tried on: what the lookup has left, or a case of its own. -/
def maintainInput (req_num : ℕ) (evict_slots : Option ℕ) (case lookup_state : Tables) : Tables :=
  match evict_slots with
  | none => { lookup_state.handOver with freeSlots := case.freeSlots }
  | some evict_slots => makeMaintainCase d req_num evict_slots

def validateMaintain (fuel req_num : ℕ) (seed : ℤ) (evict_slots : Option ℕ) (path : MaintainPath)
    (case lookup_state memory : Tables) : Except ValidationError Unit := do
  let maintain := maintainInput d req_num evict_slots case lookup_state
  let expected ← (expectedMaintain d fuel seed req_num maintain).mapError .halt
  let actual ← (path.launch d fuel req_num (seedWord seed)
    (toNpu d req_num maintain memory)).mapError .halt
  assertArrayEqual "index" req_num d.INDEX_SIZE actual.index expected.index
  assertArrayEqual "slot_to_index" req_num d.SLOT_COUNT actual.slotToIndex expected.slotToIndex
  assertArrayEqual "free_slots" req_num d.FREE_SLOT_COUNT actual.freeSlots expected.freeSlots
  assertArrayEqual "free_head" req_num 1 actual.freeHead expected.freeHead

/-- The values of `--target`. -/
inductive Target where
  | lookup
  | maintain
  | both
deriving DecidableEq

/-- The arguments, how the device runs the launches, and what is in its memory before each. -/
structure Validation where
  target : Target
  req_num : ℕ
  pattern : Pattern
  seed : ℤ
  /-- the number that `--evict-ratio` comes to -/
  evict_slots : Option ℕ
  blockNum : ℕ
  schedule : List ℕ
  path : MaintainPath
  lookupMemory : Tables
  maintainMemory : Tables

/-- `main` -/
def Validation.main (fuel : ℕ) (v : Validation) : Except ValidationError Unit := do
  let case := makeIndexCase d v.req_num v.pattern
  let lookup_state ←
    if v.target = .maintain then (expectedLookup d v.req_num case).mapError .halt
    else validateLookup d v.req_num v.blockNum v.schedule case v.lookupMemory
  if v.target = .lookup then return ()
  else validateMaintain d fuel v.req_num v.seed v.evict_slots v.path case lookup_state v.maintainMemory

end

/-! ## The queries -/

section

variable {d : Sizes}

/-- The query of nothing but hits asks for tokens of the row. -/
theorem hitQuery_inRange (hindex : RESIDENT_SLOT_COUNT ≤ d.INDEX_SIZE) :
    (hitQuery d).length = d.QUERY_COUNT ∧ ∀ q ∈ hitQuery d, InRange d q := by
  refine ⟨by rw [hitQuery, List.length_map, List.length_range], fun q hq => ?_⟩
  obtain ⟨i, _, rfl⟩ := List.mem_map.mp hq
  have hlt : i % RESIDENT_SLOT_COUNT < RESIDENT_SLOT_COUNT := Nat.mod_lt _ (by decide)
  exact ⟨by omega, by omega⟩

/-- So does the one of hits and misses in turns. -/
theorem mixedQuery_inRange (hindex : RESIDENT_SLOT_COUNT ≤ d.INDEX_SIZE)
    (heven : d.QUERY_COUNT % 2 = 0) (hlen : 6 ≤ d.QUERY_COUNT) (req_id : ℕ) :
    (mixedQuery d req_id).length = d.QUERY_COUNT ∧ ∀ q ∈ mixedQuery d req_id, InRange d q := by
  have hpos : 0 < d.INDEX_SIZE := Nat.lt_of_lt_of_le (by decide) hindex
  obtain ⟨hhits, hhit⟩ := hitQuery_inRange hindex
  obtain ⟨hmisses, hmiss⟩ := missQuery_inRange hpos req_id
  have hquery : ((hitQuery d).take (d.QUERY_COUNT / 2) ++
        (missQuery d req_id).take (d.QUERY_COUNT / 2)).length = d.QUERY_COUNT ∧
      ∀ q ∈ (hitQuery d).take (d.QUERY_COUNT / 2) ++
        (missQuery d req_id).take (d.QUERY_COUNT / 2), InRange d q := by
    refine ⟨?_, fun q hq => ?_⟩
    · rw [List.length_append, List.length_take, List.length_take, hhits, hmisses]
      omega
    · rcases List.mem_append.mp hq with hq | hq
      · exact hhit q (List.mem_of_mem_take hq)
      · exact hmiss q (List.mem_of_mem_take hq)
  -- an element that is copied within the row stays in range
  have hcopy : ∀ {xs : List ℤ} {i j : ℕ}, xs.length = d.QUERY_COUNT ∧ (∀ q ∈ xs, InRange d q) →
      j < d.QUERY_COUNT → (xs.set i (read xs j)).length = d.QUERY_COUNT ∧
        ∀ q ∈ xs.set i (read xs j), InRange d q := by
    intro xs i j hxs hj
    refine ⟨by rw [List.length_set, hxs.1], fun q hq => ?_⟩
    rcases List.mem_or_eq_of_mem_set hq with hq | rfl
    · exact hxs.2 q hq
    · exact hxs.2 _ (read_mem (by rw [hxs.1]; exact hj))
  exact hcopy (hcopy hquery (by omega)) (by omega)

/-- And the query of any pattern. -/
theorem makeQuery_inRange (hindex : RESIDENT_SLOT_COUNT ≤ d.INDEX_SIZE)
    (heven : d.QUERY_COUNT % 2 = 0) (hlen : 6 ≤ d.QUERY_COUNT) (pattern : Pattern) (req_id : ℕ) :
    (makeQuery d pattern req_id).length = d.QUERY_COUNT ∧
      ∀ q ∈ makeQuery d pattern req_id, InRange d q := by
  cases pattern with
  | hit => exact hitQuery_inRange hindex
  | miss => exact missQuery_inRange (Nat.lt_of_lt_of_le (by decide) hindex) req_id
  | mixed => exact mixedQuery_inRange hindex heven hlen req_id

end

/-! ## The arrays -/

section

variable {d : Sizes} {n r : ℕ}

/-- A request of a case finds its own row and its own queries. -/
theorem repeatedRow_asking {row : Row} {query : ℕ → List ℤ} (hindex : row.index.length = d.INDEX_SIZE)
    (hslot : row.slotToIndex.length = d.SLOT_COUNT) (hfree : row.freeSlots.length = d.FREE_SLOT_COUNT)
    (hquery : (query r).length = d.QUERY_COUNT) (hr : r < n) :
    ((repeatedRow d row).asking d n query).row d arrayBase r = row ∧
      ((repeatedRow d row).asking d n query).queryRow d arrayBase r = query r :=
  ⟨repeatedRow_row hindex hslot hfree r, asking_queryRow hr hquery⟩

/-- What has been copied to the device is there. -/
theorem toNpu_row (host memory : Tables) (hr : r < n) :
    (toNpu d n host memory).row d arrayBase r = host.row d arrayBase r ∧
      (toNpu d n host memory).queryRow d arrayBase r = host.queryRow d arrayBase r := by
  have hfill : Fills d (([], host.row d arrayBase r) : List ℤ × Row) :=
    ⟨length_window _ _ _, length_window _ _ _, length_window _ _ _, Nat.zero_le _⟩
  refine ⟨?_, asking_queryRow hr (length_window _ _ _)⟩
  unfold toNpu
  rw [asking_row, served_row_mem (Finset.mem_range.mpr hr)]
  exact hfill

/-- The assertion passes where the arrays agree in the rows of the requests. -/
theorem assertArrayEqual_ok {array : String} {len : ℕ} {actual expected : ℕ → ℤ}
    (h : ∀ r < n, window actual (arrayBase len r) len = window expected (arrayBase len r) len) :
    assertArrayEqual array n len actual expected = .ok () := if_pos h

/-- Tables with the same rows compare equal, whatever the arrays are called. -/
theorem tables_equal {m m' : Tables} (h : ∀ r < n, m.row d arrayBase r = m'.row d arrayBase r)
    (array : String) :
    assertArrayEqual array n d.INDEX_SIZE m.index m'.index = .ok () ∧
      assertArrayEqual array n d.SLOT_COUNT m.slotToIndex m'.slotToIndex = .ok () ∧
      assertArrayEqual array n d.FREE_SLOT_COUNT m.freeSlots m'.freeSlots = .ok () ∧
      assertArrayEqual array n 1 m.freeHead m'.freeHead = .ok () := by
  refine ⟨assertArrayEqual_ok fun r hr => congrArg Row.index (h r hr),
    assertArrayEqual_ok fun r hr => congrArg Row.slotToIndex (h r hr),
    assertArrayEqual_ok fun r hr => congrArg Row.freeSlots (h r hr), assertArrayEqual_ok ?_⟩
  intro r hr
  have hhead : m.freeHead r = m'.freeHead r := congrArg Row.freeHead (h r hr)
  unfold window arrayBase
  rw [List.range_one, List.map_singleton, List.map_singleton, Nat.mul_one, Nat.add_zero, hhead]

end

/-! ## The lookup -/

section

variable {d : Sizes} {n : ℕ} {case memory : Tables} {blockNum : ℕ} {schedule : List ℕ}

/-- The device's arrays are the expected ones. -/
theorem validateLookup_ok (hd : d.Fits) (hbase : ∀ r < n, Exact d kernelBase r)
    (hm : LookupState d n case) (hfair : FairTurns n blockNum schedule) (memory : Tables) :
    ∃ expected, validateLookup d n blockNum schedule case memory = .ok expected ∧
      expectedLookup d n case = .ok expected ∧
      ∀ r < n, processRow d (case.queryRow d arrayBase r) (case.row d arrayBase r) =
        .ok (window expected.slotOut (arrayBase d.QUERY_COUNT r) d.QUERY_COUNT,
          expected.row d arrayBase r) := by
  have hcopied : LookupState d n (toNpu d n case memory) := fun r hr => by
    rw [(toNpu_row case memory hr).1, (toNpu_row case memory hr).2]
    exact hm r hr
  obtain ⟨t, _, hexpected, hhost⟩ := lookup_launch hd hbase hm hfair
  obtain ⟨s, hlookup, _, hdevice⟩ := lookup_launch hd hbase hcopied hfair
  -- row by row, both are what the kernel makes of the same row and queries
  have hrows : ∀ r < n, window s.shared.slotOut (arrayBase d.QUERY_COUNT r) d.QUERY_COUNT =
        window t.shared.slotOut (arrayBase d.QUERY_COUNT r) d.QUERY_COUNT ∧
      s.shared.row d arrayBase r = t.shared.row d arrayBase r := by
    intro r hr
    have hdev := hdevice r hr
    rw [(toNpu_row case memory hr).1, (toNpu_row case memory hr).2, hhost r hr] at hdev
    obtain ⟨hout, hrow⟩ := Prod.mk.inj (Except.ok.inj hdev)
    exact ⟨hout.symm, hrow.symm⟩
  refine ⟨t.shared, ?_, hexpected, hhost⟩
  unfold validateLookup
  rw [hexpected, hlookup]
  show (do
    assertArrayEqual "slot_out" n d.QUERY_COUNT s.shared.slotOut t.shared.slotOut
    assertArrayEqual "index" n d.INDEX_SIZE s.shared.index t.shared.index
    assertArrayEqual "slot_to_index" n d.SLOT_COUNT s.shared.slotToIndex t.shared.slotToIndex
    assertArrayEqual "free_head" n 1 s.shared.freeHead t.shared.freeHead
    return t.shared) = _
  have hsame := tables_equal fun r hr => (hrows r hr).2
  rw [assertArrayEqual_ok fun r hr => (hrows r hr).1, (hsame _).1, (hsame _).2.1, (hsame _).2.2.2]
  rfl

end

/-! ## The maintenance -/

section

variable {d : Sizes} {fuel n : ℕ}

/-- The reference sees no more of the seed than `c_uint32` hands to the kernels. -/
theorem expectedMaintain_seed (seed : ℤ) (m : Tables) :
    expectedMaintain d fuel seed n m = expectedMaintain d fuel (seedWord seed).toNat n m := by
  have hword : u32 ((seedWord seed).toNat : ℤ) = u32 seed := by
    rw [toNat_seedWord, u32_natCast (u32_lt seed)]
  have hop : expectedMaintainOp d fuel seed = expectedMaintainOp d fuel (seedWord seed).toNat := by
    funext mem r last row
    unfold expectedMaintainOp expectedMaintainRow
    rw [hword]
  unfold expectedMaintain
  rw [hop]

/-- The device's arrays are the expected ones, on rows that both passes can maintain. -/
theorem validateMaintain_ok (hd : d.Fits) (hrows : ∀ r < n, Addressed d r) (hn : n ≤ 2 ^ 32)
    {seed : ℤ} {evict_slots : Option ℕ} {host lookup_state : Tables} {after : ℕ → Row}
    (hm : ∀ r < n, Maintained d fuel (seedWord seed) (UInt32.ofNat r)
      ((maintainInput d n evict_slots host lookup_state).queryRow d arrayBase r)
      ((maintainInput d n evict_slots host lookup_state).row d arrayBase r) (after r))
    {path : MaintainPath} (hpath : path.Finishes d n) (memory : Tables) :
    validateMaintain d fuel n seed evict_slots path host lookup_state memory = .ok () := by
  have hcopied : ∀ r < n, Maintained d fuel (seedWord seed) (UInt32.ofNat r)
      ((toNpu d n (maintainInput d n evict_slots host lookup_state) memory).queryRow d arrayBase r)
      ((toNpu d n (maintainInput d n evict_slots host lookup_state) memory).row d arrayBase r)
      (after r) := fun r hr => by
    rw [(toNpu_row _ memory hr).1, (toNpu_row _ memory hr).2]
    exact hm r hr
  obtain ⟨expected, _, hexpected, hhost⟩ := maintain_launch hd hrows hn hm hpath
  obtain ⟨actual, hlaunch, _, hdevice⟩ := maintain_launch hd hrows hn hcopied hpath
  rw [← expectedMaintain_seed] at hexpected
  have hsame := tables_equal fun r hr => (hdevice r hr).trans (hhost r hr).symm
  unfold validateMaintain
  dsimp only
  rw [hexpected, hlaunch]
  show (do
    assertArrayEqual "index" n d.INDEX_SIZE actual.index expected.index
    assertArrayEqual "slot_to_index" n d.SLOT_COUNT actual.slotToIndex expected.slotToIndex
    assertArrayEqual "free_slots" n d.FREE_SLOT_COUNT actual.freeSlots expected.freeSlots
    assertArrayEqual "free_head" n 1 actual.freeHead expected.freeHead) = _
  rw [(hsame _).1, (hsame _).2.1, (hsame _).2.2.1, (hsame _).2.2.2]
  rfl

/-- A row whose occupied slots outnumber its head by those that are protected can be
maintained. -/
theorem maintained_of_enough (hd : d.Fits) {row : Row} (h : Maintainable d row) {last : List ℤ}
    (hlen : last.length = d.QUERY_COUNT) (hlast : ∀ z ∈ last, 0 ≤ z ∧ z < d.SLOT_COUNT)
    (henough : row.freeHead ≤ (unprotected row last (List.range d.SLOT_COUNT)).length)
    (hfuel : d.SLOT_COUNT ≤ fuel) (seed reqId : UInt32) :
    ∃ after, Maintained d fuel seed reqId last row after := by
  have hhead := h.freeHead.1
  obtain ⟨victims, _, _, _, hmaint⟩ := maintainRow_spec hd (h.walkable hd) last hlen hlast
    (Int.toNat_of_nonneg hhead).symm (by
      show row.freeHead.toNat ≤ (unprotected row last (List.range d.SLOT_COUNT)).length
      omega) hfuel seed reqId
  exact ⟨_, hlast, hmaint,
    expectedMaintainRow_eq hd hlen hlast (h.int32Row hd) (fun herr => by cases herr) hmaint⟩

end

/-! ## The case of the maintenance

The last query protects the slots that were placed last and some of the older ones; there are as
many others as have to be taken back, and more. -/

section

variable {d : Sizes} {evict_slots : ℕ}

/-- The row of a maintenance case is in order. -/
theorem maintainCase_maintainable (hindex : 20000 + d.FREE_SLOT_COUNT ≤ d.INDEX_SIZE)
    (hslot : RESIDENT_SLOT_COUNT + d.FREE_SLOT_COUNT = d.SLOT_COUNT)
    (hevict : evict_slots ≤ d.FREE_SLOT_COUNT) : Maintainable d (maintainCase d evict_slots) where
  index_length := by rw [maintainCase, List.length_map, List.length_range]
  slot_length := by rw [maintainCase, List.length_map, List.length_range]
  free_length := by rw [maintainCase, List.length_map, List.length_range]
  token := by
    intro slot hlt
    have hcount : RESIDENT_SLOT_COUNT = 8192 := rfl
    unfold maintainCase
    dsimp only
    rw [read_map_range hlt]
    split_ifs with hres hnew
    · exact Or.inr ⟨by omega, by omega⟩
    · exact Or.inr ⟨by omega, by omega⟩
    · exact Or.inl rfl
  freeHead := by
    show (0 : ℤ) ≤ (evict_slots : ℕ) ∧ ((evict_slots : ℕ) : ℤ) ≤ d.FREE_SLOT_COUNT
    omega

/-- The slots of the last query: residents that stay, and slots that are free. -/
theorem mem_lastQuerySlots {z : ℤ} : z ∈ lastQuerySlots d evict_slots ↔
    (0 ≤ z ∧ z < (d.QUERY_COUNT - evict_slots : ℕ)) ∨
      (RESIDENT_SLOT_COUNT ≤ z ∧ z < (RESIDENT_SLOT_COUNT + evict_slots : ℕ)) := by
  unfold lastQuerySlots
  rw [List.mem_append, List.mem_map, List.mem_map]
  constructor
  · rintro (⟨i, hi, rfl⟩ | ⟨i, hi, rfl⟩)
    · rw [List.mem_range] at hi
      exact Or.inl ⟨Int.natCast_nonneg i, Int.ofNat_lt.mpr hi⟩
    · rw [List.mem_range] at hi
      exact Or.inr ⟨by omega, by omega⟩
  · rintro (⟨h0, h1⟩ | ⟨h0, h1⟩)
    · exact Or.inl ⟨z.toNat, List.mem_range.mpr (by omega), Int.toNat_of_nonneg h0⟩
    · exact Or.inr ⟨(z - RESIDENT_SLOT_COUNT).toNat, List.mem_range.mpr (by omega), by omega⟩

/-- As many residents as are to be evicted are not among the last query slots. -/
theorem maintainCase_enough (hslot : RESIDENT_SLOT_COUNT + d.FREE_SLOT_COUNT = d.SLOT_COUNT)
    (hquery : d.QUERY_COUNT ≤ RESIDENT_SLOT_COUNT) (hevict : evict_slots ≤ d.QUERY_COUNT) :
    evict_slots ≤ (unprotected (maintainCase d evict_slots) (lastQuerySlots d evict_slots)
      (List.range d.SLOT_COUNT)).length := by
  have hsub : List.range' (d.QUERY_COUNT - evict_slots) evict_slots ⊆
      unprotected (maintainCase d evict_slots) (lastQuerySlots d evict_slots)
        (List.range d.SLOT_COUNT) := by
    intro s hs
    rw [List.mem_range'_1] at hs
    rw [unprotected, List.mem_filter, List.mem_range, decide_eq_true_iff]
    refine ⟨by omega, ?_, ?_⟩
    · unfold maintainCase
      dsimp only
      rw [read_map_range (by omega), if_pos (by omega)]
      unfold NOT_FOUND
      omega
    · rw [mem_lastQuerySlots]
      omega
  have hle := (List.subperm_of_subset List.nodup_range' hsub).length_le
  rwa [List.length_range'] at hle

end

/-! ## The script -/

section

variable {d : Sizes} {n r : ℕ}

/-- What the cases need of the sizes. -/
structure CaseSizes (d : Sizes) : Prop where
  index : 20000 + d.FREE_SLOT_COUNT ≤ d.INDEX_SIZE
  slot : RESIDENT_SLOT_COUNT + d.FREE_SLOT_COUNT = d.SLOT_COUNT
  query_even : d.QUERY_COUNT % 2 = 0
  query_pos : 6 ≤ d.QUERY_COUNT
  query_le : d.QUERY_COUNT ≤ RESIDENT_SLOT_COUNT

/-- The residents of a case are tokens of the row. -/
theorem CaseSizes.resident_le (h : CaseSizes d) : RESIDENT_SLOT_COUNT ≤ d.INDEX_SIZE := by
  have hcount : RESIDENT_SLOT_COUNT = 8192 := rfl
  have hindex := h.index
  omega

/-- Every request of a case has the row and the query of that case. -/
theorem makeIndexCase_row (h : CaseSizes d) (pattern : Pattern) (hr : r < n) :
    (makeIndexCase d n pattern).row d arrayBase r = indexCase d RESIDENT_SLOT_COUNT ∧
      (makeIndexCase d n pattern).queryRow d arrayBase r = makeQuery d pattern r := by
  have hready := indexCase_ready h.resident_le h.slot
  exact repeatedRow_asking hready.index_length hready.slot_length hready.free_length
    (makeQuery_inRange h.resident_le h.query_even h.query_pos pattern r).1 hr

theorem makeMaintainCase_row (h : CaseSizes d) {evict_slots : ℕ} (hevict : evict_slots ≤ d.QUERY_COUNT)
    (hfree : evict_slots ≤ d.FREE_SLOT_COUNT) (hr : r < n) :
    (makeMaintainCase d n evict_slots).row d arrayBase r = maintainCase d evict_slots ∧
      (makeMaintainCase d n evict_slots).queryRow d arrayBase r = lastQuerySlots d evict_slots := by
  have hmaint := maintainCase_maintainable h.index h.slot hfree
  refine repeatedRow_asking hmaint.index_length hmaint.slot_length hmaint.free_length ?_ hr
  rw [lastQuerySlots, List.length_append, List.length_map, List.length_range, List.length_map,
    List.length_range]
  omega

/-- The arguments that the parser and `evict_slots_from_ratio` let through, and launches whose
cores finish. -/
structure Validation.Runs (d : Sizes) (v : Validation) : Prop where
  evict_slots : ∀ e, v.evict_slots = some e → e ≤ d.FREE_SLOT_COUNT
  lookup : FairTurns v.req_num v.blockNum v.schedule
  maintain : v.path.Finishes d v.req_num

/-- Either input of the maintenance can be maintained, by the kernels and by the reference. -/
theorem maintainInput_maintained (hd : d.Fits) (hsizes : CaseSizes d)
    (hfree : d.FREE_SLOT_COUNT ≤ d.QUERY_COUNT) {fuel : ℕ} (hfuel : d.SLOT_COUNT ≤ fuel)
    {pattern : Pattern} {evict_slots : Option ℕ}
    (hevict : ∀ e, evict_slots = some e → e ≤ d.FREE_SLOT_COUNT) {expected : Tables}
    (hexpected : ∀ r < n, processRow d ((makeIndexCase d n pattern).queryRow d arrayBase r)
        ((makeIndexCase d n pattern).row d arrayBase r) =
      .ok (window expected.slotOut (arrayBase d.QUERY_COUNT r) d.QUERY_COUNT,
        expected.row d arrayBase r)) (seed : UInt32) (hr : r < n) :
    ∃ after, Maintained d fuel seed (UInt32.ofNat r)
      ((maintainInput d n evict_slots (makeIndexCase d n pattern) expected).queryRow d arrayBase r)
      ((maintainInput d n evict_slots (makeIndexCase d n pattern) expected).row d arrayBase r)
      after := by
  cases hcase : evict_slots with
  | some e =>
      have he := hevict e hcase
      obtain ⟨hrow, hquery⟩ := makeMaintainCase_row hsizes (he.trans hfree) he hr
      show ∃ after, Maintained d fuel seed (UInt32.ofNat r)
        ((makeMaintainCase d n e).queryRow d arrayBase r)
        ((makeMaintainCase d n e).row d arrayBase r) after
      rw [hrow, hquery]
      refine maintained_of_enough hd (maintainCase_maintainable hsizes.index hsizes.slot he) ?_ ?_ ?_
        hfuel seed _
      · rw [← hquery]
        exact length_window _ _ _
      · intro z hz
        have hslot := hsizes.slot
        rcases mem_lastQuerySlots.mp hz with hz | hz
        · have hle := hsizes.query_le
          omega
        · omega
      · exact Int.ofNat_le.mpr (maintainCase_enough hsizes.slot hsizes.query_le (he.trans hfree))
  | none =>
      obtain ⟨hrow, hquery⟩ := makeIndexCase_row hsizes pattern hr
      obtain ⟨hlen, hin⟩ := makeQuery_inRange hsizes.resident_le hsizes.query_even hsizes.query_pos
        pattern r
      have hready : Ready d (indexCase d RESIDENT_SLOT_COUNT) :=
        indexCase_ready hsizes.resident_le hsizes.slot
      have hprocess := hexpected r hr
      rw [hrow, hquery] at hprocess
      -- the lookup leaves the free list as the case has it
      have hfreeSlots : window (makeIndexCase d n pattern).freeSlots
          (arrayBase d.FREE_SLOT_COUNT r) d.FREE_SLOT_COUNT =
          (expected.row d arrayBase r).freeSlots := by
        obtain ⟨c, k, hc, _, hallocated⟩ := processRow_spec hd hready hlen hin
        cases Except.ok.inj (hprocess.symm.trans hc)
        exact (congrArg Row.freeSlots hrow).trans hallocated.freeSlots.symm
      obtain ⟨x, hx, _, _, _⟩ := round_spec hd hready hlen hin
        (by rw [indexCase_residents hsizes.resident_le]; exact hsizes.query_le) hfuel
        (UInt32.ofNat r) seed
      obtain ⟨_, hmaintained⟩ := maintained_of_round hd hready hlen hin hprocess hx
      refine ⟨x.after, ?_⟩
      have hinput : (maintainInput d n none (makeIndexCase d n pattern) expected).row d arrayBase r =
          expected.row d arrayBase r := by
        show Row.mk _ _ (window (makeIndexCase d n pattern).freeSlots _ _) _ = _
        rw [hfreeSlots]
        rfl
      rw [hinput]
      exact hmaintained

/-- **The validation**, for any sizes of a case: no assertion fails, and nothing else raises. -/
theorem main_ok (hd : d.Fits) (hsizes : CaseSizes d) (hfree : d.FREE_SLOT_COUNT ≤ d.QUERY_COUNT)
    {v : Validation} (hv : v.Runs d) (haddr : ∀ r < v.req_num, Addressed d r)
    (hn : v.req_num ≤ 2 ^ 32) {fuel : ℕ} (hfuel : d.SLOT_COUNT ≤ fuel) :
    v.main d fuel = .ok () := by
  -- the lookup's half: tables that can be looked up in
  have hstate : LookupState d v.req_num (makeIndexCase d v.req_num v.pattern) := fun r hr => by
    obtain ⟨hrow, hquery⟩ := makeIndexCase_row hsizes v.pattern hr
    obtain ⟨hlen, hin⟩ := makeQuery_inRange hsizes.resident_le hsizes.query_even hsizes.query_pos
      v.pattern r
    rw [hrow, hquery]
    exact (indexCase_ready hsizes.resident_le hsizes.slot).lookupable hd hlen hin
  obtain ⟨expected, hvalidate, hlookup, hrows⟩ :=
    validateLookup_ok hd (fun r hr => (haddr r hr).exact) hstate hv.lookup v.lookupMemory
  -- the maintenance's half: made from a ratio, or what the lookup's reference leaves
  have hmaintained : ∀ r, ∃ after, r < v.req_num →
      Maintained d fuel (seedWord v.seed) (UInt32.ofNat r)
        ((maintainInput d v.req_num v.evict_slots (makeIndexCase d v.req_num v.pattern)
          expected).queryRow d arrayBase r)
        ((maintainInput d v.req_num v.evict_slots (makeIndexCase d v.req_num v.pattern)
          expected).row d arrayBase r) after := by
    intro r
    by_cases hr : r < v.req_num
    · obtain ⟨after, h⟩ := maintainInput_maintained hd hsizes hfree hfuel hv.evict_slots hrows
        (seedWord v.seed) hr
      exact ⟨after, fun _ => h⟩
    · exact ⟨indexCase d 0, fun hlt => absurd hlt hr⟩
  choose after hafter using hmaintained
  have hmaintain := validateMaintain_ok hd haddr hn hafter hv.maintain v.maintainMemory
  unfold Validation.main
  cases htarget : v.target with
  | lookup =>
      rw [if_neg (by decide), hvalidate]
      rfl
  | maintain =>
      rw [if_pos rfl, hlookup]
      exact hmaintain
  | both =>
      rw [if_neg (by decide), hvalidate]
      exact hmaintain

end

/-- The sizes that are built in have such cases. -/
theorem hbmSizes_cases : CaseSizes hbmSizes := ⟨by decide, by decide, by decide, by decide, by decide⟩

/-- **The script passes.** For up to `2 ^ 15` requests, every target, pattern and seed, with or
without an eviction ratio, `main` raises nothing: what the device computes is what the
reference computes, whatever its memory held before, on any numbers of cores, in any
interleaving of theirs, and with the maintenance on either path. -/
theorem validate_passes (v : Validation) (hreq : v.req_num ≤ 2 ^ 15) (hv : v.Runs hbmSizes) (fuel : ℕ)
    (hfuel : hbmSizes.SLOT_COUNT ≤ fuel) : v.main hbmSizes fuel = .ok () := by
  exact main_ok hbmSizes_fits hbmSizes_cases (by decide) hv (fun r hr => addressed_hbmSizes (by omega))
    (by omega) hfuel

/-- The default arguments, with a quarter of the free slots to be refilled, on two cores. -/
def quarterEvicted : Validation where
  target := .both
  req_num := 2
  pattern := .mixed
  seed := 2026
  evict_slots := some 512
  blockNum := 2
  schedule := [0, 1, 1, 0]
  path := .cores 2 (fun _ => clearProtectedSlots hbmSizes) [1, 0, 0, 1]
  lookupMemory := newTables hbmSizes
  maintainMemory := newTables hbmSizes

theorem validate_passes_quarterEvicted : quarterEvicted.main hbmSizes 10240 = .ok () := by
  refine validate_passes quarterEvicted (by decide) ⟨?_, ?_, ?_⟩ 10240 (by decide)
  · intro e he
    cases he
    decide
  · exact ⟨by decide, by decide, by decide⟩
  · exact ⟨⟨by decide, by decide, by decide⟩, fun _ _ => List.length_replicate⟩

end AsuAscend.HbmIndex
