/-
`KernelHbmLookupVec`: the lookup of all queries by tiles of 64.

The tiles of all requests are numbered through, and each core takes every `blockNum`-th.
Tile `t` of a launch goes to the addresses `64 * t .. 64 * t + 63` of the padded output,
whatever request it belongs to; that is why no two tiles meet. The guards of the host
bound the padded output by `2 ^ 32`, and every other number that the kernel computes is
below that size or below the size of the tables (`exactLaunch`).

## The steps of the argument

`exactLaunch` replaces every wrapping number of the launch by the number that it stands for.
Then a tile is a request and a stretch of 64 queries of it; tiles are numbered without gaps, so
that each core's share is a residue class and every tile has one core. What a tile stores
depends on nothing that another tile stores, and so the order of the stores does not matter
(`Lib.Interleavings`). `lookup_vec_correct` puts the pieces together for the call of the host.

The last tile of a request is ragged. Its keys are read one by one, so that none of the next
request is taken, and its lanes past the end write zeros into the padding of the output, which
the host cuts off again.
-/
import AsuAscend.LookupUpdate.Shapes
import AsuAscend.Lib.Interleavings

set_option autoImplicit false

open MachineWords WrappingLoop WorkSplit Interleavings

namespace AsuAscend.LookupUpdate

/-! ## The kernel -/

/-- The sum `x + y` may be `2 ^ 32` already; then the subtraction wraps back. -/
def ceilDivU32 (x y : ℕ) : ℕ := u32 (u32 (x + y : ℕ) - 1) / y

def alignUpU32 (x align : ℕ) : ℕ := u32 (ceilDivU32 x align * align : ℕ)

def queryTileNum (queryLen : ℕ) : ℕ := ceilDivU32 queryLen QUERY_TILE

def totalTileNum (reqNum queryLen : ℕ) : ℕ := u32 (reqNum * queryTileNum queryLen : ℕ)

/-- The numbers of an iteration of `Process`. -/
structure Tile where
  reqId : ℕ
  reqTileId : ℕ
  qBase : ℕ
  valid : ℕ
  indexBase : ℕ
  queryBase : ℕ
  outBase : ℕ
deriving DecidableEq

def tileOf (queryLen tileId : ℕ) : Tile :=
  let reqId := tileId / queryTileNum queryLen
  let reqTileId := u32 (tileId - u32 (reqId * queryTileNum queryLen : ℕ))
  let qBase := u32 (reqTileId * QUERY_TILE : ℕ)
  { reqId, reqTileId, qBase
    valid := min QUERY_TILE (u32 (queryLen - qBase))
    indexBase := u32 (reqId * INDEX_SIZE : ℕ)
    queryBase := u32 (reqId * queryLen : ℕ)
    outBase := u32 (reqId * alignUpU32 queryLen QUERY_TILE : ℕ) }

section

variable (queryLen : ℕ) (queryKeys tableStates : ℕ → ℤ)

/-- `tableStatesGm_.GetValue(indexBase + key)` -/
def stateOf (t : Tile) (key : ℤ) : ℤ := tableStates (u32 (t.indexBase + u32 key : ℕ))

/-- Element `i` of `outTile` at the end of the iteration. A full tile of keys comes by
`DataCopy`, the keys of the last one are read one by one. -/
def outTile (t : Tile) (i : ℕ) : ℤ :=
  if t.valid = QUERY_TILE then
    stateOf tableStates t (queryKeys (u32 (t.queryBase + t.qBase : ℕ) + i))
  else if i < t.valid then
    stateOf tableStates t (queryKeys (u32 (u32 (t.queryBase + t.qBase : ℕ) + i : ℕ)))
  else 0

/-- The `DataCopy` to `statesOut`. -/
def tileStores (tileId : ℕ) : List (ℕ × ℤ) :=
  let t := tileOf queryLen tileId
  (List.range QUERY_TILE).map fun i =>
    (u32 (t.outBase + t.qBase : ℕ) + i, outTile queryKeys tableStates t i)

end

/-- A run of `hbm_lookup_vec`: the tiles that each core visits, and the stores of all cores
in the order in which they reach the memory. -/
structure VecRun (l : LookupLaunch) (queryKeys tableStates : ℕ → ℤ) (tiles : ℕ → List ℕ)
    (order : List (ℕ × ℕ × ℤ)) : Prop where
  visits : Visits (totalTileNum l.reqNum l.queryLen) l.blockDim tiles
  stores : Interleaves l.blockDim
    (fun c => (tiles c).flatMap (tileStores l.queryLen queryKeys tableStates)) order

/-- What the launch, if there is one, leaves of `outFull`. -/
def LookupStage (lookup : Option LookupLaunch) (queryKeys tableStates outFull outFull' : ℕ → ℤ) :
    Prop :=
  match lookup with
  | none => outFull' = outFull
  | some l => ∃ tiles order, VecRun l queryKeys tableStates tiles order ∧
      outFull' = writeAll (order.map Prod.snd) outFull

/-! ## The numbers without the wraps -/

/-- The tiles of a request. -/
def tilesOf (queryLen : ℕ) : ℕ := (queryLen + 63) / 64

def exactTile (queryLen tileId : ℕ) : Tile where
  reqId := tileId / tilesOf queryLen
  reqTileId := tileId % tilesOf queryLen
  qBase := tileId % tilesOf queryLen * 64
  valid := min 64 (queryLen - tileId % tilesOf queryLen * 64)
  indexBase := tileId / tilesOf queryLen * INDEX_SIZE
  queryBase := tileId / tilesOf queryLen * queryLen
  outBase := tileId / tilesOf queryLen * (tilesOf queryLen * 64)

/-- Every 32-bit number of a launch is the number without the wrap, and no difference is
below zero. -/
structure ExactLaunch (reqNum queryLen blockNum : ℕ) : Prop where
  queryTileNum : queryTileNum queryLen = tilesOf queryLen
  padded : alignUpU32 queryLen QUERY_TILE = tilesOf queryLen * 64
  total : totalTileNum reqNum queryLen = reqNum * tilesOf queryLen
  buffers : ∀ len ∈ [INDEX_SIZE, queryLen, tilesOf queryLen * 64],
    u32 (reqNum * len : ℕ) = reqNum * len
  tile : ∀ t < reqNum * tilesOf queryLen, tileOf queryLen t = exactTile queryLen t
  qBase_lt : ∀ t < reqNum * tilesOf queryLen, (exactTile queryLen t).qBase < queryLen
  key : ∀ t < reqNum * tilesOf queryLen, ∀ key < INDEX_SIZE,
    u32 ((exactTile queryLen t).indexBase + key : ℕ) = (exactTile queryLen t).indexBase + key
  query : ∀ t < reqNum * tilesOf queryLen,
    u32 ((exactTile queryLen t).queryBase + (exactTile queryLen t).qBase : ℕ) =
      (exactTile queryLen t).queryBase + (exactTile queryLen t).qBase
  queryElem : ∀ t < reqNum * tilesOf queryLen, ∀ i < (exactTile queryLen t).valid,
    u32 ((exactTile queryLen t).queryBase + (exactTile queryLen t).qBase + i : ℕ) =
      (exactTile queryLen t).queryBase + (exactTile queryLen t).qBase + i
  out : ∀ t < reqNum * tilesOf queryLen,
    u32 ((exactTile queryLen t).outBase + (exactTile queryLen t).qBase : ℕ) = 64 * t
  increment : ∀ t < reqNum * tilesOf queryLen, u32 (t + blockNum : ℕ) = t + blockNum

/-- The address of a query, by request and position in the request. -/
theorem exactTile_query (queryLen t i : ℕ) :
    (exactTile queryLen t).queryBase + (exactTile queryLen t).qBase + i =
      t / tilesOf queryLen * queryLen + (t % tilesOf queryLen * 64 + i) := Nat.add_assoc _ _ _

/-- An element of row `r` of `n` rows comes before the end of them. -/
theorem row_lt {r n len i : ℕ} (hr : r < n) (hi : i < len) : r * len + i < n * len :=
  calc r * len + i < (r + 1) * len := by rw [Nat.succ_mul]; omega
    _ ≤ n * len := Nat.mul_le_mul_right len hr

/-- A tile, and the place in the queries that it begins at. -/
theorem tile_lt {reqNum queryLen t : ℕ} (ht : t < reqNum * tilesOf queryLen) :
    t / tilesOf queryLen < reqNum ∧ t % tilesOf queryLen * 64 < queryLen := by
  have hpos : 0 < tilesOf queryLen := Nat.pos_of_mul_pos_left (Nat.zero_lt_of_lt ht)
  have hmod := Nat.mod_lt t hpos
  refine ⟨Nat.div_lt_of_lt_mul (by rwa [Nat.mul_comm]), ?_⟩
  unfold tilesOf at hmod ⊢
  omega

/-- The rounding up is exact as long as the sum fits 32 bits. -/
theorem ceilDivU32_tile {x : ℕ} (h : x + 63 < 2 ^ 32) : ceilDivU32 x QUERY_TILE = (x + 63) / 64 := by
  change u32 (u32 (x + 64 : ℕ) - 1) / 64 = (x + 63) / 64
  unfold u32
  omega

namespace Guarded

variable {reqNum queryLen : ℕ}

/-- Within the guard every product of the launch fits 32 bits: here the padded output. -/
theorem out_lt (h : Guarded reqNum queryLen) : reqNum * (tilesOf queryLen * 64) < 2 ^ 32 := by
  have hle : tilesOf queryLen * 64 ≤ paddedLen queryLen := by
    rw [paddedLen_eq]
    unfold tilesOf
    omega
  exact Nat.lt_of_le_of_lt ((Nat.mul_le_mul_left reqNum hle).trans h.padded) (by decide)

/-- Here the elements of the tables. -/
theorem tables_lt (h : Guarded reqNum queryLen) : reqNum * INDEX_SIZE < 2 ^ 32 :=
  Nat.lt_of_le_of_lt h.tables (by decide)

theorem queryTileNum_eq (h : Guarded reqNum queryLen) : queryTileNum queryLen = tilesOf queryLen := by
  have := h.queryLen_le
  exact ceilDivU32_tile (by omega)

theorem alignUpU32_eq (h : Guarded reqNum queryLen) :
    alignUpU32 queryLen QUERY_TILE = tilesOf queryLen * 64 := by
  have hle := Nat.le_mul_of_pos_left (tilesOf queryLen * 64) h.req_pos
  unfold alignUpU32
  rw [show ceilDivU32 queryLen QUERY_TILE = tilesOf queryLen from h.queryTileNum_eq]
  exact u32_natCast (Nat.lt_of_le_of_lt hle h.out_lt)

/-- There are fewer than `2 ^ 26` tiles, so that their numbers fit with room to spare. -/
theorem tiles_lt (h : Guarded reqNum queryLen) : reqNum * tilesOf queryLen < 2 ^ 26 := by
  have hout := h.out_lt
  rw [← Nat.mul_assoc] at hout
  omega

theorem totalTileNum_eq (h : Guarded reqNum queryLen) :
    totalTileNum reqNum queryLen = reqNum * tilesOf queryLen := by
  have hlt := h.tiles_lt
  unfold totalTileNum
  rw [h.queryTileNum_eq]
  exact u32_natCast (by omega)

theorem tileOf_eq (h : Guarded reqNum queryLen) {t : ℕ} (ht : t < reqNum * tilesOf queryLen) :
    tileOf queryLen t = exactTile queryLen t := by
  obtain ⟨hr, hk⟩ := tile_lt ht
  have htiles := h.tiles_lt
  have hdiv := Nat.div_add_mod' t (tilesOf queryLen)
  have hqlen := h.queryLen_le
  have hreqTile : u32 (t - u32 (t / tilesOf queryLen * tilesOf queryLen : ℕ)) =
      t % tilesOf queryLen := by
    rw [u32_natCast (by omega), ← Nat.cast_sub (by omega), u32_natCast (by omega)]
    omega
  have hqBase : u32 (t % tilesOf queryLen * 64 : ℕ) = t % tilesOf queryLen * 64 :=
    u32_natCast (by omega)
  have hvalid : u32 (queryLen - (t % tilesOf queryLen * 64 : ℕ)) =
      queryLen - t % tilesOf queryLen * 64 := by
    rw [← Nat.cast_sub (by omega), u32_natCast (by omega)]
  have hrow : ∀ len, reqNum * len < 2 ^ 32 →
      u32 (t / tilesOf queryLen * len : ℕ) = t / tilesOf queryLen * len := fun len hlen =>
    u32_natCast (Nat.lt_of_le_of_lt (Nat.mul_le_mul_right len hr.le) hlen)
  unfold tileOf exactTile
  simp only [h.queryTileNum_eq, h.alignUpU32_eq, hreqTile, hqBase, hvalid, hrow _ h.tables_lt,
    hrow _ h.queries_lt, hrow _ h.out_lt]

/-- The tile begins at `64 * t`. -/
theorem out_eq (h : Guarded reqNum queryLen) {t : ℕ} (ht : t < reqNum * tilesOf queryLen) :
    u32 ((exactTile queryLen t).outBase + (exactTile queryLen t).qBase : ℕ) = 64 * t := by
  have hbase : (exactTile queryLen t).outBase + (exactTile queryLen t).qBase = 64 * t := by
    unfold exactTile
    calc t / tilesOf queryLen * (tilesOf queryLen * 64) + t % tilesOf queryLen * 64
        = (t / tilesOf queryLen * tilesOf queryLen + t % tilesOf queryLen) * 64 := by
          rw [Nat.add_mul, Nat.mul_assoc]
      _ = 64 * t := by rw [Nat.div_add_mod', Nat.mul_comm]
  have htiles := h.tiles_lt
  rw [hbase, u32_natCast (by omega)]

/-- **The numbers of the launches.** -/
theorem exactLaunch (h : Guarded reqNum queryLen) {blockNum : ℕ} (hblock : blockNum ≤ 64) :
    ExactLaunch reqNum queryLen blockNum := by
  have htiles := h.tiles_lt
  refine ⟨h.queryTileNum_eq, h.alignUpU32_eq, h.totalTileNum_eq, ?_, fun t ht => h.tileOf_eq ht,
    fun t ht => (tile_lt ht).2, ?_, ?_, ?_, fun t ht => h.out_eq ht, fun t ht => u32_natCast (by omega)⟩
  · intro len hlen
    simp only [List.mem_cons, List.not_mem_nil, or_false] at hlen
    rcases hlen with rfl | rfl | rfl
    · exact u32_natCast h.tables_lt
    · exact u32_natCast h.queries_lt
    · exact u32_natCast h.out_lt
  · intro t ht key hkey
    exact u32_natCast ((row_lt (tile_lt ht).1 hkey).trans h.tables_lt)
  · intro t ht
    exact u32_natCast ((row_lt (tile_lt ht).1 (tile_lt ht).2).trans h.queries_lt)
  · intro t ht i hi
    have hvalid : (exactTile queryLen t).valid = min 64 (queryLen - t % tilesOf queryLen * 64) := rfl
    have hlt : t % tilesOf queryLen * 64 + i < queryLen := by omega
    rw [exactTile_query]
    exact u32_natCast ((row_lt (tile_lt ht).1 hlt).trans h.queries_lt)

end Guarded

/-! ## What the tiles hold -/

section

variable {reqNum queryLen : ℕ} {queryKeys tableStates : ℕ → ℤ}

/-- The keys are token ids. -/
def KeysInTable (reqNum queryLen : ℕ) (queryKeys : ℕ → ℤ) : Prop :=
  ∀ i < reqNum * queryLen, 0 ≤ queryKeys i ∧ queryKeys i < INDEX_SIZE

/-- `table_states[req, query_keys[req, i]]`, and the padding. -/
def paddedOut (queryLen : ℕ) (queryKeys tableStates : ℕ → ℤ) (r i : ℕ) : ℤ :=
  if i < queryLen then tableStates (r * INDEX_SIZE + (queryKeys (r * queryLen + i)).toNat) else 0

theorem outTile_eq (h : Guarded reqNum queryLen) (hkeys : KeysInTable reqNum queryLen queryKeys)
    {t : ℕ} (ht : t < reqNum * tilesOf queryLen) {i : ℕ} (hi : i < 64) :
    outTile queryKeys tableStates (exactTile queryLen t) i =
      paddedOut queryLen queryKeys tableStates (t / tilesOf queryLen)
        (t % tilesOf queryLen * 64 + i) := by
  have hx := h.exactLaunch (le_refl 64)
  -- a key that is looked up at all is one of the request
  have hstate : t % tilesOf queryLen * 64 + i < queryLen →
      stateOf tableStates (exactTile queryLen t)
        (queryKeys ((exactTile queryLen t).queryBase + (exactTile queryLen t).qBase + i)) =
        paddedOut queryLen queryKeys tableStates (t / tilesOf queryLen)
          (t % tilesOf queryLen * 64 + i) := by
    intro hlt
    rw [exactTile_query]
    obtain ⟨h0, hsize⟩ := hkeys _ (row_lt (tile_lt ht).1 hlt)
    have hkey := u32_of_nonneg h0 (hsize.trans (by decide))
    unfold stateOf paddedOut
    rw [if_pos hlt, hkey, hx.key t ht _ (by omega)]
    rfl
  have hvalid : (exactTile queryLen t).valid = min 64 (queryLen - t % tilesOf queryLen * 64) := rfl
  unfold outTile
  by_cases hv : (exactTile queryLen t).valid = QUERY_TILE
  · have hv' : (exactTile queryLen t).valid = 64 := hv
    rw [if_pos hv, hx.query t ht]
    exact hstate (by omega)
  · rw [if_neg hv]
    by_cases hi' : i < (exactTile queryLen t).valid
    · rw [if_pos hi', hx.query t ht, hx.queryElem t ht i hi']
      exact hstate (by omega)
    · rw [if_neg hi']
      unfold paddedOut
      rw [if_neg]
      have hne : (exactTile queryLen t).valid ≠ 64 := hv
      omega

/-- The stores of a tile. -/
theorem tileStores_eq (h : Guarded reqNum queryLen) (hkeys : KeysInTable reqNum queryLen queryKeys)
    {t : ℕ} (ht : t < reqNum * tilesOf queryLen) :
    tileStores queryLen queryKeys tableStates t = (List.range 64).map fun i =>
      (64 * t + i, paddedOut queryLen queryKeys tableStates (t / tilesOf queryLen)
        (t % tilesOf queryLen * 64 + i)) := by
  unfold tileStores
  rw [h.tileOf_eq ht]
  dsimp only
  rw [h.out_eq ht]
  refine List.map_congr_left fun i hi => ?_
  rw [outTile_eq h hkeys ht (List.mem_range.mp hi)]

/-- Blocks of `w` numbers, one after the other. -/
theorem blocks_flatMap (w n : ℕ) :
    ((List.range n).flatMap fun t => (List.range w).map fun i => w * t + i) = List.range (w * n) := by
  induction n with
  | zero => rfl
  | succ n ih =>
      rw [List.range_succ, List.flatMap_append, List.flatMap_singleton, ih, Nat.mul_succ,
        List.range_add]

end

/-! ## The launch -/

section

variable {l : LookupLaunch} {queryKeys tableStates : ℕ → ℤ} {tiles : ℕ → List ℕ}
  {order : List (ℕ × ℕ × ℤ)}

/-- Every core's loop ends, and there are runs. -/
theorem exists_vecRun (h : Guarded l.reqNum l.queryLen) (hblock : 1 ≤ l.blockDim ∧ l.blockDim ≤ 64)
    (queryKeys tableStates : ℕ → ℤ) : ∃ tiles order, VecRun l queryKeys tableStates tiles order := by
  have htotal := h.totalTileNum_eq
  have htiles := h.tiles_lt
  exact ⟨_, _, visits_gridStride hblock.1 (by omega), interleaves_sequential _ _⟩

/-- Every tile is visited once. -/
theorem VecRun.tiles_perm (hrun : VecRun l queryKeys tableStates tiles order)
    (h : Guarded l.reqNum l.queryLen) (hblock : 1 ≤ l.blockDim ∧ l.blockDim ≤ 64) :
    ((List.range l.blockDim).flatMap tiles).Perm (List.range (l.reqNum * tilesOf l.queryLen)) := by
  have htotal := h.totalTileNum_eq
  have htiles := h.tiles_lt
  rw [← htotal]
  refine List.Perm.trans (List.Perm.of_eq ?_) (gridStride_once hblock.1)
  refine List.flatMap_congr fun c hc => ?_
  exact hrun.visits.eq_gridStride (by omega) (List.mem_range.mp hc)

/-- All stores, sorted by tile. -/
theorem VecRun.stores_perm (hrun : VecRun l queryKeys tableStates tiles order)
    (h : Guarded l.reqNum l.queryLen) (hblock : 1 ≤ l.blockDim ∧ l.blockDim ≤ 64)
    (hkeys : KeysInTable l.reqNum l.queryLen queryKeys) :
    (order.map Prod.snd).Perm ((List.range (l.reqNum * tilesOf l.queryLen)).flatMap fun t =>
      (List.range 64).map fun i => (64 * t + i, paddedOut l.queryLen queryKeys tableStates
        (t / tilesOf l.queryLen) (t % tilesOf l.queryLen * 64 + i))) := by
  refine hrun.stores.perm.trans ?_
  rw [← List.flatMap_assoc]
  refine ((hrun.tiles_perm h hblock).flatMap_right _).trans (List.Perm.of_eq ?_)
  exact List.flatMap_congr fun t ht => tileStores_eq h hkeys (List.mem_range.mp ht)

/-- Every address of the padded output is stored to once. -/
theorem VecRun.addresses_perm (hrun : VecRun l queryKeys tableStates tiles order)
    (h : Guarded l.reqNum l.queryLen) (hblock : 1 ≤ l.blockDim ∧ l.blockDim ≤ 64)
    (hkeys : KeysInTable l.reqNum l.queryLen queryKeys) :
    (order.map fun e => e.2.1).Perm (List.range (l.reqNum * (tilesOf l.queryLen * 64))) := by
  have hperm := (hrun.stores_perm h hblock hkeys).map Prod.fst
  rw [List.map_map, List.map_flatMap] at hperm
  refine hperm.trans (List.Perm.of_eq ?_)
  rw [← Nat.mul_assoc, Nat.mul_comm _ 64, ← blocks_flatMap 64]
  refine List.flatMap_congr fun t _ => ?_
  rw [List.map_map]
  rfl

/-- The output after the launch, whatever it held before. -/
theorem VecRun.out_eq (hrun : VecRun l queryKeys tableStates tiles order)
    (h : Guarded l.reqNum l.queryLen) (hblock : 1 ≤ l.blockDim ∧ l.blockDim ≤ 64)
    (hkeys : KeysInTable l.reqNum l.queryLen queryKeys) (outFull : ℕ → ℤ) {r i : ℕ}
    (hr : r < l.reqNum) (hi : i < l.queryLen) :
    writeAll (order.map Prod.snd) outFull (r * (tilesOf l.queryLen * 64) + i) =
      tableStates (r * INDEX_SIZE + (queryKeys (r * l.queryLen + i)).toNat) := by
  have hq : i / 64 < tilesOf l.queryLen := by
    unfold tilesOf
    omega
  have hstores := hrun.stores_perm h hblock hkeys
  -- element `i` of the request is in its tile `i / 64`
  obtain ⟨hdiv, hmod⟩ := HbmIndex.div_mod_of_row (r := r) hq
  have haddr : r * (tilesOf l.queryLen * 64) + i =
      64 * (r * tilesOf l.queryLen + i / 64) + i % 64 := by
    rw [← Nat.mul_assoc]
    omega
  have hval : ∀ t, t = r * tilesOf l.queryLen + i / 64 →
      paddedOut l.queryLen queryKeys tableStates (t / tilesOf l.queryLen)
        (t % tilesOf l.queryLen * 64 + i % 64) =
      tableStates (r * INDEX_SIZE + (queryKeys (r * l.queryLen + i)).toNat) := by
    rintro t rfl
    rw [hdiv, hmod, Nat.div_add_mod']
    exact if_pos hi
  apply writeAll_eq_of_forall
  · have hmem : (_, _) ∈ order.map Prod.snd := hstores.mem_iff.mpr
      (List.mem_flatMap.mpr ⟨_, List.mem_range.mpr (row_lt hr hq),
        List.mem_map.mpr ⟨_, List.mem_range.mpr (Nat.mod_lt i (by decide)), rfl⟩⟩)
    exact ⟨_, hmem, haddr.symm⟩
  · intro w hw ha
    obtain ⟨t, -, hw⟩ := List.mem_flatMap.mp (hstores.mem_iff.mp hw)
    obtain ⟨j, hj, rfl⟩ := List.mem_map.mp hw
    have hj64 := List.mem_range.mp hj
    dsimp only at ha ⊢
    obtain rfl : j = i % 64 := by omega
    exact hval t (by omega)

end

/-! ## The call -/

/-- A launch whose numbers do not wrap, in whose runs each tile and each address of the
padded output is served once. -/
structure VecOnce (l : LookupLaunch) (queryKeys tableStates : ℕ → ℤ) : Prop where
  exact : ExactLaunch l.reqNum l.queryLen l.blockDim
  ends : ∃ tiles order, VecRun l queryKeys tableStates tiles order
  tiles : ∀ tiles order, VecRun l queryKeys tableStates tiles order →
    ((List.range l.blockDim).flatMap tiles).Perm (List.range (l.reqNum * tilesOf l.queryLen))
  addresses : ∀ tiles order, VecRun l queryKeys tableStates tiles order →
    (order.map fun e => e.2.1).Perm (List.range (l.reqNum * (tilesOf l.queryLen * 64)))

/-- The narrowed result of a call, from what the first launch leaves. -/
def Call.result (call : Call) (outFull : ℕ → ℤ) (r i : ℕ) : ℤ := outFull (r * call.paddedLen64 + i)

section

variable {tableKeys tableStates queryKeys newStates : Tensor} {seed updatePercent blockDim : ℤ}
  {doUpdate : Bool} {call : Call}

/-- What a call that goes through launches first. -/
theorem lookupRandomUpdate_lookup
    (h : lookupRandomUpdate tableKeys tableStates queryKeys newStates seed updatePercent blockDim
      doUpdate = .ok call) :
    Guarded call.shape.reqNum call.shape.queryLen ∧
      call.paddedLen64 = paddedLen call.shape.queryLen ∧
      (call.lookup = none ∧ call.shape.queryLen = 0 ∨ 0 < call.shape.queryLen ∧
        call.lookup = some ⟨clampBlockDim blockDim, call.shape.reqNum, call.shape.queryLen⟩) := by
  unfold lookupRandomUpdate at h
  obtain ⟨shape, hshape, h⟩ := Folds.ok_of_bind h
  cases h
  have hg := (checkArguments_ok hshape).1
  have hlen := hg.queryLen_le
  have hreq := hg.reqNum_lt
  refine ⟨hg, rfl, ?_⟩
  rw [u32_natCast (show shape.queryLen < 2 ^ 32 by omega),
    u32_natCast (show shape.reqNum < 2 ^ 32 by omega)]
  by_cases hpos : shape.queryLen > 0
  · exact Or.inr ⟨hpos, if_pos hpos⟩
  · exact Or.inl ⟨if_neg hpos, Nat.eq_zero_of_not_pos hpos⟩

/-- **The tiled lookup.** In a call that passes the checks no 32-bit number of the lookup
kernel wraps, each tile of its padded output is written once, on every number of cores and
in every order of their stores, and the result is
`table_states[req, query_keys[req, i]]`. -/
theorem lookup_vec_correct
    (hcall : lookupRandomUpdate tableKeys tableStates queryKeys newStates seed updatePercent
      blockDim doUpdate = .ok call)
    (keys states : ℕ → ℤ) (hkeys : KeysInTable call.shape.reqNum call.shape.queryLen keys) :
    (∀ l, call.lookup = some l → VecOnce l keys states) ∧
    ∀ outFull outFull', LookupStage call.lookup keys states outFull outFull' →
      ∀ r < call.shape.reqNum, ∀ i < call.shape.queryLen,
        call.result outFull' r i =
          states (r * INDEX_SIZE + (keys (r * call.shape.queryLen + i)).toNat) := by
  -- what is launched has passed its guard
  obtain ⟨hg, hpad, hlookup⟩ := lookupRandomUpdate_lookup hcall
  have hblock := clampBlockDim_mem blockDim
  constructor
  -- the launch has exact numbers, a run, and each tile and address once
  · intro l hl
    rcases hlookup with ⟨hnone, -⟩ | ⟨-, hsome⟩
    · rw [hnone] at hl
      cases hl
    · rw [hsome] at hl
      cases hl
      exact ⟨hg.exactLaunch hblock.2, exists_vecRun hg hblock keys states,
        fun _ _ hrun => hrun.tiles_perm hg hblock,
        fun _ _ hrun => hrun.addresses_perm hg hblock hkeys⟩
  · intro outFull outFull' hstage r hr i hi
    rcases hlookup with ⟨-, hzero⟩ | ⟨hpos, hsome⟩
    -- without queries there is no position to ask for
    · omega
    · rw [hsome] at hstage
      obtain ⟨tiles, order, hrun, rfl⟩ := hstage
      have hpadded : paddedLen call.shape.queryLen = tilesOf call.shape.queryLen * 64 := by
        rw [paddedLen_eq, Nat.max_eq_left hpos]
        rfl
      unfold Call.result
      rw [hpad, hpadded]
      exact hrun.out_eq hg hblock hkeys outFull hr hi

/-- Two requests of 65 queries, all of them for token 5. -/
theorem lookup_vec_correct_two :
    (∀ l, some (⟨8, 2, 65⟩ : LookupLaunch) = some l → VecOnce l (fun _ => 5) (fun a => a)) ∧
    ∀ outFull outFull', LookupStage (some ⟨8, 2, 65⟩) (fun _ => 5) (fun a => a) outFull outFull' →
      ∀ r < 2, ∀ i < 65, outFull' (r * 128 + i) = ((r * INDEX_SIZE + 5 : ℕ) : ℤ) := by
  have hcall : lookupRandomUpdate ⟨true, .PrivateUse1, .kInt, true, [2, 131072]⟩
      ⟨true, .PrivateUse1, .kInt, true, [2, 131072]⟩ ⟨true, .PrivateUse1, .kInt, true, [2, 65]⟩
      ⟨true, .PrivateUse1, .kInt, true, [2, 65]⟩ 42 5 8 false =
        .ok ⟨⟨2, 65, false⟩, 128, some ⟨8, 2, 65⟩, none⟩ := rfl
  exact lookup_vec_correct hcall (fun _ => 5) (fun a => a) fun _ _ =>
    (by decide : (0 : ℤ) ≤ 5 ∧ (5 : ℤ) < 131072)

end

end AsuAscend.LookupUpdate
