/-
`ops/asu_hbm_index_lookup_aiv.cpp` (the same code as
`ascend-ops/asu_hbm_index_lookup/op_kernel/asu_hbm_index_lookup.cpp`): the tiled
vector lookup, for one request row.

A row of queries is looked up in two passes. The vector pass goes through the index
row tile by tile and gathers, for every query at once, the slot of the queries that
fall into the tile; the serial pass then gives the queries left without a slot one
from the free list, and writes the two tables.

The vector intrinsics act on every lane with wrapping `int32_t` arithmetic, `Gather`
and `Select` move 32-bit patterns unchanged. An access outside a row or a tile is
`Halt.outside`; the row bases that the kernel adds are not part of a row's model.

## How the source is followed

A lane of a tile is an element of a list, and an intrinsic acts on all lanes of a tile at once, in
the order of the statements. The tile of indices is a copy of a stretch of the row, and reading
past it is `Halt.outside`, so that a lemma that shows a result shows that no access left its
tile. The reference `expected_lookup_allocate` stands at the end, for one row as well; its loop is
the one over the queries, without tiles.
-/
import AsuAscend.Lib.MachineWords
import AsuAscend.Lib.WorkSplit

set_option autoImplicit false

open MachineWords WorkSplit

namespace AsuAscend.HbmIndex

/-! ## Sizes and rows -/

/-- The constants of the two operators. -/
structure Sizes where
  INDEX_SIZE : ℕ
  SLOT_COUNT : ℕ
  FREE_SLOT_COUNT : ℕ
  QUERY_COUNT : ℕ
  INDEX_TILE_LEN : ℕ

def hbmSizes : Sizes where
  INDEX_SIZE := 128 * 1024
  SLOT_COUNT := 10 * 1024
  FREE_SLOT_COUNT := 2 * 1024
  QUERY_COUNT := 2 * 1024
  INDEX_TILE_LEN := 16 * 1024

def NOT_FOUND : ℤ := -1

/-- What the tiling and the casts rely on. -/
structure Sizes.Fits (d : Sizes) : Prop where
  tile_pos : 0 < d.INDEX_TILE_LEN
  tile_dvd : d.INDEX_TILE_LEN ∣ d.INDEX_SIZE
  tile_bytes : 4 * d.INDEX_TILE_LEN ≤ 2 ^ 31
  index_i32 : d.INDEX_SIZE ≤ 2 ^ 31
  slot_i32 : d.SLOT_COUNT ≤ 2 ^ 31
  slot_pos : 0 < d.SLOT_COUNT
  free_i32 : d.FREE_SLOT_COUNT ≤ 2 ^ 31
  query_le_free : d.QUERY_COUNT ≤ d.FREE_SLOT_COUNT

/-- The sizes that are built in fit the 32-bit arithmetic and the bitmap. -/
theorem hbmSizes_fits : hbmSizes.Fits :=
  ⟨by decide, by decide, by decide, by decide, by decide, by decide, by decide, by decide⟩

/-- One request's row of the four tables. -/
structure Row where
  index : List ℤ
  slotToIndex : List ℤ
  freeSlots : List ℤ
  freeHead : ℤ
deriving DecidableEq

/-- Why a row's computation has no result: an access outside a table, or a scan cut
off before its end. -/
inductive Halt where
  | outside
  | outOfFuel
deriving DecidableEq

/-! ## Accesses -/

/-- `GetValue` -/
def getValue (xs : List ℤ) (i : ℕ) : Except Halt ℤ :=
  if h : i < xs.length then .ok xs[i] else .error .outside

/-- `SetValue` -/
def setValue (xs : List ℤ) (i : ℕ) (v : ℤ) : Except Halt (List ℤ) :=
  if i < xs.length then .ok (xs.set i v) else .error .outside

/-- `DataCopy` of `len` elements from element `base` on. -/
def dataCopy (xs : List ℤ) (base len : ℕ) : Except Halt (List ℤ) :=
  if base + len ≤ xs.length then .ok ((xs.drop base).take len) else .error .outside

/-! ## Vector intrinsics -/

def adds (xs : List ℤ) (c : ℤ) : List ℤ := xs.map fun x => i32 (x + c)

def muls (xs : List ℤ) (c : ℤ) : List ℤ := xs.map fun x => i32 (x * c)

def relu (xs : List ℤ) : List ℤ := xs.map fun x => max x 0

def add (xs ys : List ℤ) : List ℤ := List.zipWith (fun x y => i32 (x + y)) xs ys

/-- `CompareScalar` with `CMPMODE::EQ`. -/
def compareScalar (xs : List ℤ) (c : ℤ) : List Bool := xs.map fun x => x == c

/-- `Gather`: the offsets count bytes. -/
def gather (tile offsets : List ℤ) : Except Halt (List ℤ) :=
  offsets.mapM fun o => getValue tile (u32 o / 4)

/-- `Select` with `VSEL_TENSOR_TENSOR_MODE`. -/
def select (mask : List Bool) (xs ys : List ℤ) : List ℤ :=
  List.zipWith (fun b p => if b then p.1 else p.2) mask (xs.zip ys)

/-! ## The kernel -/

section

variable (d : Sizes)

/-- The part of a tile's pass that comes before the gather: the byte offsets and
the mask of the queries that the tile holds. -/
def tileOffsets (queryTile : List ℤ) (indexBase : ℕ) : List ℤ × List Bool :=
  let deltaTile := adds queryTile (-i32 indexBase)
  let clampTile := relu deltaTile
  let helperTile := adds clampTile (-i32 (d.INDEX_TILE_LEN - 1))
  let helperTile := relu helperTile
  let helperTile := muls helperTile (-1)
  let clampTile := add clampTile helperTile
  let offsetTile := muls clampTile 4
  let helperTile := muls clampTile (-1)
  let helperTile := add helperTile deltaTile
  (offsetTile, compareScalar helperTile 0)

/-- One turn of the loop over the index tiles. -/
def scanTile (index queryTile outTile : List ℤ) (indexBase : ℕ) : Except Halt (List ℤ) := do
  let indexTile ← dataCopy index indexBase d.INDEX_TILE_LEN
  let t := tileOffsets d queryTile indexBase
  let candidateTile ← gather indexTile t.1
  return select t.2 candidateTile outTile

/-- What the serial pass carries along. -/
structure Fixup where
  outTile : List ℤ
  row : Row

/-- One turn of the serial pass. -/
def fixQuery (queryTile : List ℤ) (c : Fixup) (i : ℕ) : Except Halt Fixup := do
  let slot ← getValue c.outTile i
  if slot = NOT_FOUND then
    let indexId ← getValue queryTile i
    -- an earlier turn may have placed the token in the meantime
    let slot ← getValue c.row.index (u32 indexId)
    if slot = NOT_FOUND then
      let slot ← getValue c.row.freeSlots (u32 c.row.freeHead)
      let index ← setValue c.row.index (u32 indexId) slot
      let slotToIndex ← setValue c.row.slotToIndex (u32 slot) indexId
      let outTile ← setValue c.outTile i slot
      return ⟨outTile, ⟨index, slotToIndex, c.row.freeSlots, c.row.freeHead + 1⟩⟩
    else
      let outTile ← setValue c.outTile i slot
      return ⟨outTile, c.row⟩
  else return c

/-- The body of the loop over the requests in `Process`: `slotOut` and the row
afterwards. -/
def processRow (query : List ℤ) (row : Row) : Except Halt (List ℤ × Row) := do
  let queryTile ← dataCopy query 0 d.QUERY_COUNT
  let outTile := List.replicate d.QUERY_COUNT NOT_FOUND
  let outTile ← (gridStride 0 d.INDEX_SIZE d.INDEX_TILE_LEN).foldlM
    (scanTile d row.index queryTile) outTile
  let c ← (List.range d.QUERY_COUNT).foldlM (fixQuery queryTile) ⟨outTile, row⟩
  return (c.outTile, c.row)

end

/-! ## `ops/scripts/asu_hbm_index_common.py` -/

/-- One turn of the inner loop of `expected_lookup_allocate`, on the row's `slot_out`
so far and the row. A token id that is not negative indexes the table directly. -/
def expectedQuery (c : List ℤ × Row) (index_id : ℤ) : Except Halt (List ℤ × Row) := do
  let slot ← getValue c.2.index index_id.toNat
  if slot = NOT_FOUND then
    let slot ← getValue c.2.freeSlots c.2.freeHead.toNat
    let index ← setValue c.2.index index_id.toNat slot
    let slot_to_index ← setValue c.2.slotToIndex slot.toNat index_id
    return (c.1 ++ [slot], ⟨index, slot_to_index, c.2.freeSlots, c.2.freeHead + 1⟩)
  else return (c.1 ++ [slot], c.2)

/-- A row of `expected_lookup_allocate`. -/
def expectedLookupAllocate (query : List ℤ) (row : Row) : Except Halt (List ℤ × Row) :=
  query.foldlM expectedQuery ([], row)

-- tile length 2: token 4 is resident, 1 misses and is queried twice
example : (processRow ⟨6, 3, 2, 3, 2⟩ [1, 4, 1] ⟨[-1, -1, -1, -1, 0, -1], [4, -1, -1], [2, 1], 0⟩).toOption
    = some ([2, 0, 2], ⟨[-1, 2, -1, -1, 0, -1], [4, -1, 1], [2, 1], 1⟩) := by
  decide

end AsuAscend.HbmIndex
