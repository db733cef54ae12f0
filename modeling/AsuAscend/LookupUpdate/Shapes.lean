/-
The host functions of `hbm_lookup_update`: what they check, and what they launch.

The guards of `CheckLookupShapes` are divisions. `Guarded` says what they come to: the
elements of all tables, and those of the padded output, can be counted in 32 bits.

## What is kept of a tensor

Of a tensor the host functions look at whether it is defined and contiguous, at its device, its
element type and its dimensions; its elements are not read here. `torchCheck` is `TORCH_CHECK`: it
raises with its message when the condition fails, and the checks stand in the order of the source,
so that the message of a rejected call is that of the first one to fail.

The divisions of the guards are by numbers that an earlier check has shown to be positive.
-/
import AsuAscend.HbmIndex.RowBases

set_option autoImplicit false

open MachineWords
open AsuAscend.HbmIndex (ScalarType torchCheck)

namespace AsuAscend.LookupUpdate

abbrev INDEX_SIZE : ℕ := 128 * 1024

abbrev QUERY_TILE : ℕ := 64

abbrev UINT32_MAX : ℕ := 4294967295

/-! ## Tensors -/

inductive DeviceType where
  | PrivateUse1
  | other
deriving DecidableEq

/-- An `at::Tensor`, without its elements. -/
structure Tensor where
  defined : Bool
  device : DeviceType
  scalar_type : ScalarType
  is_contiguous : Bool
  sizes : List ℕ
deriving DecidableEq

namespace Tensor

variable (t : Tensor)

def dim : ℕ := t.sizes.length

def numel : ℕ := t.sizes.prod

def size (i : ℕ) : ℕ := t.sizes.getD i 0

end Tensor

/-! ## Checks -/

def checkInt32NpuContiguous (t : Tensor) (name : String) : Except String Unit := do
  torchCheck t.defined (name ++ " must be defined")
  torchCheck (t.device = .PrivateUse1) (name ++ " must be an NPU tensor")
  torchCheck (t.scalar_type = .kInt) (name ++ " must be torch.int32")
  torchCheck t.is_contiguous (name ++ " must be contiguous")

def clampBlockDim (blockDim : ℤ) : ℕ :=
  if blockDim < 1 then 1 else if blockDim > 64 then 64 else u32 blockDim

def alignUpI64 (x align : ℕ) : ℕ := (x + align - 1) / align * align

structure LookupShape where
  reqNum : ℕ
  queryLen : ℕ
  singleReq : Bool
deriving DecidableEq

/-- `paddedQueryLen` in `CheckLookupShapes`, `paddedLen64` in `lookup_random_update`. -/
def paddedLen (queryLen : ℕ) : ℕ := alignUpI64 (max queryLen 1) QUERY_TILE

/-- The checks of the second half, on the numbers alone. -/
def checkCounts (reqNum queryLen : ℕ) : Except String Unit := do
  torchCheck (1 ≤ reqNum) "req_num must be at least 1"
  torchCheck (reqNum ≤ UINT32_MAX) "req_num is too large for this demo kernel"
  torchCheck (queryLen ≤ UINT32_MAX) "query_len is too large for this demo kernel"
  let paddedQueryLen := paddedLen queryLen
  let queryTileNum := paddedQueryLen / QUERY_TILE
  torchCheck (reqNum ≤ UINT32_MAX / queryTileNum)
    "req_num * ceil(query_len / 64) is too large for this demo kernel"
  torchCheck (reqNum ≤ UINT32_MAX / INDEX_SIZE) "req_num * 128K is too large for this demo kernel"
  if 0 < queryLen then
    torchCheck (reqNum ≤ UINT32_MAX / queryLen)
      "req_num * query_len is too large for this demo kernel"
    torchCheck (reqNum ≤ UINT32_MAX / paddedQueryLen)
      "req_num * padded_query_len is too large for this demo kernel"

def checkLookupShapes (tableKeys tableStates queryKeys newStates : Tensor) :
    Except String LookupShape := do
  torchCheck (tableKeys.dim = 1 ∨ tableKeys.dim = 2)
    "table_keys must be 1-D [128K] or 2-D [req_num, 128K]"
  torchCheck (tableStates.sizes = tableKeys.sizes) "table_states must have the same shape as table_keys"
  torchCheck (newStates.sizes = queryKeys.sizes) "new_states must have the same shape as query_keys"
  if tableKeys.dim = 1 then
    torchCheck (tableKeys.numel = INDEX_SIZE) "table_keys must have exactly 128K elements"
    torchCheck (queryKeys.dim = 1) "query_keys must be 1-D when table_keys is 1-D"
    checkCounts 1 queryKeys.numel
    return ⟨1, queryKeys.numel, true⟩
  else
    torchCheck (tableKeys.size 1 = INDEX_SIZE) "table_keys shape must be [req_num, 128K]"
    torchCheck (queryKeys.dim = 2) "query_keys must be 2-D [req_num, query_len] when table_keys is 2-D"
    torchCheck (queryKeys.size 0 = tableKeys.size 0) "query_keys dim 0 must match table_keys dim 0"
    checkCounts (tableKeys.size 0) (queryKeys.size 1)
    return ⟨tableKeys.size 0, queryKeys.size 1, false⟩

/-! ## Launches -/

/-- The arguments of `hbm_lookup_vec_do`, without the pointers and the `notFound` that the
kernel does not look at. -/
structure LookupLaunch where
  blockDim : ℕ
  reqNum : ℕ
  queryLen : ℕ
deriving DecidableEq

/-- The arguments of `hbm_random_update_do`, without the pointers. -/
structure UpdateLaunch where
  blockDim : ℕ
  reqNum : ℕ
  queryLen : ℕ
  seed : UInt32
  updatePercent : ℕ
deriving DecidableEq

/-- What `lookup_random_update` does on the device, on one stream, and the row length of
`outFull`. -/
structure Call where
  shape : LookupShape
  paddedLen64 : ℕ
  lookup : Option LookupLaunch
  update : Option UpdateLaunch
deriving DecidableEq

/-- The four tensors and the percentage, as both functions check them. -/
def checkArguments (tableKeys tableStates queryKeys newStates : Tensor) (updatePercent : ℤ) :
    Except String LookupShape := do
  checkInt32NpuContiguous tableKeys "table_keys"
  checkInt32NpuContiguous tableStates "table_states"
  checkInt32NpuContiguous queryKeys "query_keys"
  checkInt32NpuContiguous newStates "new_states"
  let shape ← checkLookupShapes tableKeys tableStates queryKeys newStates
  torchCheck (updatePercent ≥ 0 ∧ updatePercent ≤ 100) "update_percent must be in [0, 100]"
  return shape

/-- The launch of the second kernel, with the conversions to 32 bits. -/
def updateLaunch (shape : LookupShape) (seed updatePercent blockDim : ℤ) : UpdateLaunch where
  blockDim := clampBlockDim (min blockDim shape.reqNum)
  reqNum := u32 shape.reqNum
  queryLen := u32 shape.queryLen
  seed := UInt32.ofNat (u32 seed)
  updatePercent := u32 updatePercent

def lookupRandomUpdate (tableKeys tableStates queryKeys newStates : Tensor)
    (seed updatePercent blockDim : ℤ) (doUpdate : Bool) : Except String Call := do
  let shape ← checkArguments tableKeys tableStates queryKeys newStates updatePercent
  let qLen := u32 shape.queryLen
  return {
    shape
    paddedLen64 := paddedLen shape.queryLen
    lookup := if qLen > 0 then some ⟨clampBlockDim blockDim, u32 shape.reqNum, qLen⟩ else none
    update :=
      if qLen > 0 ∧ doUpdate ∧ u32 updatePercent > 0 then
        some (updateLaunch shape seed updatePercent blockDim)
      else none }

def updateOnly (tableKeys tableStates queryKeys newStates : Tensor)
    (seed updatePercent blockDim : ℤ) : Except String (LookupShape × Option UpdateLaunch) := do
  let shape ← checkArguments tableKeys tableStates queryKeys newStates updatePercent
  if shape.queryLen = 0 ∨ updatePercent = 0 then return (shape, none)
  return (shape, some (updateLaunch shape seed updatePercent blockDim))

/-! ## What the guards come to -/

structure Guarded (reqNum queryLen : ℕ) : Prop where
  req_pos : 1 ≤ reqNum
  tables : reqNum * INDEX_SIZE ≤ UINT32_MAX
  padded : reqNum * paddedLen queryLen ≤ UINT32_MAX

theorem torchCheck_ok {cond : Prop} [Decidable cond] {message : String} {u : Unit} :
    torchCheck cond message = .ok u ↔ cond := by
  unfold torchCheck
  by_cases h : cond <;> simp [h]

/-- The padded length is a multiple of the tile, and at least one tile. -/
theorem paddedLen_eq (queryLen : ℕ) : paddedLen queryLen = (max queryLen 1 + 63) / 64 * 64 := rfl

theorem le_paddedLen (queryLen : ℕ) : queryLen ≤ paddedLen queryLen := by
  rw [paddedLen_eq]
  omega

/-- The two counts that pass are within the guard. -/
theorem guarded_of_checkCounts {reqNum queryLen : ℕ} (h : checkCounts reqNum queryLen = .ok ()) :
    Guarded reqNum queryLen := by
  unfold checkCounts at h
  obtain ⟨_, h1, h⟩ := Folds.ok_of_bind h
  obtain ⟨_, _, h⟩ := Folds.ok_of_bind h
  obtain ⟨_, _, h⟩ := Folds.ok_of_bind h
  obtain ⟨_, _, h⟩ := Folds.ok_of_bind h
  obtain ⟨_, h5, h⟩ := Folds.ok_of_bind h
  have htables : reqNum * INDEX_SIZE ≤ UINT32_MAX :=
    (Nat.le_div_iff_mul_le (by decide)).mp (torchCheck_ok.mp h5)
  refine ⟨torchCheck_ok.mp h1, htables, ?_⟩
  by_cases hq : 0 < queryLen
  · rw [if_pos hq] at h
    obtain ⟨_, _, h⟩ := Folds.ok_of_bind h
    exact (Nat.le_div_iff_mul_le (hq.trans_le (le_paddedLen queryLen))).mp (torchCheck_ok.mp h)
  · have h0 : queryLen = 0 := by omega
    subst h0
    exact (Nat.mul_le_mul_left reqNum (by decide)).trans htables

theorem guarded_of_checkLookupShapes {tableKeys tableStates queryKeys newStates : Tensor}
    {shape : LookupShape}
    (h : checkLookupShapes tableKeys tableStates queryKeys newStates = .ok shape) :
    Guarded shape.reqNum shape.queryLen := by
  unfold checkLookupShapes at h
  obtain ⟨_, _, h⟩ := Folds.ok_of_bind h
  obtain ⟨_, _, h⟩ := Folds.ok_of_bind h
  obtain ⟨_, _, h⟩ := Folds.ok_of_bind h
  by_cases hdim : tableKeys.dim = 1
  · rw [if_pos hdim] at h
    obtain ⟨_, _, h⟩ := Folds.ok_of_bind h
    obtain ⟨_, _, h⟩ := Folds.ok_of_bind h
    obtain ⟨_, hcounts, h⟩ := Folds.ok_of_bind h
    cases h
    exact guarded_of_checkCounts hcounts
  · rw [if_neg hdim] at h
    obtain ⟨_, _, h⟩ := Folds.ok_of_bind h
    obtain ⟨_, _, h⟩ := Folds.ok_of_bind h
    obtain ⟨_, _, h⟩ := Folds.ok_of_bind h
    obtain ⟨_, hcounts, h⟩ := Folds.ok_of_bind h
    cases h
    exact guarded_of_checkCounts hcounts

/-- The arguments of an update that pass are within the guard, and the percentage is one. -/
theorem checkArguments_ok {tableKeys tableStates queryKeys newStates : Tensor} {updatePercent : ℤ}
    {shape : LookupShape}
    (h : checkArguments tableKeys tableStates queryKeys newStates updatePercent = .ok shape) :
    Guarded shape.reqNum shape.queryLen ∧ 0 ≤ updatePercent ∧ updatePercent ≤ 100 := by
  unfold checkArguments at h
  obtain ⟨_, _, h⟩ := Folds.ok_of_bind h
  obtain ⟨_, _, h⟩ := Folds.ok_of_bind h
  obtain ⟨_, _, h⟩ := Folds.ok_of_bind h
  obtain ⟨_, _, h⟩ := Folds.ok_of_bind h
  obtain ⟨_, hshape, h⟩ := Folds.ok_of_bind h
  obtain ⟨_, hpercent, h⟩ := Folds.ok_of_bind h
  cases h
  exact ⟨guarded_of_checkLookupShapes hshape, torchCheck_ok.mp hpercent⟩

/-- However many blocks are asked for, there are 1 to 64. -/
theorem clampBlockDim_mem (blockDim : ℤ) : 1 ≤ clampBlockDim blockDim ∧ clampBlockDim blockDim ≤ 64 := by
  unfold clampBlockDim u32
  split_ifs <;> omega

namespace Guarded

variable {reqNum queryLen : ℕ}

/-- Within the guard there are fewer than `2 ^ 15` requests. -/
theorem reqNum_lt (h : Guarded reqNum queryLen) : reqNum < 2 ^ 15 := by
  have htables : reqNum * 131072 ≤ 4294967295 := h.tables
  omega

/-- The last size that the padding can bring up to a 32-bit size. -/
theorem queryLen_le (h : Guarded reqNum queryLen) : queryLen ≤ 2 ^ 32 - 64 := by
  have hpad : paddedLen queryLen ≤ 4294967295 :=
    (Nat.le_mul_of_pos_left _ h.req_pos).trans h.padded
  rw [paddedLen_eq] at hpad
  omega

/-- And fewer than `2 ^ 32` queries in all. -/
theorem queries_lt (h : Guarded reqNum queryLen) : reqNum * queryLen < 2 ^ 32 := by
  have hle := (Nat.mul_le_mul_left reqNum (le_paddedLen queryLen)).trans h.padded
  exact Nat.lt_of_le_of_lt hle (by decide)

end Guarded

end AsuAscend.LookupUpdate
