/-
From the host path to the rows that the kernels serve: the PyTorch adapters and tiling
functions of `ascend-ops`, the loop of each core over its requests with its 32-bit
counter, and the 32-bit bases of the rows.

`rows_own_iff`: every request is served once, from rows of its own, exactly when
`req_num` is at most `2 ^ 15`. No check of the host path says so.

## What `rows_own_iff` is about

The number of requests on the way from the Python call to the kernel: it is checked to be positive,
narrowed to `uint32_t` by the tiling, and shared out among the cores, which step through their
requests with a 32-bit counter. `ServesOwnRows` asks for all of it: every request is visited, by one
core and once, and the bases of its rows are those of the arrays. The first base to wrap is that
of the index row, at request `2 ^ 15`, whose rows hold `2 ^ 17` elements each.
-/
import AsuAscend.HbmIndex.Launch
import AsuAscend.Lib.WrappingLoop
import Mathlib.Data.Set.Lattice
import Mathlib.Order.CompletePartialOrder

set_option autoImplicit false

open MachineWords WorkSplit WrappingLoop

namespace AsuAscend.HbmIndex

/-! ## The host path -/

/-- A tensor's `scalar_type`, as far as the adapters look at it. -/
inductive ScalarType where
  | kInt
  | other
deriving DecidableEq

/-- The element types of the tensors that are passed to an operator. -/
structure TensorTypes where
  index : ScalarType
  slot_to_index : ScalarType
  free_slots : ScalarType
  free_head : ScalarType
  query : ScalarType

/-- `TORCH_CHECK` -/
def torchCheck (cond : Prop) [Decidable cond] (message : String) : Except String Unit :=
  if cond then .ok () else .error message

/-- The checks of an adapter, whose last tensor goes by the name `query`. -/
def adapterChecks (query : String) (types : TensorTypes) (req_num : ℤ) : Except String Unit := do
  torchCheck (types.index = .kInt) "index must be int32"
  torchCheck (types.slot_to_index = .kInt) "slot_to_index must be int32"
  torchCheck (types.free_slots = .kInt) "free_slots must be int32"
  torchCheck (types.free_head = .kInt) "free_head must be int32"
  torchCheck (types.query = .kInt) (query ++ " must be int32")
  torchCheck (req_num > 0) "req_num must be greater than 0"

/-- `asu_hbm_index_lookup`, up to `EXEC_NPU_CMD`. -/
def asuHbmIndexLookupAdapter : TensorTypes → ℤ → Except String Unit := adapterChecks "query_index"

/-- `asu_hbm_index_maintain`, up to `EXEC_NPU_CMD`. -/
def asuHbmIndexMaintainAdapter : TensorTypes → ℤ → Except String Unit :=
  adapterChecks "last_query_slots"

/-- The tiling data and the block dimension. -/
structure Tiling where
  reqNum : ℕ
  blockDim : ℕ
deriving DecidableEq

/-- `AsuHbmIndexLookupTilingFunc` -/
def asuHbmIndexLookupTilingFunc (req_num : ℤ) (aiv_num : ℕ) : Except String Tiling :=
  if req_num ≤ 0 then .error "req_num must be greater than 0."
  else if aiv_num = 0 then .error "AIV core count is 0."
  else .ok ⟨u32 req_num, min (u32 req_num) aiv_num⟩

/-- `AsuHbmIndexMaintainTilingFunc`: the same, and the seed. -/
def asuHbmIndexMaintainTilingFunc (req_num seed : ℤ) (aiv_num : ℕ) : Except String (Tiling × ℕ) := do
  let tiling ← asuHbmIndexLookupTilingFunc req_num aiv_num
  return (tiling, u32 seed)

/-- The launches that the two operators' host paths and the direct launcher of the
AICPU kernel come to: `reqNum` and the number of cores. -/
inductive HostPath (req_num : ℤ) : ℕ → ℕ → Prop
  | lookup {types : TensorTypes} {aiv_num : ℕ} {tiling : Tiling}
      (hadapter : asuHbmIndexLookupAdapter types req_num = .ok ())
      (htiling : asuHbmIndexLookupTilingFunc req_num aiv_num = .ok tiling) :
      HostPath req_num tiling.reqNum tiling.blockDim
  | maintain {types : TensorTypes} {aiv_num seed32 : ℕ} {seed : ℤ} {tiling : Tiling}
      (hadapter : asuHbmIndexMaintainAdapter types req_num = .ok ())
      (htiling : asuHbmIndexMaintainTilingFunc req_num seed aiv_num = .ok (tiling, seed32)) :
      HostPath req_num tiling.reqNum tiling.blockDim
  | aicpu (hpos : 0 < req_num) : HostPath req_num (u32 req_num) 1

/-! ## Rows of one's own -/

/-- The elements of a table that request `r` touches. -/
def rowRange (len r : ℕ) : Set ℕ := Set.Ico (kernelBase len r) (kernelBase len r + len)

/-- The rows of the requests begin where they should and do not meet. -/
structure OwnRows (d : Sizes) (rows : List ℕ) : Prop where
  exact : ∀ r ∈ rows, Exact d kernelBase r
  disjoint : ∀ r ∈ rows, ∀ r' ∈ rows, r ≠ r' →
    ∀ len ∈ [d.INDEX_SIZE, d.SLOT_COUNT, d.FREE_SLOT_COUNT, d.QUERY_COUNT],
      Disjoint (rowRange len r) (rowRange len r')

/-- A launch on `T` cores whose loops end and serve the requests `0 .. n - 1` once each,
from rows of their own. -/
def ServesOwnRows (d : Sizes) (reqNum T n : ℕ) : Prop :=
  ∃ rows : ℕ → List ℕ, Visits reqNum T rows ∧ ((List.range T).flatMap rows).Perm (List.range n) ∧
    OwnRows d ((List.range T).flatMap rows)

/-- What the host makes of a number of requests, on either path. -/
theorem HostPath.eq {req_num : ℤ} {reqNum T : ℕ} (h : HostPath req_num reqNum T) :
    0 < req_num ∧ reqNum = u32 req_num ∧ (T = 1 ∨ ∃ aiv_num, 0 < aiv_num ∧ T = min reqNum aiv_num) := by
  have htiling : ∀ {aiv_num : ℕ} {tiling : Tiling},
      asuHbmIndexLookupTilingFunc req_num aiv_num = .ok tiling →
      0 < req_num ∧ tiling.reqNum = u32 req_num ∧ (tiling.blockDim = 1 ∨
        ∃ aiv_num, 0 < aiv_num ∧ tiling.blockDim = min tiling.reqNum aiv_num) := by
    intro aiv_num tiling h
    unfold asuHbmIndexLookupTilingFunc at h
    split_ifs at h with h1 h2
    cases h
    exact ⟨by omega, rfl, Or.inr ⟨aiv_num, by omega, rfl⟩⟩
  cases h with
  | lookup _ h => exact htiling h
  | maintain _ h =>
      obtain ⟨tiling', h', heq⟩ := Folds.ok_of_bind h
      cases heq
      exact htiling h'
  | aicpu hpos => exact ⟨hpos, rfl, Or.inl rfl⟩

/-- Rows that begin where they should do not meet. -/
theorem ownRows_of_exact {d : Sizes} {rows : List ℕ} (h : ∀ r ∈ rows, Exact d kernelBase r) :
    OwnRows d rows := by
  refine ⟨h, fun r hr r' hr' hne len hlen => ?_⟩
  have hbase : ∀ r ∈ rows, kernelBase len r = r * len := by
    intro r hr
    have hx := h r hr
    simp only [List.mem_cons, List.not_mem_nil, or_false] at hlen
    rcases hlen with rfl | rfl | rfl | rfl
    · exact hx.index
    · exact hx.slot
    · exact hx.free
    · exact hx.query
  unfold rowRange
  rw [hbase r hr, hbase r' hr', Set.disjoint_left]
  rintro a ⟨ha, hb⟩ ⟨ha', hb'⟩
  -- the row that an element lies in is its quotient
  have hr1 : a / len = r := Nat.div_eq_of_lt_le ha (by rw [Nat.succ_mul]; exact hb)
  have hr2 : a / len = r' := Nat.div_eq_of_lt_le ha' (by rw [Nat.succ_mul]; exact hb')
  exact hne (hr1.symm.trans hr2)

/-- **The limit of the launches.** For every launch that the host path accepts: each of
the rows `0 .. req_num - 1` is served once, every row base is the mathematical product
and the ranges of different requests are disjoint, if and only if `req_num ≤ 2 ^ 15`. -/
theorem rows_own_iff {req_num : ℤ} {reqNum T : ℕ} (h : HostPath req_num reqNum T) :
    ServesOwnRows hbmSizes reqNum T req_num.toNat ↔ req_num ≤ 2 ^ 15 := by
  obtain ⟨hpos, hreq, hT⟩ := h.eq
  constructor
  · rintro ⟨rows, -, hperm, hown⟩
    by_contra hbig
    -- the index row of request `2 ^ 15` begins at `2 ^ 32`
    have hmem : 2 ^ 15 ∈ (List.range T).flatMap rows := by
      rw [hperm.mem_iff, List.mem_range]
      omega
    have hbase := (hown.exact _ hmem).index
    exact absurd hbase (by decide)
  · intro hle
    have hn : reqNum = req_num.toNat := by rw [hreq, u32_of_nonneg (by omega) (by omega)]
    subst hn
    have hT0 : 0 < T ∧ T ≤ req_num.toNat := by
      rcases hT with rfl | ⟨aiv_num, haiv, rfl⟩ <;> omega
    have hperm := gridStride_once (n := req_num.toNat) hT0.1
    refine ⟨_, visits_gridStride hT0.1 (by omega), hperm, ownRows_of_exact fun r hr => ?_⟩
    have hlt : r < req_num.toNat := List.mem_range.mp (hperm.mem_iff.mp hr)
    refine exact_kernelBase (n := 2 ^ 15) ?_ ?_ ?_ ?_ ?_ (by omega)
    all_goals decide

/-- Four requests on two cores. -/
theorem rows_own_four : HostPath 4 4 2 ∧ ServesOwnRows hbmSizes 4 2 4 := by
  have hpath : HostPath 4 4 2 := @HostPath.lookup 4 ⟨.kInt, .kInt, .kInt, .kInt, .kInt⟩ 2 ⟨4, 2⟩ rfl rfl
  exact ⟨hpath, (rows_own_iff hpath).mpr (by decide)⟩

/-- 32769 requests on 48 cores pass every check of the host path. -/
theorem rows_alias : ¬ ∀ (req_num : ℤ) (reqNum T : ℕ), HostPath req_num reqNum T →
    ServesOwnRows hbmSizes reqNum T req_num.toNat := by
  intro h
  have hpath : HostPath 32769 32769 48 :=
    @HostPath.lookup 32769 ⟨.kInt, .kInt, .kInt, .kInt, .kInt⟩ 48 ⟨32769, 48⟩ rfl rfl
  obtain ⟨rows, -, hperm, hown⟩ := h 32769 32769 48 hpath
  have hmem : 32768 ∈ (List.range 48).flatMap rows := by
    rw [hperm.mem_iff, List.mem_range]
    decide
  exact absurd (hown.exact _ hmem).index (by decide)

end AsuAscend.HbmIndex
