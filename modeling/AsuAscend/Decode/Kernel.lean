/-
The NPU resolver: `AsuKvResolverKernel` and its tiling
(`patch/0001-5a5da8d7-feat-add-asu-kv-resolver-custom-op.patch`).

The kernel runs on one core and works on flat global memory, the caches element by element.
It checks nothing: an access outside a buffer has no result here, and neither has a division
by zero in the tiling. Shapes are lists of dimensions; `int64_t` arithmetic wraps.

## Partial, not total

`Option` stands for the accesses that the code leaves undefined: an index that is negative or past
the end of a buffer, a division by zero in the tiling. A theorem that a call gives `some` memory
says that it makes none. The kernel copies a slot element by element, in two caches with elements
of their own; `copySlot_eq` is the one place that speaks of elements, and everything above it is
about rows.
-/
import AsuAscend.Lib.FlatMemory
import AsuAscend.Lib.MachineWords
import AsuAscend.Decode.Context
import Mathlib.Algebra.BigOperators.Group.List.Basic
import Mathlib.Data.Int.Order.Basic
import Mathlib.Tactic.Ring

set_option autoImplicit false

open FlatMemory MachineWords SentinelTable

namespace AsuAscend.Decode.Kernel

/-! ## Tiling -/

structure TilingData where
  topkNumel : ℤ
  actualSeqLen : ℤ
  blockSize : ℤ
  kv0SlotElements : ℤ
  kv1SlotElements : ℤ

/-- The quotient of two integers in C; there is none by zero. -/
def quotient (a b : ℤ) : Option ℤ := if b = 0 then none else some (a.tdiv b)

def shapeNumel (shape : List ℕ) : ℤ :=
  shape.foldl (fun (numel : ℤ) (dim : ℕ) => i64 (numel * dim)) 1

def slotElements (shape : List ℕ) : Option ℤ :=
  if shape.length ≤ 1 then some 1
  else
    let slotNum := shape.headD 0
    quotient (shapeNumel shape) slotNum

def tilingFunc (topkShape kv0Shape kv1Shape : List ℕ) (actual_seq_len block_size : ℤ) :
    Option TilingData := do
  let kv0SlotElements ← slotElements kv0Shape
  let kv1SlotElements ← slotElements kv1Shape
  return { topkNumel := shapeNumel topkShape, actualSeqLen := actual_seq_len,
           blockSize := block_size, kv0SlotElements, kv1SlotElements }

/-! ## The kernel -/

structure GlobalMemory (T : Type) where
  originalTopkIndicesGm : List ℤ
  tokenStateGm : List ℤ
  asuRecordAddrGm : List ℤ
  hbmSlotOfTokenGm : List ℤ
  slotOwnerTokenGm : List ℤ
  freeSlotStackGm : List ℤ
  freeSlotCountGm : List ℤ
  originalBlockTableGm : List ℤ
  originalKvCache0Gm : List T
  originalKvCache1Gm : List T
  managedKvCache0Gm : List T
  managedKvCache1Gm : List T
  resolvedKvSlotsGm : List ℤ

variable {T : Type}

def resolveTailSourceSlot (tiling : TilingData) (gm : GlobalMemory T) (tokenId : ℤ) : Option ℤ := do
  let logicalBlock ← quotient tokenId tiling.blockSize
  let offset := i64 (tokenId - i64 (logicalBlock * tiling.blockSize))
  let physicalBlock ← load gm.originalBlockTableGm logicalBlock
  return i32 (i64 (i64 (physicalBlock * tiling.blockSize) + offset))

/-- The count is stored before the slot is read. -/
def popFreeSlot (gm : GlobalMemory T) : Option (ℤ × GlobalMemory T) := do
  let count ← load gm.freeSlotCountGm 0
  let nextCount := i32 (count - 1)
  let freeSlotCountGm ← store gm.freeSlotCountGm 0 nextCount
  let slot ← load gm.freeSlotStackGm nextCount
  return (slot, { gm with freeSlotCountGm })

def copySlot (src dst : List T) (sourceSlot managedSlot slotElements : ℤ) : Option (List T) :=
  let srcOffset := i64 (sourceSlot * slotElements)
  let dstOffset := i64 (managedSlot * slotElements)
  (List.range slotElements.toNat).foldlM (fun dst (j : ℕ) =>
    (load src (i64 (srcOffset + j))).bind fun v => store dst (i64 (dstOffset + j)) v) dst

def copyFullKvPair (tiling : TilingData) (gm : GlobalMemory T) (sourceSlot managedSlot : ℤ) :
    Option (GlobalMemory T) := do
  let managedKvCache0Gm ← copySlot gm.originalKvCache0Gm gm.managedKvCache0Gm sourceSlot
    managedSlot tiling.kv0SlotElements
  let managedKvCache1Gm ← copySlot gm.originalKvCache1Gm gm.managedKvCache1Gm sourceSlot
    managedSlot tiling.kv1SlotElements
  return { gm with managedKvCache0Gm, managedKvCache1Gm }

/-- What the loop does to a token that is not resident. -/
def installToken (tiling : TilingData) (gm : GlobalMemory T) (tokenId state : ℤ) :
    Option (ℤ × GlobalMemory T) := do
  let sourceSlot ← (if state = ASU_ONLY then load gm.asuRecordAddrGm tokenId
    else resolveTailSourceSlot tiling gm tokenId)
  let (slot, gm) ← popFreeSlot gm
  let gm ← copyFullKvPair tiling gm sourceSlot slot
  let tokenStateGm ← store gm.tokenStateGm tokenId HBM_RESIDENT
  let hbmSlotOfTokenGm ← store gm.hbmSlotOfTokenGm tokenId slot
  let slotOwnerTokenGm ← store gm.slotOwnerTokenGm slot tokenId
  return (slot, { gm with tokenStateGm, hbmSlotOfTokenGm, slotOwnerTokenGm })

/-- One turn of the loop of `Process`. -/
def processIndex (tiling : TilingData) (gm : GlobalMemory T) (i : ℕ) : Option (GlobalMemory T) := do
  let tokenId ← load gm.originalTopkIndicesGm i
  let state ← load gm.tokenStateGm tokenId
  let slot ← load gm.hbmSlotOfTokenGm tokenId
  let (slot, gm) ← (if state ≠ HBM_RESIDENT then installToken tiling gm tokenId state
    else some (slot, gm))
  let resolvedKvSlotsGm ← store gm.resolvedKvSlotsGm i slot
  return { gm with resolvedKvSlotsGm }

def process (tiling : TilingData) (gm : GlobalMemory T) : Option (GlobalMemory T) :=
  (List.range tiling.topkNumel.toNat).foldlM (processIndex tiling) gm

/-- The operator: the tiling on the host, and then the kernel. -/
def asuKvResolver (topkShape kv0Shape kv1Shape : List ℕ) (actual_seq_len block_size : ℤ)
    (gm : GlobalMemory T) : Option (GlobalMemory T) := do
  let tiling ← tilingFunc topkShape kv0Shape kv1Shape actual_seq_len block_size
  process tiling gm

/-! ## The tiling's numbers -/

/-- A product cut to 64 bits in every factor is the product cut once. -/
theorem foldl_i64 (shape : List ℕ) {a : ℤ} (ha : i64 a = a) :
    shape.foldl (fun (numel : ℤ) (dim : ℕ) => i64 (numel * dim)) a = i64 (a * (shape.prod : ℕ)) := by
  induction shape generalizing a with
  | nil => simpa using ha.symm
  | cons dim shape ih =>
      have hwrapped : i64 (i64 (a * dim)) = i64 (a * dim) := Int.bmod_bmod
      rw [List.foldl_cons, ih hwrapped, i64_mul, List.prod_cons, Nat.cast_mul, Int.mul_assoc]

/-- The count of a tensor's elements, which an `int64_t` holds. -/
theorem shapeNumel_eq {shape : List ℕ} (h : shape.prod < 2 ^ 63) :
    shapeNumel shape = (shape.prod : ℕ) := by
  unfold shapeNumel
  rw [foldl_i64 shape (by decide), Int.one_mul, i64_of_lt (by omega) (by exact_mod_cast h)]

/-- The elements of a slot, where the tensor has fewer than `2 ^ 63` of them and the first
dimension is not 0: the division by it is exact. -/
theorem slotElements_eq {rows : ℕ} {dims : List ℕ} (h : rows * dims.prod < 2 ^ 63)
    (hrows : dims = [] ∨ rows ≠ 0) : slotElements (rows :: dims) = some ((dims.prod : ℕ) : ℤ) := by
  unfold slotElements
  cases dims with
  | nil => rfl
  | cons dim dims =>
      -- the quotient is exact: the element count has the number of rows as a factor
      have hpos : rows ≠ 0 := hrows.resolve_left (by simp)
      rw [if_neg (by simp)]
      dsimp only [quotient, List.headD_cons]
      rw [if_neg (by exact_mod_cast hpos), shapeNumel_eq (by rwa [List.prod_cons]), List.prod_cons,
        Nat.cast_mul, Int.mul_tdiv_cancel_left _ (by exact_mod_cast hpos)]

/-- A cache of several dimensions and no rows: the tiling divides by zero. -/
theorem slotElements_none {dims : List ℕ} (h : dims ≠ []) : slotElements (0 :: dims) = none := by
  unfold slotElements
  cases dims with
  | nil => exact absurd rfl h
  | cons dim dims =>
      rw [if_neg (by simp)]
      rfl

section

variable {topkShape kv0Shape kv1Shape : List ℕ} {n block_size : ℤ}

/-- With both slot sizes at hand the tiling data are these. -/
theorem tilingFunc_eq_some {kv0 kv1 : ℤ} (h0 : slotElements kv0Shape = some kv0)
    (h1 : slotElements kv1Shape = some kv1) :
    tilingFunc topkShape kv0Shape kv1Shape n block_size =
      some ⟨shapeNumel topkShape, n, block_size, kv0, kv1⟩ := by
  unfold tilingFunc
  rw [h0, h1]
  rfl

/-- A slot size that cannot be computed is all that stops the tiling. -/
theorem tilingFunc_eq_none (h : slotElements kv0Shape = none ∨ slotElements kv1Shape = none) :
    tilingFunc topkShape kv0Shape kv1Shape n block_size = none := by
  unfold tilingFunc
  rcases h with h | h
  · rw [h]
    rfl
  · rw [h]
    cases slotElements kv0Shape <;> rfl

end

/-! ## Copying a slot -/

/-- A cache as the kernel finds it: rows of `dims.prod` elements each, no more elements than an
`int64_t` counts. -/
structure IsTensor (rows : List (List T)) (dims : List ℕ) : Prop where
  row_length : ∀ row ∈ rows, row.length = dims.prod
  numel_lt : rows.length * dims.prod < 2 ^ 63

/-- Every offset of a slot that a cache has lies inside the cache, so that no product or sum
wraps. -/
theorem slotOffset_eq {i e k n : ℕ} (hi : (i + 1) * e ≤ n) (hn : n < 2 ^ 63) (hk : k < e) :
    i64 (i64 ((i : ℤ) * e) + (k : ℕ)) = (i * e + k : ℕ) ∧ i * e + k < n := by
  rw [Nat.succ_mul] at hi
  have hstart : i64 ((i : ℤ) * e) = (i * e : ℕ) := by
    rw [← Nat.cast_mul, i64_of_lt (by omega) (by omega)]
  rw [hstart, i64_of_lt (by omega) (by omega)]
  exact ⟨by omega, by omega⟩

/-- **A slot is a row**: the element loop does what `copy_` does to it. -/
theorem copySlot_eq {src dst : List (List T)} {dims : List ℕ} (hsrc : IsTensor src dims)
    (hdst : IsTensor dst dims) {row slot : ℕ} (hrow : row < src.length) (hslot : slot < dst.length) :
    copySlot src.flatten dst.flatten row slot (dims.prod : ℕ) =
      some (dst.set slot src[row]).flatten := by
  have hoffset : ∀ {rows : List (List T)}, IsTensor rows dims → ∀ i < rows.length, ∀ k < dims.prod,
      i64 (i64 ((i : ℤ) * (dims.prod : ℕ)) + (k : ℕ)) = (i * dims.prod + k : ℕ) :=
    fun h i hi k hk => (slotOffset_eq (Nat.mul_le_mul_right _ hi) h.numel_lt hk).1
  unfold copySlot
  dsimp only
  rw [Int.toNat_natCast]
  exact copy_row hsrc.row_length hdst.row_length hslot hrow (hoffset hsrc row hrow)
    (hoffset hdst slot hslot)

/-- A copy writes into the cache that is there. -/
theorem copySlot_length {src dst dst' : List T} {sourceSlot managedSlot e : ℤ}
    (h : copySlot src dst sourceSlot managedSlot e = some dst') : dst'.length = dst.length :=
  copy_length h

/-- A copy between slots that both caches have. -/
theorem copySlot_total {src dst : List T} {row slot e : ℕ} (hrow : (row + 1) * e ≤ src.length)
    (hslot : (slot + 1) * e ≤ dst.length) (hsrc : src.length < 2 ^ 63) (hdst : dst.length < 2 ^ 63) :
    ∃ dst', copySlot src dst row slot e = some dst' := by
  unfold copySlot
  dsimp only
  rw [Int.toNat_natCast]
  refine Exists.imp (fun dst' h => h.1) (copy_total (fun j hj => ?_) fun j hj => ?_)
  · have := slotOffset_eq hrow hsrc (List.mem_range.mp hj)
    omega
  · have := slotOffset_eq hslot hdst (List.mem_range.mp hj)
    omega

/-! ## A turn of the loop -/

section

variable {tiling : TilingData} {gm : GlobalMemory T}

/-- A load in range reads what the table has. -/
theorem load_read {xs : List ℤ} {i : ℕ} (h : i < xs.length) : load xs (i : ℤ) = some (read xs i) := by
  rw [load_natCast h, read_of_lt h]

/-- With a slot left, the place that is read is the count that is left. -/
theorem popFreeSlot_eq {place slot : ℕ} (hcount : gm.freeSlotCountGm = [(place : ℤ) + 1])
    (hsmall : (place : ℤ) + 1 < 2 ^ 31) (hstack : place < gm.freeSlotStackGm.length)
    (htop : read gm.freeSlotStackGm place = slot) :
    popFreeSlot gm = some ((slot : ℤ), { gm with freeSlotCountGm := [(place : ℤ)] }) := by
  have hload : load gm.freeSlotCountGm 0 = some ((place : ℤ) + 1) := by
    rw [hcount]
    rfl
  have hnext : i32 ((place : ℤ) + 1 - 1) = place := by
    rw [Int.add_sub_cancel, i32_of_lt (by omega) (by omega)]
  have hstore : store gm.freeSlotCountGm 0 (place : ℤ) = some [(place : ℤ)] := by
    rw [hcount]
    rfl
  unfold popFreeSlot
  rw [hload]
  simp only [Option.bind_eq_bind, Option.bind_some]
  rw [hnext, hstore, Option.bind_some, load_read hstack, htop]
  rfl

/-- **An install** with a slot left: it may come to nothing at the source and in the two copies. -/
theorem installToken_eq {place slot t : ℕ} (hcount : gm.freeSlotCountGm = [(place : ℤ) + 1])
    (hsmall : (place : ℤ) + 1 < 2 ^ 31) (hstack : place < gm.freeSlotStackGm.length)
    (htop : read gm.freeSlotStackGm place = slot) (hstate : t < gm.tokenStateGm.length)
    (hslots : t < gm.hbmSlotOfTokenGm.length) (howners : slot < gm.slotOwnerTokenGm.length) (state : ℤ) :
    installToken tiling gm t state =
      (if state = ASU_ONLY then load gm.asuRecordAddrGm t else resolveTailSourceSlot tiling gm t).bind
        fun sourceSlot =>
          (copySlot gm.originalKvCache0Gm gm.managedKvCache0Gm sourceSlot slot
            tiling.kv0SlotElements).bind fun managedKvCache0Gm =>
          (copySlot gm.originalKvCache1Gm gm.managedKvCache1Gm sourceSlot slot
            tiling.kv1SlotElements).bind fun managedKvCache1Gm =>
          some ((slot : ℤ), { gm with
            managedKvCache0Gm, managedKvCache1Gm
            freeSlotCountGm := [(place : ℤ)]
            tokenStateGm := gm.tokenStateGm.set t HBM_RESIDENT
            hbmSlotOfTokenGm := gm.hbmSlotOfTokenGm.set t slot
            slotOwnerTokenGm := gm.slotOwnerTokenGm.set slot t }) := by
  unfold installToken
  simp only [Option.bind_eq_bind]
  refine Option.bind_congr fun sourceSlot _ => ?_
  rw [popFreeSlot_eq hcount hsmall hstack htop, Option.bind_some]
  unfold copyFullKvPair
  simp only [Option.bind_eq_bind, Option.bind_assoc]
  refine Option.bind_congr fun x _ => Option.bind_congr fun y _ => ?_
  -- neither copy touches the three tables
  show (store gm.tokenStateGm (t : ℤ) HBM_RESIDENT).bind _ = _
  rw [store_natCast hstate, Option.bind_some]
  show (store gm.hbmSlotOfTokenGm (t : ℤ) (slot : ℤ)).bind _ = _
  rw [store_natCast hslots, Option.bind_some]
  show (store gm.slotOwnerTokenGm (slot : ℤ) (t : ℤ)).bind _ = _
  rw [store_natCast howners]
  rfl

variable {i t : ℕ}

/-- A resident token costs one store: its slot goes into the output, and nothing else changes. -/
theorem processIndex_resident (htoken : load gm.originalTopkIndicesGm (i : ℤ) = some (t : ℤ))
    (hstate : t < gm.tokenStateGm.length) (hslots : t < gm.hbmSlotOfTokenGm.length)
    (hres : read gm.tokenStateGm t = HBM_RESIDENT) :
    processIndex tiling gm i = (store gm.resolvedKvSlotsGm i (read gm.hbmSlotOfTokenGm t)).bind
      fun resolvedKvSlotsGm => some { gm with resolvedKvSlotsGm } := by
  unfold processIndex
  simp only [Option.bind_eq_bind]
  rw [htoken, Option.bind_some, load_read hstate, Option.bind_some, load_read hslots,
    Option.bind_some, hres, if_neg (not_not_intro rfl), Option.bind_some]
  rfl

/-- The slot table is read before it is known whether the entry counts. -/
theorem processIndex_install (htoken : load gm.originalTopkIndicesGm (i : ℤ) = some (t : ℤ))
    (hstate : t < gm.tokenStateGm.length) (hslots : t < gm.hbmSlotOfTokenGm.length)
    (hnew : read gm.tokenStateGm t ≠ HBM_RESIDENT) :
    processIndex tiling gm i = (installToken tiling gm t (read gm.tokenStateGm t)).bind fun r =>
      (store r.2.resolvedKvSlotsGm i r.1).bind fun resolvedKvSlotsGm =>
        some { r.2 with resolvedKvSlotsGm } := by
  unfold processIndex
  simp only [Option.bind_eq_bind]
  rw [htoken, Option.bind_some, load_read hstate, Option.bind_some, load_read hslots,
    Option.bind_some, if_pos hnew]
  rfl

end

end AsuAscend.Decode.Kernel
