/-
The NPU kernel computes what the Python resolver computes.

`memoryOf` is the memory of a call: the tables as they are, the caches flattened. A turn of the
Python loop that returns is a turn of the kernel on that memory (`processIndex_eq`), whatever the
turns before it have done, and so is the whole loop (`foldlM_processIndex`). The tiling stands in
the way of one kind of input: an original cache without rows, which a call whose tokens are all
resident never touches, but whose slot size the tiling gets by dividing by the number of rows
(`kernel_agrees_iff`).

## The two directions

A call of the Python resolver that returns has popped and copied without raising, so the accesses
of the kernel that correspond to it are inside their buffers; the checks that Python makes and the
kernel does not have all passed. What remains is the tiling, which runs before the first token, and
its division by the number of rows.

The numbers that a call works with are small (`SmallValues`), so that the `int64_t` arithmetic of
the kernel and the integers of Python agree.
-/
import AsuAscend.Decode.Kernel
import AsuAscend.Decode.Resolver

set_option autoImplicit false

open FlatMemory MachineWords SentinelTable StateExcept

namespace AsuAscend.Decode.Kernel

variable {T : Type}

/-! ## One call in two memories -/

/-- The global memory of a call, with `resolved` in the output. -/
def memoryOf (src : Source (List T) (List T)) (topk resolved : List ℤ)
    (c : Context (List T) (List T)) : GlobalMemory T where
  originalTopkIndicesGm := topk
  tokenStateGm := c.token_state
  asuRecordAddrGm := c.asu_record_addr
  hbmSlotOfTokenGm := c.hbm_slot_of_token
  slotOwnerTokenGm := c.slot_owner_token
  freeSlotStackGm := c.free_slot_stack
  freeSlotCountGm := [c.free_slot_count]
  originalBlockTableGm := src.original_block_table
  originalKvCache0Gm := src.original_kv_cache_0.flatten
  originalKvCache1Gm := src.original_kv_cache_1.flatten
  managedKvCache0Gm := c.managed_kv_cache_0.flatten
  managedKvCache1Gm := c.managed_kv_cache_1.flatten
  resolvedKvSlotsGm := resolved

/-- The caches of a call: an original cache and its managed one have the same slots. -/
structure Tensors (src : Source (List T) (List T)) (dims0 dims1 : List ℕ)
    (c : Context (List T) (List T)) : Prop where
  original_0 : IsTensor src.original_kv_cache_0 dims0
  original_1 : IsTensor src.original_kv_cache_1 dims1
  managed_0 : IsTensor c.managed_kv_cache_0 dims0
  managed_1 : IsTensor c.managed_kv_cache_1 dims1

/-- Values and row numbers that an `int32_t` holds. -/
structure SmallValues (src : Source (List T) (List T)) (topk : List ℤ) (block_size : ℕ)
    (c : Context (List T) (List T)) : Prop where
  token_id : ∀ t ∈ topk, t < 2 ^ 31
  block_size_lt : block_size < 2 ^ 31
  rows_le : src.original_kv_cache_0.length ≤ 2 ^ 31
  count_lt : c.free_slot_count < 2 ^ 31

section

variable {src : Source (List T) (List T)} {topk resolved : List ℤ} {block_size : ℕ}
  {c : Context (List T) (List T)} {dims0 dims1 : List ℕ} {tiling : TilingData} {t row slot : ℕ}

/-! ## Installing a token -/

/-- A row of the tail: the kernel computes in 64 bits what the reference computes in integers,
below `2 ^ 31`. -/
theorem resolveTailSourceSlot_eq (hblock : tiling.blockSize = block_size) (hpos : 0 < block_size)
    (hsize : block_size < 2 ^ 31) (ht : t < 2 ^ 31)
    (hcovers : t / block_size < src.original_block_table.length)
    (hrow : sourceRow src.original_block_table block_size t = row) (hlt : row < 2 ^ 31) :
    resolveTailSourceSlot tiling (memoryOf src topk resolved c) t = some (row : ℤ) := by
  have hquot : quotient t tiling.blockSize = some ((t / block_size : ℕ) : ℤ) := by
    unfold quotient
    rw [hblock, if_neg (by omega)]
    rfl
  have hmod := Nat.mod_lt t hpos
  have hdiv : t / block_size * block_size + t % block_size = t := Nat.div_add_mod' t block_size
  have hmul : ((t / block_size : ℕ) : ℤ) * block_size = (t / block_size * block_size : ℕ) :=
    (Nat.cast_mul _ _).symm
  have hstart : i64 ((t / block_size * block_size : ℕ) : ℤ) = (t / block_size * block_size : ℕ) :=
    i64_of_lt (by omega) (by omega)
  have hoffset : i64 ((t : ℤ) - (t / block_size * block_size : ℕ)) = (t % block_size : ℕ) := by
    rw [i64_of_lt (by omega) (by omega)]
    omega
  -- the product is the row less the offset, so neither it nor the sum wraps
  have hproduct : read src.original_block_table (t / block_size) * block_size =
      row - (t % block_size : ℕ) := by
    unfold sourceRow at hrow
    omega
  have hphysical : i64 (row - (t % block_size : ℕ)) = row - (t % block_size : ℕ) :=
    i64_of_lt (by omega) (by omega)
  unfold resolveTailSourceSlot
  rw [hquot, Option.bind_eq_bind, Option.bind_some, hblock, hmul, hstart, hoffset]
  show (load src.original_block_table _).bind _ = _
  rw [load_read hcovers, Option.bind_some, hproduct, hphysical, Int.sub_add_cancel,
    i64_of_lt (by omega) (by omega), i32_of_lt (by omega) (by omega)]
  rfl

/-- A row copied as a whole is the cache with that row set. -/
theorem copyRow_eq_set {dst rows : List (List T)} (hrow : row < rows.length) :
    copyRow dst slot rows row = dst.set slot rows[row] := by
  unfold copyRow
  rw [List.getElem?_eq_getElem hrow]

/-- **An install** that has been through the checks of the Python resolver. -/
theorem installToken_installs (htensors : Tensors src dims0 dims1 c)
    (hkv0 : tiling.kv0SlotElements = (dims0.prod : ℕ))
    (hkv1 : tiling.kv1SlotElements = (dims1.prod : ℕ)) (hcount : c.free_slot_count < 2 ^ 31)
    (h : Installs c src t row slot) {state : ℤ}
    (hsource : (if state = ASU_ONLY then load c.asu_record_addr (t : ℤ)
      else resolveTailSourceSlot tiling (memoryOf src topk resolved c) t) = some (row : ℤ)) :
    installToken tiling (memoryOf src topk resolved c) t state =
      some ((slot : ℤ), memoryOf src topk resolved (c.installed src t row slot)) := by
  obtain ⟨-, hrow_0, hrow_1, -, hslot_0, hslot_1⟩ := h.copies
  have hrow_0 : row < src.original_kv_cache_0.length := by omega
  have hrow_1 : row < src.original_kv_cache_1.length := by omega
  have hslot_0 : slot < c.managed_kv_cache_0.length := by omega
  have hslot_1 : slot < c.managed_kv_cache_1.length := by omega
  have hcopy_0 := copySlot_eq htensors.original_0 htensors.managed_0 hrow_0 hslot_0
  have hcopy_1 := copySlot_eq htensors.original_1 htensors.managed_1 hrow_1 hslot_1
  rw [← copyRow_eq_set hrow_0, ← hkv0] at hcopy_0
  rw [← copyRow_eq_set hrow_1, ← hkv1] at hcopy_1
  -- the count, a cell of its own, is one more than the index of the slot that is taken
  have hpos := h.count_pos
  have hplace : ((c.free_slot_count - 1).toNat : ℤ) = c.free_slot_count - 1 := by omega
  have hcell : (memoryOf src topk resolved c).freeSlotCountGm =
      [((c.free_slot_count - 1).toNat : ℤ) + 1] := by
    rw [hplace, Int.sub_add_cancel]
    rfl
  rw [installToken_eq hcell (by omega) h.in_stack h.top h.in_state h.in_slots h.in_owners, hplace]
  show (if state = ASU_ONLY then load c.asu_record_addr (t : ℤ)
    else resolveTailSourceSlot tiling (memoryOf src topk resolved c) t).bind _ = _
  rw [hsource, Option.bind_some]
  show (copySlot src.original_kv_cache_0.flatten c.managed_kv_cache_0.flatten _ _ _).bind _ = _
  rw [hcopy_0, Option.bind_some]
  show (copySlot src.original_kv_cache_1.flatten c.managed_kv_cache_1.flatten _ _ _).bind _ = _
  rw [hcopy_1]
  rfl

/-- An install keeps the shape of the tensors; the rows are only moved. -/
theorem Tensors.installed (h : Tensors src dims0 dims1 c) :
    Tensors src dims0 dims1 (c.installed src t row slot) := by
  have hcopy : ∀ {rows dst : List (List T)} {dims : List ℕ}, IsTensor rows dims →
      IsTensor dst dims → IsTensor (copyRow dst slot rows row) dims := by
    intro rows dst dims hrows hdst
    refine ⟨fun r hr => ?_, by rw [copyRow_length]; exact hdst.numel_lt⟩
    by_cases hrow : row < rows.length
    · -- a row that was copied comes from a cache with the same slots
      rw [copyRow_eq_set hrow] at hr
      rcases List.mem_or_eq_of_mem_set hr with hr | rfl
      · exact hdst.row_length r hr
      · exact hrows.row_length _ (List.getElem_mem hrow)
    · unfold copyRow at hr
      rw [List.getElem?_eq_none (by omega)] at hr
      exact hdst.row_length r hr
  exact ⟨h.original_0, h.original_1, hcopy h.original_0 h.managed_0, hcopy h.original_1 h.managed_1⟩

/-! ## A turn, and a call -/

/-- What the tiling hands to the kernel. -/
structure Tiled (tiling : TilingData) (block_size : ℕ) (dims0 dims1 : List ℕ) : Prop where
  blockSize : tiling.blockSize = block_size
  kv0SlotElements : tiling.kv0SlotElements = (dims0.prod : ℕ)
  kv1SlotElements : tiling.kv1SlotElements = (dims1.prod : ℕ)

/-- **A turn** of the Python loop that returns is a turn of the kernel. -/
theorem processIndex_eq (htiled : Tiled tiling block_size dims0 dims1)
    (htensors : Tensors src dims0 dims1 c) (hsmall : SmallValues src topk block_size c)
    (hpos : 0 < block_size) {i : ℕ} (hresolved : i < resolved.length) {n z s : ℤ}
    (hget : topk[i]? = some z) {c' : Context (List T) (List T)}
    (h : resolveToken src n block_size z c = .ok s c') :
    processIndex tiling (memoryOf src topk resolved c) i =
        some (memoryOf src topk (resolved.set i s) c') ∧
      Tensors src dims0 dims1 c' ∧ SmallValues src topk block_size c' := by
  -- the turn of Python has found the token resident, or has installed it
  obtain ⟨t, rfl, hturn⟩ := resolveToken_eq_ok h
  have htoken : load topk (i : ℤ) = some (t : ℤ) := hget
  have hsmall_t := hsmall.token_id _ (List.mem_of_getElem? hget)
  have hstore : ∀ v, store resolved (i : ℤ) v = some (resolved.set i v) := store_natCast hresolved
  rcases hturn with ⟨hres, hstate, hslots, rfl, hsame⟩ | ⟨row, slot, rfl, rfl, hinstalls, hsource⟩
  -- the kernel finds the same state, and stores the slot
  · rw [hsame]
    refine ⟨?_, htensors, hsmall⟩
    rw [processIndex_resident htoken hstate hslots hres]
    show (store resolved (i : ℤ) _).bind _ = _
    rw [hstore]
    rfl
  -- the row of the token is below `2 ^ 31`, where the product of the kernel is exact
  · have hrow_lt : row < 2 ^ 31 := by
      have := hinstalls.copies.source_lt_0
      have := hsmall.rows_le
      omega
    have hcount := hsmall.count_lt
    -- the state is one of the two that name a source
    have hnew : read c.token_state t ≠ HBM_RESIDENT := by
      rcases hsource with ⟨hasu, -⟩ | ⟨htail, -⟩
      · rw [hasu]
        decide
      · rw [htail]
        decide
    -- a row on record is loaded, one of the tail is worked out from the block table
    have hread : (if read c.token_state t = ASU_ONLY then load c.asu_record_addr (t : ℤ)
        else resolveTailSourceSlot tiling (memoryOf src topk resolved c) t) = some (row : ℤ) := by
      rcases hsource with ⟨hasu, haddr, hrow⟩ | ⟨htail, hcovers, hrow⟩
      · rw [if_pos hasu, load_read haddr, hrow]
      · rw [if_neg (by rw [htail]; decide)]
        exact resolveTailSourceSlot_eq htiled.blockSize hpos hsmall.block_size_lt (by omega) hcovers
          hrow hrow_lt
    -- both then pop, copy and write the tables
    refine ⟨?_, htensors.installed, ⟨hsmall.token_id, hsmall.block_size_lt, hsmall.rows_le, ?_⟩⟩
    · have hinstall := installToken_installs htensors htiled.kv0SlotElements htiled.kv1SlotElements
        hcount hinstalls hread
      rw [processIndex_install htoken hinstalls.in_state hinstalls.in_slots hnew]
      show (installToken tiling (memoryOf src topk resolved c) t (read c.token_state t)).bind _ = _
      rw [hinstall, Option.bind_some]
      show (store resolved (i : ℤ) _).bind _ = _
      rw [hstore]
      rfl
    · show c.free_slot_count - 1 < 2 ^ 31
      omega

/-- The rest of a call, from where the output has been filled with `done`. -/
theorem foldlM_processIndex (htiled : Tiled tiling block_size dims0 dims1) (hpos : 0 < block_size)
    {n : ℤ} {rest : List ℤ} : ∀ (pre done old : List ℤ) {slots : List ℤ}
    {c c' : Context (List T) (List T)},
    topk = pre ++ rest → done.length = pre.length → old.length = rest.length →
    Tensors src dims0 dims1 c → SmallValues src topk block_size c →
    rest.mapM (resolveToken src n block_size) c = .ok slots c' →
    (List.range' pre.length rest.length).foldlM (processIndex tiling)
        (memoryOf src topk (done ++ old) c) = some (memoryOf src topk (done ++ slots) c') := by
  induction rest with
  | nil =>
      intro pre done old slots c c' htopk hdone hold htensors hsmall hrun
      cases hrun
      rw [List.eq_nil_of_length_eq_zero hold]
      rfl
  | cons z rest ih =>
      intro pre done old slots c c' htopk hdone hold htensors hsmall hrun
      obtain ⟨s, c1, slots, hturn, hrest, rfl⟩ := mapM_cons_eq_ok hrun
      cases old with
      | nil => cases hold
      | cons u old =>
          have hget : topk[pre.length]? = some z := by
            rw [htopk]
            simp
          have hset : (done ++ u :: old).set pre.length s = (done ++ [s]) ++ old := by
            rw [← hdone]
            simp
          have hlt : pre.length < (done ++ u :: old).length := by simp; omega
          -- this turn fills one more cell of the output
          obtain ⟨hstep, htensors1, hsmall1⟩ :=
            processIndex_eq htiled htensors hsmall hpos hlt hget hturn
          rw [List.length_cons, List.range'_succ, List.foldlM_cons, hstep, hset]
          have htail := ih (pre ++ [z]) (done ++ [s]) old (by rw [htopk]; simp)
            (by simpa using hdone) (Nat.succ.inj hold) htensors1 hsmall1 hrest
          rw [List.length_append, List.length_singleton] at htail
          rw [show done ++ s :: slots = (done ++ [s]) ++ slots by simp]
          exact htail

end

/-- **A call** that returns: the kernel leaves what the Python resolver leaves, in every table
and cache and in the output, unless an original cache of several dimensions has no rows. -/
theorem kernel_agrees_iff {src : Source (List T) (List T)} {c c' : Context (List T) (List T)}
    {topk slots resolved : List ℤ} {n : ℤ} {block_size : ℕ} {dims0 dims1 topkShape : List ℕ}
    (htensors : Tensors src dims0 dims1 c) (hsmall : SmallValues src topk block_size c)
    (hshape : topkShape.prod = topk.length) (hnumel : topk.length < 2 ^ 63)
    (hresolved : resolved.length = topk.length)
    (hok : asuResolveKvSlotsSingleReq src topk n block_size c = .ok slots c') :
    asuKvResolver topkShape (src.original_kv_cache_0.length :: dims0)
        (src.original_kv_cache_1.length :: dims1) n block_size (memoryOf src topk resolved c) =
          some (memoryOf src topk slots c') ↔
      (dims0 = [] ∨ src.original_kv_cache_0 ≠ []) ∧ (dims1 = [] ∨ src.original_kv_cache_1 ≠ []) := by
  constructor
  -- without rows the tiling divides by zero, and the call has no result
  · intro hrun
    by_contra hno
    have hnone : ∀ {rows : List (List T)} {dims : List ℕ}, ¬ (dims = [] ∨ rows ≠ []) →
        slotElements (rows.length :: dims) = none := by
      intro rows dims hno
      obtain ⟨hdims, hrows⟩ := not_or.mp hno
      rw [not_not.mp hrows]
      exact slotElements_none hdims
    unfold asuKvResolver at hrun
    rw [tilingFunc_eq_none ((not_and_or.mp hno).imp hnone hnone)] at hrun
    cases hrun
  -- with rows the division gives the elements of a slot
  · rintro ⟨hrows_0, hrows_1⟩
    have hlen : ∀ {rows : List (List T)}, rows ≠ [] → rows.length ≠ 0 := fun h hzero =>
      h (List.eq_nil_of_length_eq_zero hzero)
    have hkv0 := slotElements_eq htensors.original_0.numel_lt (hrows_0.imp_right hlen)
    have hkv1 := slotElements_eq htensors.original_1.numel_lt (hrows_1.imp_right hlen)
    have htopk : shapeNumel topkShape = (topk.length : ℕ) := by
      rw [shapeNumel_eq (by rw [hshape]; exact hnumel), hshape]
    -- the checks of Python have passed
    unfold asuResolveKvSlotsSingleReq at hok
    split_ifs at hok with hneg hzero
    · cases hok
    · cases hok
    -- the tiling data say what the context says
    have htiled : Tiled ⟨topk.length, n, block_size, (dims0.prod : ℕ), (dims1.prod : ℕ)⟩ block_size
        dims0 dims1 := ⟨rfl, rfl, rfl⟩
    have hpos : 0 < block_size := by omega
    -- the loop goes over the list of tokens from its beginning
    have hprocess := foldlM_processIndex htiled hpos [] [] resolved (List.nil_append topk).symm rfl
      hresolved htensors hsmall hok
    unfold asuKvResolver
    rw [tilingFunc_eq_some hkv0 hkv1, htopk]
    show process _ _ = _
    unfold process
    rw [Int.toNat_natCast, List.range_eq_range']
    exact hprocess

/-- Six tokens in blocks of two, four slots; the first four tokens are on record. -/
def sixTokens : Context (List ℕ) (List ℕ) :=
  { freshContext 6 2 (List.replicate 4 [0, 0]) (List.replicate 4 [0, 0, 0]) with
    token_state := [ASU_ONLY, ASU_ONLY, ASU_ONLY, ASU_ONLY, TAIL_HBM, TAIL_HBM]
    asu_record_addr := [0, 4, 0, 0, -1, -1]
    actual_seq_len := 6
    managed_prefix_len := 4 }

/-- Rows of two elements in one cache and of three in the other. -/
def eightRows : Source (List ℕ) (List ℕ) where
  original_block_table := [2, 0, 3]
  original_kv_cache_0 := (List.range 8).map fun row => [2 * row, 2 * row + 1]
  original_kv_cache_1 := (List.range 8).map fun row => [3 * row, 3 * row + 1, 3 * row + 2]

/-- The tensors of the example have the shape that the kernel is told. -/
theorem sixTokens_tensors : Tensors eightRows [2] [3] sixTokens := by
  constructor <;> exact ⟨by decide, by decide⟩

/-- A token on record, asked for twice, and one of the tail. -/
theorem kernel_agrees_six : ∃ c', asuResolveKvSlotsSingleReq eightRows [1, 1, 5] 6 2 sixTokens =
    .ok [3, 3, 2] c' ∧
    asuKvResolver [1, 1, 3] [8, 2] [8, 3] 6 2 (memoryOf eightRows [1, 1, 5] [0, 0, 0] sixTokens) =
      some (memoryOf eightRows [1, 1, 5] [3, 3, 2] c') := by
  refine ⟨_, rfl, (kernel_agrees_iff sixTokens_tensors ⟨?_, ?_, ?_, ?_⟩ ?_ ?_ ?_ rfl).mpr ⟨?_, ?_⟩⟩
  all_goals decide

/-- The only token is resident and the original caches have no rows: the Python resolver returns
its slot, and the tiling divides by zero. -/
theorem kernel_stops_without_rows :
    ∃ c : Context (List ℕ) (List ℕ),
      asuResolveKvSlotsSingleReq ⟨[], [], []⟩ [0] 1 1 c = .ok [0] c ∧
      asuKvResolver [1] [0, 2] [0, 2] 1 1 (memoryOf ⟨[], [], []⟩ [0] [0] c) = none :=
  ⟨{ freshContext 1 1 [[7, 8]] [[7, 8]] with
      token_state := [HBM_RESIDENT], hbm_slot_of_token := [0], slot_owner_token := [0],
      free_slot_count := 0, actual_seq_len := 1 }, rfl, rfl⟩

end AsuAscend.Decode.Kernel
