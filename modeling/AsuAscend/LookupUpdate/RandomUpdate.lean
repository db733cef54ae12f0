/-
`KernelHbmRandomUpdate` and its reference `expected_lookup_update`.

Each core serves every `blockNum`-th request and writes to the table row of that request
alone, so that the order of the cores' stores does not matter. Within a row the positions
are written in the order of the reference. What is left is the number of positions:
`updates_as_expected_iff` says that a call does what the reference does exactly when
`query_len * update_percent` fits into 32 bits.

## What is proved

`updates_as_expected_iff` is about one call that passes the checks of the host, with any number
of cores and any interleaving of their stores: the table afterwards is that of the reference if
and only if the product of length and percentage fits 32 bits. For the other direction it is
enough that the count itself is wrong then: from `2 ^ 32` on the wrapped count differs from the
right one, and the update has touched another number of positions.
-/
import AsuAscend.LookupUpdate.LookupVec
import AsuAscend.LookupUpdate.Positions

set_option autoImplicit false

open MachineWords WrappingLoop WorkSplit Interleavings
open Function (update)

namespace AsuAscend.LookupUpdate

/-! ## The kernel -/

section

variable (l : UpdateLaunch) (queryKeys newStates : ℕ → ℤ)

/-- The calls of `tableStatesGm_.SetValue` for a request. -/
def requestStores (reqId : ℕ) (positions : List ℕ) : List (ℕ × ℤ) :=
  let indexBase := u32 (reqId * INDEX_SIZE : ℕ)
  let queryBase := u32 (reqId * l.queryLen : ℕ)
  positions.map fun pos =>
    let key := queryKeys (u32 (queryBase + pos : ℕ))
    let newVal := newStates (u32 (queryBase + pos : ℕ))
    (u32 (indexBase + u32 key : ℕ), newVal)

/-- A run of `hbm_random_update`: the requests that each core visits, the positions that it
goes through for them, and the stores of all cores in the order in which they reach the
memory. With nothing to update, no core enters its loop. -/
structure UpdateRun (rows positions : ℕ → List ℕ) (order : List (ℕ × ℕ × ℤ)) : Prop where
  visits : if kernelUpdateNum l.queryLen l.updatePercent = 0 then ∀ c, rows c = []
    else Visits l.reqNum l.blockDim rows
  drawn : ∀ c < l.blockDim, ∀ r ∈ rows c,
    ∃ fuel, kernelPositions fuel l.queryLen l.seed l.updatePercent r = some (positions r)
  stores : Interleaves l.blockDim
    (fun c => (rows c).flatMap fun r => requestStores l queryKeys newStates r (positions r)) order

end

/-- What the launch, if there is one, leaves of `table_states`. -/
def UpdateStage (launch : Option UpdateLaunch) (queryKeys newStates states states' : ℕ → ℤ) : Prop :=
  match launch with
  | none => states' = states
  | some l => ∃ rows positions order, UpdateRun l queryKeys newStates rows positions order ∧
      states' = writeAll (order.map Prod.snd) states

def launchPositions (fuel : ℕ) (launch : Option UpdateLaunch) (r : ℕ) : Option (List ℕ) :=
  match launch with
  | none => some []
  | some l => kernelPositions fuel l.queryLen l.seed l.updatePercent r

/-- The calls that come to a launch of the kernel or find that there is nothing to do. -/
inductive UpdateCall (tableKeys tableStates queryKeys newStates : Tensor)
    (seed updatePercent blockDim : ℤ) : LookupShape → Option UpdateLaunch → Prop
  | lookupRandomUpdate {call : Call}
      (h : lookupRandomUpdate tableKeys tableStates queryKeys newStates seed updatePercent
        blockDim true = .ok call) :
      UpdateCall tableKeys tableStates queryKeys newStates seed updatePercent blockDim call.shape
        call.update
  | updateOnly {shape : LookupShape} {launch : Option UpdateLaunch}
      (h : updateOnly tableKeys tableStates queryKeys newStates seed updatePercent blockDim =
        .ok (shape, launch)) :
      UpdateCall tableKeys tableStates queryKeys newStates seed updatePercent blockDim shape launch

/-! ## The reference -/

/-- The assignments to a row of `expected_states`. -/
def expectedStores (query new : ℕ → ℕ → ℤ) (req_id : ℕ) (positions : List ℕ) : List ((ℕ × ℕ) × ℤ) :=
  positions.map fun pos => ((req_id, (query req_id pos).toNat), new req_id pos)

/-- `expected_out` and `expected_states`, on the 2-D arrays. -/
def expectedLookupUpdate (fuel req_num query_len : ℕ) (table query new : ℕ → ℕ → ℤ) (seed : ℤ)
    (update_percent : ℕ) : Option ((ℕ → ℕ → ℤ) × (ℕ × ℕ → ℤ)) := do
  let expected_states ← (List.range req_num).foldlM (fun states req_id => do
    let positions ← updatePositions fuel query_len seed update_percent req_id
    return writeAll (expectedStores query new req_id positions) states) fun c => table c.1 c.2
  return (fun req_id i => table req_id (query req_id i).toNat, expected_states)

/-- A buffer as a 2-D array with rows of length `w`. -/
def rowsOf (w : ℕ) (m : ℕ → ℤ) (r i : ℕ) : ℤ := m (r * w + i)

/-- The update that was asked for. -/
structure UpdatesAsExpected (shape : LookupShape) (launch : Option UpdateLaunch)
    (seed updatePercent : ℤ) (keys news states : ℕ → ℤ) : Prop where
  /-- As many distinct positions as the percentage says, those of the reference. -/
  positions : ∀ r < shape.reqNum, ∀ fuel, shape.queryLen ≤ fuel → ∃ ps,
    launchPositions fuel launch r = some ps ∧
    updatePositions fuel shape.queryLen seed updatePercent.toNat r = some ps ∧ ps.Nodup ∧
    ps.length = shape.queryLen * updatePercent.toNat / 100 ∧ ∀ p ∈ ps, p < shape.queryLen
  ends : ∃ states', UpdateStage launch keys news states states'
  /-- The table is the expected one. -/
  table : ∀ states', UpdateStage launch keys news states states' →
    ∀ fuel, shape.queryLen ≤ fuel → ∃ out expected,
      expectedLookupUpdate fuel shape.reqNum shape.queryLen (rowsOf INDEX_SIZE states)
        (rowsOf shape.queryLen keys) (rowsOf shape.queryLen news) seed updatePercent.toNat =
          some (out, expected) ∧
      (∀ r < shape.reqNum, ∀ k < INDEX_SIZE, rowsOf INDEX_SIZE states' r k = expected (r, k)) ∧
      ∀ a, shape.reqNum * INDEX_SIZE ≤ a → states' a = states a
  /-- The last selected position wins, and other entries stay. -/
  entries : ∀ states', UpdateStage launch keys news states states' →
    ∀ r < shape.reqNum, ∀ fuel ps, shape.queryLen ≤ fuel →
      updatePositions fuel shape.queryLen seed updatePercent.toNat r = some ps →
      (∀ pre p post, ps = pre ++ p :: post →
        (∀ p' ∈ post, rowsOf shape.queryLen keys r p' ≠ rowsOf shape.queryLen keys r p) →
        rowsOf INDEX_SIZE states' r (rowsOf shape.queryLen keys r p).toNat =
          rowsOf shape.queryLen news r p) ∧
      ∀ k < INDEX_SIZE, (∀ p ∈ ps, rowsOf shape.queryLen keys r p ≠ k) →
        rowsOf INDEX_SIZE states' r k = rowsOf INDEX_SIZE states r k

/-! ## The calls -/

section

variable {tableKeys tableStates queryKeys newStates : Tensor} {seed updatePercent blockDim : ℤ}
  {shape : LookupShape} {launch : Option UpdateLaunch}

/-- The launch, with the conversions to 32 bits carried out. -/
def exactUpdateLaunch (shape : LookupShape) (seed updatePercent blockDim : ℤ) : UpdateLaunch where
  blockDim := clampBlockDim (min blockDim shape.reqNum)
  reqNum := shape.reqNum
  queryLen := shape.queryLen
  seed := UInt32.ofNat (u32 seed)
  updatePercent := updatePercent.toNat

/-- Below the guard the launch has the numbers it should have, except for the count of
positions. -/
theorem updateLaunch_eq (hg : Guarded shape.reqNum shape.queryLen) (h0 : 0 ≤ updatePercent)
    (hpercent : updatePercent ≤ 100) :
    updateLaunch shape seed updatePercent blockDim =
      exactUpdateLaunch shape seed updatePercent blockDim := by
  have hlen := hg.queryLen_le
  have hreq := hg.reqNum_lt
  unfold updateLaunch exactUpdateLaunch
  rw [u32_natCast (show shape.queryLen < 2 ^ 32 by omega),
    u32_natCast (show shape.reqNum < 2 ^ 32 by omega), u32_of_nonneg h0 (by omega)]

/-- What a call comes to. -/
theorem UpdateCall.cases
    (h : UpdateCall tableKeys tableStates queryKeys newStates seed updatePercent blockDim shape
      launch) :
    Guarded shape.reqNum shape.queryLen ∧ 0 ≤ updatePercent ∧ updatePercent ≤ 100 ∧
      (launch = none ∧ (shape.queryLen = 0 ∨ updatePercent = 0) ∨
        launch = some (exactUpdateLaunch shape seed updatePercent blockDim)) := by
  cases h with
  | @lookupRandomUpdate call h =>
      unfold LookupUpdate.lookupRandomUpdate at h
      obtain ⟨shape, hshape, h⟩ := Folds.ok_of_bind h
      cases h
      obtain ⟨hg, h0, hpercent⟩ := checkArguments_ok hshape
      have hlen := hg.queryLen_le
      refine ⟨hg, h0, hpercent, ?_⟩
      dsimp only
      rw [u32_natCast (show shape.queryLen < 2 ^ 32 by omega), u32_of_nonneg h0 (by omega)]
      by_cases hpos : shape.queryLen > 0 ∧ true = true ∧ updatePercent.toNat > 0
      · exact Or.inr (by rw [if_pos hpos, updateLaunch_eq hg h0 hpercent])
      · exact Or.inl ⟨if_neg hpos, by simp only [true_and] at hpos; omega⟩
  | updateOnly h =>
      unfold LookupUpdate.updateOnly at h
      obtain ⟨shape', hshape, h⟩ := Folds.ok_of_bind h
      obtain ⟨hg, h0, hpercent⟩ := checkArguments_ok hshape
      by_cases hzero : shape'.queryLen = 0 ∨ updatePercent = 0
      · rw [if_pos hzero] at h
        cases h
        exact ⟨hg, h0, hpercent, Or.inl ⟨rfl, hzero⟩⟩
      · rw [if_neg hzero] at h
        cases h
        exact ⟨hg, h0, hpercent, Or.inr (by rw [updateLaunch_eq hg h0 hpercent])⟩

end

/-! ## The memory after a run

A launch is a list of stores, each request's in their order and those of different requests
interleaved. Requests write rows of their own, so the memory is that of writing one request after
the other. -/

section

variable {l : UpdateLaunch} {keys news : ℕ → ℤ} {rows positions : ℕ → List ℕ}
  {order : List (ℕ × ℕ × ℤ)}

/-- The stores of a request, without the wraps. -/
theorem requestStores_eq (hg : Guarded l.reqNum l.queryLen)
    (hkeys : KeysInTable l.reqNum l.queryLen keys) {r : ℕ} (hr : r < l.reqNum) {ps : List ℕ}
    (hps : ∀ p ∈ ps, p < l.queryLen) :
    requestStores l keys news r ps = ps.map fun p =>
      (r * INDEX_SIZE + (rowsOf l.queryLen keys r p).toNat, rowsOf l.queryLen news r p) := by
  unfold requestStores rowsOf
  refine List.map_congr_left fun p hp => ?_
  have hplace := row_lt hr (hps p hp)
  obtain ⟨h0, hsize⟩ := hkeys _ hplace
  have hquery := hplace.trans hg.queries_lt
  have htable := (row_lt hr ((Int.toNat_lt h0).mpr hsize)).trans hg.tables_lt
  have hindexBase : u32 (r * INDEX_SIZE : ℕ) = r * INDEX_SIZE :=
    u32_natCast (Nat.lt_of_le_of_lt (Nat.le_add_right _ _) htable)
  have hqueryBase : u32 (r * l.queryLen : ℕ) = r * l.queryLen :=
    u32_natCast (Nat.lt_of_le_of_lt (Nat.le_add_right _ _) hquery)
  have hkey := u32_of_nonneg h0 (hsize.trans (by decide))
  dsimp only
  rw [hindexBase, hqueryBase, u32_natCast hquery, hkey, u32_natCast htable]

/-- A request stores into its own row of the table. -/
theorem requestStores_row (hg : Guarded l.reqNum l.queryLen)
    (hkeys : KeysInTable l.reqNum l.queryLen keys) {r : ℕ} (hr : r < l.reqNum) {ps : List ℕ}
    (hps : ∀ p ∈ ps, p < l.queryLen) : ∀ w ∈ requestStores l keys news r ps, w.1 / INDEX_SIZE = r := by
  rw [requestStores_eq hg hkeys hr hps]
  intro w hw
  obtain ⟨p, hp, rfl⟩ := List.mem_map.mp hw
  obtain ⟨h0, hsize⟩ := hkeys _ (row_lt hr (hps p hp))
  exact (HbmIndex.div_mod_of_row ((Int.toNat_lt h0).mpr hsize)).1

/-- What a run leaves: each cell from the stores of its own request. -/
theorem UpdateRun.memory (hrun : UpdateRun l keys news rows positions order)
    (hg : Guarded l.reqNum l.queryLen) (hblock : 1 ≤ l.blockDim ∧ l.blockDim ≤ 64)
    (hkeys : KeysInTable l.reqNum l.queryLen keys) {fuel : ℕ} {ps : ℕ → List ℕ}
    (hdrawn : ∀ r < l.reqNum,
      kernelPositions fuel l.queryLen l.seed l.updatePercent r = some (ps r))
    (hlt : ∀ r < l.reqNum, ∀ p ∈ ps r, p < l.queryLen) (m : ℕ → ℤ) (a : ℕ) :
    writeAll (order.map Prod.snd) m a =
      if a / INDEX_SIZE < l.reqNum then
        writeAll (requestStores l keys news (a / INDEX_SIZE) (ps (a / INDEX_SIZE))) m a
      else m a := by
  have hreq := hg.reqNum_lt
  have hvisits := hrun.visits
  -- without positions no core visits any request
  by_cases hnum : kernelUpdateNum l.queryLen l.updatePercent = 0
  · rw [if_pos hnum] at hvisits
    have hnil : order.map Prod.snd = [] := by
      refine List.Perm.eq_nil (hrun.stores.perm.trans (List.Perm.of_eq ?_))
      simp [hvisits]
    have hps : ∀ r < l.reqNum, ps r = [] := by
      intro r hr
      have hlen := kernelPositions_length (hdrawn r hr)
      rw [hnum] at hlen
      exact List.length_eq_zero_iff.mp hlen
    rw [hnil]
    by_cases ha : a / INDEX_SIZE < l.reqNum
    · rw [if_pos ha, hps _ ha]
      rfl
    · rw [if_neg ha]
      rfl
  -- otherwise the cores visit the requests in strides, each request once
  · rw [if_neg hnum] at hvisits
    have hrows : ∀ c < l.blockDim, rows c = gridStride c l.reqNum l.blockDim := fun c hc =>
      hvisits.eq_gridStride (by omega) hc
    -- the positions of a visit are those that were drawn for the request
    have hrow : ∀ c < l.blockDim, ∀ r ∈ rows c, r < l.reqNum ∧ r % l.blockDim = c ∧ positions r = ps r := by
      intro c hc r hr
      have hmem := (mem_gridStride hc).mp (hrows c hc ▸ hr)
      obtain ⟨fuel', hfuel'⟩ := hrun.drawn c hc r hr
      exact ⟨hmem.1, hmem.2, kernelPositions_unique hfuel' (hdrawn r hmem.1)⟩
    -- all stores of a request go to its own row
    have howner : ∀ c < l.blockDim, ∀ r ∈ rows c,
        ∀ w ∈ requestStores l keys news r (positions r), w.1 / INDEX_SIZE = r := by
      intro c hc r hr
      obtain ⟨hr', -, hpos⟩ := hrow c hc r hr
      rw [hpos]
      exact requestStores_row hg hkeys hr' (hlt r hr')
    have hcore : a / INDEX_SIZE % l.blockDim < l.blockDim := Nat.mod_lt _ (by omega)
    -- so every cell has one core that writes it: the core of its row
    have howner' : ∀ c < l.blockDim, ∀ w ∈ (rows c).flatMap fun r =>
        requestStores l keys news r (positions r), w.1 / INDEX_SIZE % l.blockDim = c := by
      intro c hc w hw
      obtain ⟨r, hr, hw⟩ := List.mem_flatMap.mp hw
      rw [howner c hc r hr w hw]
      exact (hrow c hc r hr).2.1
    rw [hrun.stores.writeAll_eq (fun a => a / INDEX_SIZE % l.blockDim) howner', if_pos hcore,
      writeAll_flatMap (fun a => a / INDEX_SIZE)
        (by rw [hrows _ hcore]; exact gridStride_nodup (by omega)) (howner _ hcore)]
    -- of the stores of that core only those of the row count
    by_cases ha : a / INDEX_SIZE < l.reqNum
    · have hmem : a / INDEX_SIZE ∈ rows (a / INDEX_SIZE % l.blockDim) := by
        rw [hrows _ hcore]
        exact (mem_gridStride hcore).mpr ⟨ha, rfl⟩
      rw [if_pos ha, if_pos hmem, (hrow _ hcore _ hmem).2.2]
    · rw [if_neg ha, if_neg]
      intro hmem
      exact ha (hrow _ hcore _ hmem).1

/-- There are runs. -/
theorem exists_updateRun (hg : Guarded l.reqNum l.queryLen)
    (hblock : 1 ≤ l.blockDim ∧ l.blockDim ≤ 64) (keys news : ℕ → ℤ) {fuel : ℕ} {ps : ℕ → List ℕ}
    (hdrawn : ∀ r < l.reqNum,
      kernelPositions fuel l.queryLen l.seed l.updatePercent r = some (ps r)) :
    ∃ rows order, UpdateRun l keys news rows ps order := by
  have hreq := hg.reqNum_lt
  by_cases hnum : kernelUpdateNum l.queryLen l.updatePercent = 0
  · refine ⟨fun _ => [], _, ?_, fun c _ r hr => (nomatch hr), interleaves_sequential _ _⟩
    rw [if_pos hnum]
    exact fun _ => rfl
  · refine ⟨fun c => gridStride c l.reqNum l.blockDim, _, ?_, ?_, interleaves_sequential _ _⟩
    · rw [if_neg hnum]
      exact visits_gridStride hblock.1 (by omega)
    · intro c hc r hr
      exact ⟨fuel, hdrawn r ((mem_gridStride hc).mp hr).1⟩

end

/-! ## The table of the reference -/

section

variable {fuel n queryLen percent : ℕ} {seed : ℤ} {table query new : ℕ → ℕ → ℤ} {ps : ℕ → List ℕ}

/-- The reference, with the positions of every request at hand. -/
theorem expectedLookupUpdate_eq
    (hps : ∀ r < n, updatePositions fuel queryLen seed percent r = some (ps r)) :
    expectedLookupUpdate fuel n queryLen table query new seed percent =
      some (fun r i => table r (query r i).toNat,
        writeAll ((List.range n).flatMap fun r => expectedStores query new r (ps r))
          fun c => table c.1 c.2) := by
  have hloop : (List.range n).foldlM (fun (states : ℕ × ℕ → ℤ) r => do
      let positions ← updatePositions fuel queryLen seed percent r
      return writeAll (expectedStores query new r positions) states) (fun c => table c.1 c.2) =
      some (writeAll ((List.range n).flatMap fun r => expectedStores query new r (ps r))
        fun c => table c.1 c.2) := by
    induction n with
    | zero => rfl
    | succ n ih =>
        rw [List.range_succ, List.foldlM_append, ih fun r hr => hps r (by omega),
          List.flatMap_append, writeAll_append, List.flatMap_singleton]
        simp [hps n (Nat.lt_succ_self n)]
  unfold expectedLookupUpdate
  rw [hloop]
  rfl

/-- An entry of the expected table, from the stores of its row. -/
theorem expected_row {r k : ℕ} (hr : r < n) :
    writeAll ((List.range n).flatMap fun r => expectedStores query new r (ps r))
        (fun c => table c.1 c.2) (r, k) =
      writeAll ((ps r).map fun p => ((query r p).toNat, new r p)) (table r) k := by
  have hrow : ∀ r ∈ List.range n, ∀ w ∈ expectedStores query new r (ps r), w.1.1 = r := by
    intro r _ w hw
    obtain ⟨p, -, rfl⟩ := List.mem_map.mp hw
    rfl
  rw [writeAll_flatMap Prod.fst List.nodup_range hrow, if_pos (List.mem_range.mpr hr)]
  have hmap := writeAll_map (Prod.mk_right_injective r)
    ((ps r).map fun p => ((query r p).toNat, new r p)) (fun c => table c.1 c.2) k
  rw [List.map_map] at hmap
  exact hmap

end

/-! ## The update that was asked for -/

section

variable {tableKeys tableStates queryKeys newStates : Tensor} {seed updatePercent blockDim : ℤ}
  {shape : LookupShape} {launch : Option UpdateLaunch} {keys news states states' : ℕ → ℤ}

/-- What a call does, up to the wrap: the rows from the positions of the reference. -/
theorem UpdateCall.stage
    (hcall : UpdateCall tableKeys tableStates queryKeys newStates seed updatePercent blockDim shape
      launch)
    (hkeys : KeysInTable shape.reqNum shape.queryLen keys)
    (hwrap : shape.queryLen * updatePercent.toNat < 2 ^ 32) {fuel : ℕ}
    (hfuel : shape.queryLen ≤ fuel) {ps : ℕ → List ℕ}
    (hps : ∀ r < shape.reqNum,
      updatePositions fuel shape.queryLen seed updatePercent.toNat r = some (ps r))
    (hlt : ∀ r < shape.reqNum, ∀ p ∈ ps r, p < shape.queryLen) :
    (∀ r < shape.reqNum, launchPositions fuel launch r = some (ps r)) ∧
    (∃ states', UpdateStage launch keys news states states') ∧
    ∀ states', UpdateStage launch keys news states states' →
      (∀ r < shape.reqNum, ∀ k < INDEX_SIZE, rowsOf INDEX_SIZE states' r k =
        writeAll ((ps r).map fun p => ((rowsOf shape.queryLen keys r p).toNat,
          rowsOf shape.queryLen news r p)) (rowsOf INDEX_SIZE states r) k) ∧
      ∀ a, shape.reqNum * INDEX_SIZE ≤ a → states' a = states a := by
  -- a call that returns has checked its arguments, and has launched with these numbers
  obtain ⟨hg, h0, hpercent, hlaunch⟩ := hcall.cases
  have hreq := hg.reqNum_lt
  have hlen := hg.queryLen_le
  rcases hlaunch with ⟨rfl, hzero⟩ | rfl
  · -- nothing is launched, and there is nothing to update
    have hnil : ∀ r < shape.reqNum, ps r = [] := by
      intro r hr
      have hr' := hps r hr
      have hnum : shape.queryLen * updatePercent.toNat / 100 ≤ 0 := by
        rcases hzero with h | h <;> simp [h]
      unfold updatePositions at hr'
      rw [if_pos hnum] at hr'
      exact (Option.some.inj hr').symm
    refine ⟨fun r hr => by rw [hnil r hr]; rfl, ⟨states, rfl⟩, ?_⟩
    rintro states' rfl
    exact ⟨fun r hr k _ => by rw [hnil r hr]; rfl, fun a _ => rfl⟩
  -- the positions of the kernel are those of the reference, as its product does not wrap
  · have hdrawn : ∀ r < shape.reqNum, kernelPositions fuel shape.queryLen
        (UInt32.ofNat (u32 seed)) updatePercent.toNat r = some (ps r) := by
      intro r hr
      rw [kernelPositions_eq hfuel (by omega) (by omega) hwrap (by omega)]
      exact hps r hr
    have hblock := clampBlockDim_mem (min blockDim shape.reqNum)
    refine ⟨hdrawn, ?_, ?_⟩
    -- a run exists: the requests in order, core by core
    · obtain ⟨rows, order, hrun⟩ := @exists_updateRun
        (exactUpdateLaunch shape seed updatePercent blockDim) hg hblock keys news fuel ps hdrawn
      exact ⟨_, rows, ps, order, hrun, rfl⟩
    · rintro states' ⟨rows, positions, order, hrun, rfl⟩
      -- a row of the table is written by its own request alone
      have hmem : ∀ a, writeAll (order.map Prod.snd) states a =
          if a / INDEX_SIZE < shape.reqNum then
            writeAll (requestStores (exactUpdateLaunch shape seed updatePercent blockDim) keys news
              (a / INDEX_SIZE) (ps (a / INDEX_SIZE))) states a
          else states a := hrun.memory hg hblock hkeys hdrawn hlt states
      -- inside the rows of the requests, and behind them
      constructor
      · intro r hr k hk
        obtain ⟨hdiv, -⟩ := HbmIndex.div_mod_of_row (r := r) hk
        have hstores := @requestStores_eq (exactUpdateLaunch shape seed updatePercent blockDim)
          keys news hg hkeys r hr (ps r) (hlt r hr)
        -- the stores of a request are the updates of its row, moved to the base of the row
        have hmap := writeAll_map (f := fun k => r * INDEX_SIZE + k)
          (fun _ _ h => Nat.add_left_cancel h)
          ((ps r).map fun p => ((rowsOf shape.queryLen keys r p).toNat,
            rowsOf shape.queryLen news r p)) states k
        unfold rowsOf at hmap ⊢
        rw [hmem, hdiv, if_pos hr, hstores, ← hmap, List.map_map]
        rfl
      · intro a ha
        rw [hmem, if_neg]
        rw [Nat.not_lt]
        exact (Nat.le_div_iff_mul_le (by decide)).mpr ha

/-- Up to `2 ^ 32`, a call does what the reference does. -/
theorem UpdateCall.as_expected
    (hcall : UpdateCall tableKeys tableStates queryKeys newStates seed updatePercent blockDim shape
      launch)
    (hkeys : KeysInTable shape.reqNum shape.queryLen keys)
    (hwrap : shape.queryLen * updatePercent.toNat < 2 ^ 32) :
    UpdatesAsExpected shape launch seed updatePercent keys news states := by
  obtain ⟨hg, h0, hpercent, -⟩ := hcall.cases
  -- the positions of each request are distinct and below the length, for enough fuel
  have hspec : ∀ fuel, shape.queryLen ≤ fuel → ∀ r, ∃ ps,
      updatePositions fuel shape.queryLen seed updatePercent.toNat r = some ps ∧ ps.Nodup ∧
      ps.length = shape.queryLen * updatePercent.toNat / 100 ∧ ∀ p ∈ ps, p < shape.queryLen :=
    fun fuel hfuel r => updatePositions_spec hfuel (by omega) seed r
  -- what the call does with given positions is `stage`
  have hstage : ∀ fuel, shape.queryLen ≤ fuel → ∀ ps : ℕ → List ℕ,
      (∀ r < shape.reqNum,
        updatePositions fuel shape.queryLen seed updatePercent.toNat r = some (ps r)) →
      (∀ r < shape.reqNum, ∀ p ∈ ps r, p < shape.queryLen) → _ := fun fuel hfuel ps hps hlt =>
    @UpdateCall.stage _ _ _ _ _ _ _ _ _ keys news states hcall hkeys hwrap fuel hfuel ps hps hlt
  constructor
  -- the cores pick the positions that the reference picks
  · intro r hr fuel hfuel
    choose ps hps hnodup hlength hlt using hspec fuel hfuel
    exact ⟨ps r, (hstage fuel hfuel ps (fun r _ => hps r) fun r _ => hlt r).1 r hr, hps r, hnodup r,
      hlength r, hlt r⟩
  -- such a run exists
  · choose ps hps hnodup hlength hlt using hspec shape.queryLen le_rfl
    exact (hstage _ le_rfl ps (fun r _ => hps r) fun r _ => hlt r).2.1
  -- the table it leaves is that of the reference
  · intro states' hrun fuel hfuel
    choose ps hps hnodup hlength hlt using hspec fuel hfuel
    obtain ⟨htable, hrest⟩ := (hstage fuel hfuel ps (fun r _ => hps r) fun r _ => hlt r).2.2 _ hrun
    refine ⟨_, _, expectedLookupUpdate_eq fun r _ => hps r, fun r hr k hk => ?_, hrest⟩
    rw [htable r hr k hk, expected_row hr]
  -- entry by entry: the last position that names an entry has written it
  · intro states' hrun r hr fuel ps' hfuel hps'
    choose ps hps hnodup hlength hlt using hspec fuel hfuel
    obtain ⟨htable, -⟩ := (hstage fuel hfuel ps (fun r _ => hps r) fun r _ => hlt r).2.2 _ hrun
    obtain rfl : ps r = ps' := Option.some.inj ((hps r).symm.trans hps')
    have hrange : ∀ p ∈ ps r, 0 ≤ rowsOf shape.queryLen keys r p ∧
        rowsOf shape.queryLen keys r p < INDEX_SIZE := fun p hp => hkeys _ (row_lt hr (hlt r p hp))
    constructor
    · intro pre p post hsplit hlast
      have hin : ∀ p' ∈ pre ++ p :: post, p' ∈ ps r := fun p' hp' => hsplit ▸ hp'
      obtain ⟨hp0, hpsize⟩ := hrange p (hin p (by simp))
      rw [htable r hr _ ((Int.toNat_lt hp0).mpr hpsize), hsplit, List.map_append, List.map_cons]
      refine writeAll_last _ _ ?_ _
      -- no later position of the request names the same entry
      intro w hw heq
      obtain ⟨p', hp', rfl⟩ := List.mem_map.mp hw
      have hp0' := (hrange p' (hin p' (by simp [hp']))).1
      exact hlast p' hp' (by dsimp only at heq; omega)
    -- and what no position names is as it was
    · intro k hk hother
      rw [htable r hr k hk]
      refine writeAll_untouched ?_
      intro w hw heq
      obtain ⟨p, hp, rfl⟩ := List.mem_map.mp hw
      have hp0 := (hrange p hp).1
      exact hother p hp (by dsimp only at heq; omega)

/-- Beyond, it leaves positions out. -/
theorem UpdateCall.left_out
    (hcall : UpdateCall tableKeys tableStates queryKeys newStates seed updatePercent blockDim shape
      launch)
    (hwrap : 2 ^ 32 ≤ shape.queryLen * updatePercent.toNat) :
    ¬ UpdatesAsExpected shape launch seed updatePercent keys news states := by
  intro h
  obtain ⟨hg, -, -, hlaunch⟩ := hcall.cases
  obtain ⟨ps, hps, -, -, hlength, -⟩ := h.positions 0 hg.req_pos shape.queryLen le_rfl
  rcases hlaunch with ⟨rfl, hzero⟩ | rfl
  · rcases hzero with h | h <;> simp [h] at hwrap
  · have hcount := kernelUpdateNum_lt hwrap
    have hkernel := kernelPositions_length (show kernelPositions shape.queryLen shape.queryLen
      (UInt32.ofNat (u32 seed)) updatePercent.toNat 0 = some ps from hps)
    omega

/-- **The random update.** A call that passes the checks, with keys of the table, rewrites
the entries that the reference rewrites, on every number of cores and in every order of
their stores, if and only if `query_len * update_percent < 2 ^ 32`. -/
theorem updates_as_expected_iff
    (hcall : UpdateCall tableKeys tableStates queryKeys newStates seed updatePercent blockDim shape
      launch)
    (hkeys : KeysInTable shape.reqNum shape.queryLen keys) (news states : ℕ → ℤ) :
    UpdatesAsExpected shape launch seed updatePercent keys news states ↔
      shape.queryLen * updatePercent < 2 ^ 32 := by
  obtain ⟨-, h0, -, -⟩ := hcall.cases
  have hcast : shape.queryLen * updatePercent = (shape.queryLen * updatePercent.toNat : ℕ) := by
    rw [Nat.cast_mul, Int.toNat_of_nonneg h0]
  constructor
  · intro h
    by_contra hwrap
    exact hcall.left_out (by omega) h
  · intro hwrap
    exact hcall.as_expected hkeys (by omega)

/-- Seven percent of 513 queries, all of them for token 5. -/
theorem updates_as_expected_513 :
    UpdatesAsExpected ⟨4, 513, false⟩ (some ⟨4, 4, 513, 2026, 7⟩) 2026 7 (fun _ => 5)
      (fun a => a) (fun _ => 0) := by
  have hcall : UpdateCall ⟨true, .PrivateUse1, .kInt, true, [4, 131072]⟩
      ⟨true, .PrivateUse1, .kInt, true, [4, 131072]⟩ ⟨true, .PrivateUse1, .kInt, true, [4, 513]⟩
      ⟨true, .PrivateUse1, .kInt, true, [4, 513]⟩ 2026 7 8 ⟨4, 513, false⟩
      (some ⟨4, 4, 513, 2026, 7⟩) := UpdateCall.updateOnly rfl
  exact (updates_as_expected_iff hcall (fun _ _ => (by decide : (0 : ℤ) ≤ 5 ∧ (5 : ℤ) < 131072))
    (fun a => a) fun _ => 0).mpr (by decide)

/-- All of 42949673 queries: `42949673 * 100` is 4 in 32 bits, and nothing is updated. -/
theorem updates_left_out : ¬ ∀ (tableKeys tableStates queryKeys newStates : Tensor)
    (seed updatePercent blockDim : ℤ) (shape : LookupShape) (launch : Option UpdateLaunch)
    (keys news states : ℕ → ℤ),
    UpdateCall tableKeys tableStates queryKeys newStates seed updatePercent blockDim shape launch →
    KeysInTable shape.reqNum shape.queryLen keys →
    UpdatesAsExpected shape launch seed updatePercent keys news states := by
  intro h
  have hcall : UpdateCall ⟨true, .PrivateUse1, .kInt, true, [131072]⟩
      ⟨true, .PrivateUse1, .kInt, true, [131072]⟩ ⟨true, .PrivateUse1, .kInt, true, [42949673]⟩
      ⟨true, .PrivateUse1, .kInt, true, [42949673]⟩ 0 100 8 ⟨1, 42949673, true⟩
      (some ⟨1, 1, 42949673, 0, 100⟩) := UpdateCall.updateOnly rfl
  exact hcall.left_out (by decide) (h _ _ _ _ _ _ _ _ _ (fun _ => 0) (fun _ => 1) (fun _ => 0)
    hcall fun _ _ => (by decide : (0 : ℤ) ≤ 0 ∧ (0 : ℤ) < 131072))

end

end AsuAscend.LookupUpdate
