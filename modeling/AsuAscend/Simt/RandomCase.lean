/-
`pta-ops/asu_hbm_index_lookup_simt/python/random_workload.py` and the validation of the
operator on its workloads (`scripts/lookup_simt_common.py`, `scripts/validate_lookup_simt.py`).

A case has the same state for every request (slot `i` holds token `i`) and for each a row
of distinct tokens, `hit_count` of them resident, in random order. `PyRandom` is Python's
`random.Random`: any functions that keep to what the library documents, so that
`validation_passes` is about every stream of draws, as it is about every interleaving of
the launch.

## Which draws

`sample` is asked for no more than a list of the right length that takes each element at most once,
`shuffle` for a permutation; `seeded` may make any state of a seed. Two requests of a case never
share a seed (`rowSeed_injective`): the request's number is multiplied by an odd constant modulo
`2 ^ 64`, and what is mixed in besides is the same for all requests of the case.

A row has `hit_count` tokens below `SLOT_COUNT`, which are the resident ones: so the expected mask
can be read off the row, and the number of its misses is known.
-/
import AsuAscend.Lib.Folds
import AsuAscend.Simt.Launch
import Mathlib.Data.List.Perm.Subperm
import Mathlib.Data.List.Range
import Mathlib.Data.Nat.Bitwise
import Mathlib.Data.Nat.ModEq

set_option autoImplicit false

open BarrierThreads MachineWords SentinelTable AsuAscend.Lookup

namespace AsuAscend.Simt

/-! ## The cases -/

structure RandomLookupCase where
  token_to_slot : List (List ℤ)
  slot_to_token : List (List ℤ)
  lru_slots : List (List ℤ)
  query_token_ids : List (List ℤ)
  hit_count : ℤ
  miss_count : ℤ

/-- `random.Random`, with states `ρ`. -/
structure PyRandom (ρ : Type) where
  seeded : ℕ → ρ
  sample : List ℕ → ℕ → ρ → List ℕ × ρ
  shuffle : List ℕ → ρ → List ℕ × ρ
  sample_length : ∀ population k s, k ≤ population.length → (sample population k s).1.length = k
  sample_subperm : ∀ population k s, k ≤ population.length →
    (sample population k s).1.Subperm population
  shuffle_perm : ∀ xs s, (shuffle xs s).1.Perm xs

def validateHitCount (d : Sizes) (hit_count : ℤ) : Except String Unit :=
  if hit_count < 0 ∨ hit_count > d.QUERY_COUNT then
    .error s!"hit_count must be in [0, {d.QUERY_COUNT}]; got {hit_count}"
  else .ok ()

/-- Mix user seed, round id, and request id into a stable Python RNG seed. -/
def rowSeed (seed : ℤ) (case_id req_id : ℕ) : ℕ :=
  u64 ((u64 seed ^^^ ((case_id + 1) * 0x9E3779B185EBCA87)) ^^^
    ((req_id + 1) * 0xC2B2AE3D27D4EB4F) : ℕ)

section Cases

variable (d : Sizes) {ρ : Type} (rng : PyRandom ρ)

def sampled (population : List ℕ) (k : ℤ) (s : ρ) : Except String (List ℕ × ρ) :=
  if 0 ≤ k ∧ k ≤ population.length then .ok (rng.sample population k.toNat s)
  else .error "Sample larger than population or is negative"

/-- Build one unique 2K query with exact hits and randomly placed misses. -/
def makeRandomQueryRow (hit_count seed : ℤ) (case_id req_id : ℕ) : Except String (List ℕ) := do
  validateHitCount d hit_count
  let s := rng.seeded (rowSeed seed case_id req_id)
  let miss_count := d.QUERY_COUNT - hit_count
  let (hits, s) ← sampled rng (List.range d.SLOT_COUNT) hit_count s
  let (misses, s) ← sampled rng (List.range' d.SLOT_COUNT (d.INDEX_SIZE - d.SLOT_COUNT)) miss_count s
  return (rng.shuffle (hits ++ misses) s).1

/-- The row `token_to_slot[req_id]`: minus one, and then the slots of the resident tokens. -/
def residentTokenToSlot : List ℤ :=
  (List.range d.INDEX_SIZE).map fun t => if t < d.SLOT_COUNT then (t : ℤ) else NOT_FOUND

/-- `np.arange(SLOT_COUNT)` -/
def residentSlots : List ℤ := (List.range d.SLOT_COUNT).map Int.ofNat

/-- Create a full-resident state and randomized exact-hit-count queries. -/
def makeRandomCase (req_num hit_count seed : ℤ) (case_id : ℕ) : Except String RandomLookupCase :=
  if req_num ≤ 0 then .error "req_num must be positive"
  else do
    validateHitCount d hit_count
    let rows ← (List.range req_num.toNat).mapM (makeRandomQueryRow d rng hit_count seed case_id)
    return {
      token_to_slot := List.replicate req_num.toNat (residentTokenToSlot d)
      slot_to_token := List.replicate req_num.toNat (residentSlots d)
      lru_slots := List.replicate req_num.toNat (residentSlots d)
      query_token_ids := rows.map fun row => row.map Int.ofNat
      hit_count := hit_count
      miss_count := d.QUERY_COUNT - hit_count }

end Cases

/-! ## `lookup_simt_common.py` -/

/-- A row of a two-dimensional array. -/
def rowOf (xs : List (List ℤ)) (r : ℕ) : List ℤ := xs.getD r []

/-- The `LookupState` of a request. -/
def RandomLookupCase.state (case : RandomLookupCase) (req_id : ℕ) : LookupState where
  token_to_slot := rowOf case.token_to_slot req_id
  slot_to_token := rowOf case.slot_to_token req_id
  lru_slots := rowOf case.lru_slots req_id

/-- The five expected arrays, request by request. -/
def expectedResult (case : RandomLookupCase) : Except Raised (List (Outputs × LookupState)) :=
  (List.range case.query_token_ids.length).mapM fun req_id =>
    lookup_allocate_evict (rowOf case.query_token_ids req_id) (case.state req_id)

/-- `to_npu_state`; `torch.empty` leaves whatever `empty` says. -/
def toNpuState (d : Sizes) (case : RandomLookupCase) (empty : Mem Address ℤ) : Mem Address ℤ :=
  let element (xs : List (List ℤ)) (g : Address) : Option ℤ :=
    some (read (rowOf xs (g.2 / g.1.stride d)) (g.2 % g.1.stride d))
  fun g => match g.1 with
    | .token_to_slot => element case.token_to_slot g
    | .slot_to_token => element case.slot_to_token g
    | .lru_slots => element case.lru_slots g
    | .query_token_ids => element case.query_token_ids g
    | .slot_ids => empty g
    | .miss_mask => empty g
    | .workspace => empty g

/-- `assert_runtime_result` raises nothing. -/
def RuntimeResultOk (d : Sizes) (m : Mem Address ℤ) (results : List (Outputs × LookupState)) : Prop :=
  ∀ r (hr : r < results.length), arrays d (requestView d r m) = expected results[r]

/-! ## Seeds -/

/-- **Rows of a case have different seeds.** -/
theorem rowSeed_injective (seed : ℤ) (case_id : ℕ) {r r' : ℕ} (hr : r < 2 ^ 64) (hr' : r' < 2 ^ 64)
    (h : rowSeed seed case_id r = rowSeed seed case_id r') : r = r' := by
  have hmod : ∀ n : ℕ, u64 (n : ℤ) = n % 2 ^ 64 := by
    intro n
    unfold u64
    omega
  unfold rowSeed at h
  simp only [hmod, Nat.xor_mod_two_pow] at h
  have hprod := Nat.xor_right_injective h
  -- the factor is odd
  have hcancel : r + 1 ≡ r' + 1 [MOD 2 ^ 64] :=
    Nat.ModEq.cancel_right_of_coprime (by decide) hprod
  have hsame := Nat.ModEq.add_right_cancel' 1 hcancel
  rw [Nat.ModEq, Nat.mod_eq_of_lt hr, Nat.mod_eq_of_lt hr'] at hsame
  exact hsame

/-! ## One row -/

section

variable {d : Sizes} {ρ : Type} {hit_count : ℤ}

/-- A query row with `hit_count` tokens below `SLOT_COUNT`. -/
structure RowSpec (d : Sizes) (hit_count : ℤ) (row : List ℕ) : Prop where
  length : row.length = d.QUERY_COUNT
  nodup : row.Nodup
  lt : ∀ t ∈ row, t < d.INDEX_SIZE
  misses : (row.countP (d.SLOT_COUNT ≤ ·) : ℤ) = d.QUERY_COUNT - hit_count

/-- A sample of no more than there is does not raise. -/
theorem sampled_ok (rng : PyRandom ρ) (population : List ℕ) {k : ℤ} (h0 : 0 ≤ k)
    (hk : k ≤ population.length) (s : ρ) :
    ∃ xs s', sampled rng population k s = .ok (xs, s') ∧ (xs.length : ℤ) = k ∧
      xs.Subperm population := by
  refine ⟨_, _, if_pos ⟨h0, hk⟩, ?_, rng.sample_subperm _ _ _ (by omega)⟩
  rw [rng.sample_length _ _ _ (by omega)]
  omega

/-- A row of a case is made without an exception, with as many hits as asked for. -/
theorem makeRandomQueryRow_ok (rng : PyRandom ρ) (seed : ℤ) (case_id : ℕ) (hslot : d.QUERY_COUNT ≤ d.SLOT_COUNT)
    (hindex : d.SLOT_COUNT + d.QUERY_COUNT ≤ d.INDEX_SIZE) (h0 : 0 ≤ hit_count)
    (h1 : hit_count ≤ d.QUERY_COUNT) (req_id : ℕ) :
    ∃ row, makeRandomQueryRow d rng hit_count seed case_id req_id = .ok row ∧
      RowSpec d hit_count row := by
  obtain ⟨hits, s, hrun, hlen, hsub⟩ := sampled_ok rng (List.range d.SLOT_COUNT) h0
    (by rw [List.length_range]; omega) (rng.seeded (rowSeed seed case_id req_id))
  have hmisses : (0 : ℤ) ≤ d.QUERY_COUNT - hit_count := by omega
  obtain ⟨misses, s', hrun', hlen', hsub'⟩ := sampled_ok rng
    (List.range' d.SLOT_COUNT (d.INDEX_SIZE - d.SLOT_COUNT)) hmisses
    (by rw [List.length_range']; omega) s
  have hperm := rng.shuffle_perm (hits ++ misses) s'
  -- the two samples are of different tokens
  have hhit : ∀ t ∈ hits, t < d.SLOT_COUNT := fun t ht => List.mem_range.mp (hsub.subset ht)
  have hmiss : ∀ t ∈ misses, d.SLOT_COUNT ≤ t ∧ t < d.INDEX_SIZE := by
    intro t ht
    have := List.mem_range'_1.mp (hsub'.subset ht)
    omega
  refine ⟨(rng.shuffle (hits ++ misses) s').1, ?_, ?_, ?_, ?_, ?_⟩
  · unfold makeRandomQueryRow validateHitCount
    rw [if_neg (by omega)]
    simp only [bind, Except.bind, pure, Except.pure, hrun, hrun']
  · rw [hperm.length_eq, List.length_append]
    omega
  · rw [hperm.nodup_iff, List.nodup_append]
    obtain ⟨_, hp, hs⟩ := hsub
    obtain ⟨_, hp', hs'⟩ := hsub'
    refine ⟨hp.nodup_iff.mp (hs.nodup List.nodup_range),
      hp'.nodup_iff.mp (hs'.nodup List.nodup_range'), fun t ht u hu heq => ?_⟩
    have := hhit t ht
    have := hmiss u hu
    omega
  · intro t ht
    rcases List.mem_append.mp (hperm.mem_iff.mp ht) with h | h
    · have := hhit t h
      omega
    · exact (hmiss t h).2
  · have hnone : hits.countP (d.SLOT_COUNT ≤ ·) = 0 := by
      rw [List.countP_eq_zero]
      intro t ht
      have := hhit t ht
      simp only [decide_eq_true_eq]
      omega
    have hall : misses.countP (d.SLOT_COUNT ≤ ·) = misses.length := by
      rw [List.countP_eq_length]
      intro t ht
      simp only [decide_eq_true_eq]
      exact (hmiss t ht).1
    rw [hperm.countP_eq, List.countP_append, hnone, hall, Nat.zero_add]
    exact hlen'

/-! ## The state -/

/-- Slot `i` holds token `i`. -/
def residentState (d : Sizes) : LookupState where
  token_to_slot := residentTokenToSlot d
  slot_to_token := residentSlots d
  lru_slots := residentSlots d

/-- In the state of a case the first tokens are resident, each in its own slot. -/
theorem read_residentTokenToSlot {t : ℕ} (ht : t < d.INDEX_SIZE) :
    read (residentTokenToSlot d) t = if t < d.SLOT_COUNT then (t : ℤ) else NOT_FOUND := by
  unfold residentTokenToSlot
  rw [read_of_lt (by simpa using ht), List.getElem_map, List.getElem_range]

theorem read_residentSlots {v : ℕ} (hv : v < d.SLOT_COUNT) : read (residentSlots d) v = v := by
  unfold residentSlots
  rw [read_of_lt (by simpa using hv), List.getElem_map, List.getElem_range]
  rfl

/-- The state of a case is in order. -/
theorem residentState_wf (hindex : d.SLOT_COUNT ≤ d.INDEX_SIZE) : Wf (residentState d) where
  perm := by
    unfold residentState residentSlots
    rw [List.length_map, List.length_range]
  inverse := by
    unfold residentState
    constructor
    · intro t ht
      have ht' : t < d.INDEX_SIZE := by simpa [residentTokenToSlot] using ht
      rw [read_residentTokenToSlot ht']
      split_ifs with hlt
      · exact Or.inr ⟨t, by simpa [residentSlots] using hlt, rfl, read_residentSlots hlt⟩
      · exact Or.inl rfl
    · intro v hv
      have hv' : v < d.SLOT_COUNT := by simpa [residentSlots] using hv
      refine Or.inr ⟨v, by simp [residentTokenToSlot]; omega, read_residentSlots hv', ?_⟩
      rw [read_residentTokenToSlot (by omega), if_pos hv']

theorem residentState_missing {t : ℕ} (ht : t < d.INDEX_SIZE) :
    Missing (residentState d) t ↔ d.SLOT_COUNT ≤ t := by
  have hin : InRange (residentState d) t :=
    ⟨Int.natCast_nonneg t, by simpa [residentState, residentTokenToSlot] using ht⟩
  unfold Missing
  rw [Int.toNat_natCast]
  show _ ∧ read (residentTokenToSlot d) t = -1 ↔ _
  rw [read_residentTokenToSlot ht]
  by_cases hlt : t < d.SLOT_COUNT
  · rw [if_pos hlt]
    exact ⟨fun h => by have := h.2; omega, fun h => absurd hlt (not_lt.mpr h)⟩
  · rw [if_neg hlt]
    exact ⟨fun _ => not_lt.mp hlt, fun _ => ⟨hin, rfl⟩⟩

variable {row : List ℕ}

/-- A row of a case is a request that the kernel can serve. -/
theorem RowSpec.request (h : RowSpec d hit_count row) (hfits : d.Fits)
    (hindex : d.SLOT_COUNT ≤ d.INDEX_SIZE) : Request d (residentState d) (row.map Int.ofNat) where
  fits := hfits
  wf := residentState_wf hindex
  fwd_length := by simp [residentState, residentTokenToSlot]
  bwd_length := by simp [residentState, residentSlots]
  query_length := by rw [List.length_map, h.length]

/-- Its missing tokens are distinct, as the test needs them to be: then no race is decided by
the schedule. -/
theorem RowSpec.missesDistinct (h : RowSpec d hit_count row) :
    MissesDistinct (residentState d) (row.map Int.ofNat) := by
  intro t _ p q hp hq
  have hnd : (row.map Int.ofNat).Nodup := h.nodup.map fun _ _ => Int.ofNat.inj
  obtain ⟨hplt, hpt⟩ := List.getElem?_eq_some_iff.mp hp
  obtain ⟨hqlt, hqt⟩ := List.getElem?_eq_some_iff.mp hq
  exact (hnd.getElem_inj_iff).mp (hpt.trans hqt.symm)

/-- The mask of a call on the row: the tokens that are not resident. -/
theorem RowSpec.mask_eq (h : RowSpec d hit_count row) (hindex : d.SLOT_COUNT ≤ d.INDEX_SIZE)
    {out : Outputs} {s' : LookupState}
    (hcall : lookup_allocate_evict (row.map Int.ofNat) (residentState d) = .ok (out, s')) :
    out.miss_mask = row.map fun t => decide (d.SLOT_COUNT ≤ t) := by
  obtain ⟨c, hc, _, hspec⟩ := lookup_ok (residentState_wf hindex) hcall
  have hlen : out.miss_mask.length = row.length := by
    rw [hspec.mask, hc.mask_length, List.length_map]
  refine List.ext_getElem (by rw [hlen, List.length_map]) fun p h1 h2 => ?_
  have hp : p < row.length := by omega
  have hget : (row.map Int.ofNat)[p]? = some ((row[p] : ℕ) : ℤ) := by
    rw [List.getElem?_map, List.getElem?_eq_getElem hp]
    rfl
  have hmiss := residentState_missing (h.lt _ (List.getElem_mem hp))
  rw [List.getElem_map, Bool.eq_iff_iff, decide_eq_true_eq, ← hmiss,
    ← List.getD_eq_getElem _ false h1, hspec.mask_iff hc]
  constructor
  · rintro ⟨t, ht⟩
    have hpos := hc.miss_pos _ ht
    dsimp only at hpos
    rw [hget] at hpos
    rw [Option.some.inj hpos]
    exact ((hc.miss_iff t).mp (List.mem_map_of_mem ht)).2
  · intro hm
    obtain ⟨⟨p', t⟩, hmem, rfl⟩ := List.mem_map.mp
      ((hc.miss_iff _).mpr ⟨List.mem_of_getElem? hget, hm⟩)
    -- no token stands twice in the row
    have hpp : p' = p := h.missesDistinct _ hm p' p (hc.miss_pos _ hmem) hget
    rw [← hpp]
    exact ⟨_, hmem⟩

/-- The call on a row returns, with as many misses as the row has tokens that are not resident. -/
theorem RowSpec.call (h : RowSpec d hit_count row) (hfits : d.Fits)
    (hindex : d.SLOT_COUNT ≤ d.INDEX_SIZE) : ∃ out s',
    lookup_allocate_evict (row.map Int.ofNat) (residentState d) = .ok (out, s') ∧
      out.miss_mask = (row.map fun t => decide (d.SLOT_COUNT ≤ t)) ∧
      (out.miss_mask.count true : ℤ) = d.QUERY_COUNT - hit_count := by
  have hr := h.request hfits hindex
  obtain ⟨c, hc, _, hcall⟩ := lookup_spec hr.wf (row.map Int.ofNat)
  rw [if_pos (enough_slots hr hc)] at hcall
  obtain ⟨out, s', hret, _⟩ := hcall
  have hmask := h.mask_eq hindex hret
  refine ⟨out, s', hret, hmask, ?_⟩
  rw [hmask, ← h.misses, List.count_eq_countP, List.countP_map]
  congr 1
  refine List.countP_congr fun t _ => ?_
  simp

end

/-! ## Validation -/

section

variable {d : Sizes} {case : RandomLookupCase} {r : ℕ}

/-- Every request of a case has the same state. -/
theorem rowOf_replicate {n : ℕ} (hr : r < n) (xs : List ℤ) : rowOf (List.replicate n xs) r = xs := by
  unfold rowOf
  rw [List.getD_eq_getElem _ _ (by simpa using hr), List.getElem_replicate]

/-- The tensors hold the rows of the case. -/
theorem toNpuState_loaded (empty : Mem Address ℤ) (hbase : ∀ x : Tensor, r * x.stride d < 2 ^ 64) :
    Loaded d (case.state r) (rowOf case.query_token_ids r)
      (requestView d r (toNpuState d case empty)) := by
  have hdiv : ∀ {i n : ℕ}, i < n → (r * n + i) / n = r ∧ (r * n + i) % n = i := by
    intro i n hi
    have hpos : 0 < n := by omega
    rw [Nat.mul_comm, Nat.mul_add_div hpos, Nat.div_eq_of_lt hi, Nat.mul_add_mod, Nat.mod_eq_of_lt hi]
    exact ⟨Nat.add_zero r, rfl⟩
  refine ⟨fun i hi => ?_, fun v hv => ?_, fun p hp => ?_, fun p hp => ?_⟩
  · rw [requestView_eq hbase (a := .token_to_slot i) hi]
    show some (read (rowOf _ ((r * d.INDEX_SIZE + i) / d.INDEX_SIZE)) ((r * d.INDEX_SIZE + i) % d.INDEX_SIZE)) = _
    rw [(hdiv hi).1, (hdiv hi).2]
    rfl
  · rw [requestView_eq hbase (a := .slot_to_token v) hv]
    show some (read (rowOf _ ((r * d.SLOT_COUNT + v) / d.SLOT_COUNT)) ((r * d.SLOT_COUNT + v) % d.SLOT_COUNT)) = _
    rw [(hdiv hv).1, (hdiv hv).2]
    rfl
  · rw [requestView_eq hbase (a := .lru_slots p) hp]
    show some (read (rowOf _ ((r * d.SLOT_COUNT + p) / d.SLOT_COUNT)) ((r * d.SLOT_COUNT + p) % d.SLOT_COUNT)) = _
    rw [(hdiv hp).1, (hdiv hp).2]
    rfl
  · rw [requestView_eq hbase (a := .query_token_ids p) hp]
    show some (read (rowOf _ ((r * d.QUERY_COUNT + p) / d.QUERY_COUNT)) ((r * d.QUERY_COUNT + p) % d.QUERY_COUNT)) = _
    rw [(hdiv hp).1, (hdiv hp).2]

/-- A case as `make_random_case` makes it. -/
structure CaseSpec (d : Sizes) (req_num : ℕ) (hit_count : ℤ) (case : RandomLookupCase) : Prop where
  length : case.query_token_ids.length = req_num
  state : ∀ r < req_num, case.state r = residentState d
  rows : ∀ r < req_num, ∃ row, rowOf case.query_token_ids r = row.map Int.ofNat ∧
    RowSpec d hit_count row

/-- A whole case is made without an exception. -/
theorem makeRandomCase_ok {ρ : Type} (rng : PyRandom ρ) {hit_count : ℤ} (seed : ℤ) (case_id : ℕ)
    {req_num : ℕ} (hn : 0 < req_num) (hslot : d.QUERY_COUNT ≤ d.SLOT_COUNT)
    (hindex : d.SLOT_COUNT + d.QUERY_COUNT ≤ d.INDEX_SIZE) (h0 : 0 ≤ hit_count)
    (h1 : hit_count ≤ d.QUERY_COUNT) :
    ∃ case, makeRandomCase d rng req_num hit_count seed case_id = .ok case ∧
      CaseSpec d req_num hit_count case := by
  choose row hrow hspec using
    makeRandomQueryRow_ok rng seed case_id hslot hindex h0 h1
  have hrows : (List.range req_num).mapM (makeRandomQueryRow d rng hit_count seed case_id) =
      .ok ((List.range req_num).map row) := Folds.mapM_ok fun r _ => hrow r
  refine ⟨{
    token_to_slot := List.replicate req_num (residentTokenToSlot d)
    slot_to_token := List.replicate req_num (residentSlots d)
    lru_slots := List.replicate req_num (residentSlots d)
    query_token_ids := ((List.range req_num).map row).map fun row => row.map Int.ofNat
    hit_count := hit_count
    miss_count := d.QUERY_COUNT - hit_count }, ?_, ?_, fun r hr => ?_, fun r hr => ⟨row r, ?_, hspec r⟩⟩
  · unfold makeRandomCase validateHitCount
    rw [if_neg (by omega), if_neg (by omega), Int.toNat_natCast]
    simp only [bind, Except.bind, pure, Except.pure, hrows]
  · simp
  · unfold RandomLookupCase.state residentState
    dsimp only
    rw [rowOf_replicate hr, rowOf_replicate hr]
  · unfold rowOf
    rw [List.getD_eq_getElem _ _ (by simpa using hr)]
    simp

end

/-- **The validation passes** for every number of requests, every hit count it accepts, every
seed and stream of draws and every interleaving of the launch: the case is made, the reference
returns, no run of the launch goes on forever, and where one has come to its end every thread has
returned and the tensors hold what the reference expects. In
every request exactly the tokens that are not resident are reported as misses,
`QUERY_COUNT - hit_count` of them; and no two rows of the case draw from one seed. -/
theorem validation_passes {ρ : Type} (rng : PyRandom ρ) {req_num : ℕ} (hpos : 0 < req_num)
    (hn : req_num < 2 ^ 32) {hit_count : ℤ} (h0 : 0 ≤ hit_count)
    (h1 : hit_count ≤ asuSizes.QUERY_COUNT) (seed : ℤ) (case_id : ℕ) (empty : Mem Address ℤ) :
    ∃ case results, makeRandomCase asuSizes rng req_num hit_count seed case_id = .ok case ∧
      expectedResult case = .ok results ∧ results.length = req_num ∧
      (¬ ∃ run : ℕ → Grid (Fin req_num) (Fin asuSizes.SIMT_THREADS) Address ℤ Unit,
        run 0 = (asuHbmIndexLookupSimtDo asuSizes req_num, toNpuState asuSizes case empty) ∧
          ∀ n, GridStep (Allocated asuSizes req_num) (run n) (run (n + 1))) ∧
      (∃ cfg, LaunchEnds asuSizes req_num req_num (toNpuState asuSizes case empty) cfg) ∧
      (∀ cfg, LaunchEnds asuSizes req_num req_num (toNpuState asuSizes case empty) cfg →
        (∀ b t, cfg.1 b t = .ret ()) ∧ RuntimeResultOk asuSizes cfg.2 results) ∧
      (∀ r (hr : r < results.length), results[r].1.miss_mask =
          (rowOf case.query_token_ids r).map (fun t : ℤ => decide ((asuSizes.SLOT_COUNT : ℤ) ≤ t)) ∧
        (results[r].1.miss_mask.count true : ℤ) = asuSizes.QUERY_COUNT - hit_count) ∧
      ∀ r < req_num, ∀ r' < req_num, rowSeed seed case_id r = rowSeed seed case_id r' → r = r' := by
  have : Nonempty (Fin asuSizes.SIMT_THREADS) := ⟨⟨0, asuSizes_fits.threads_pos⟩⟩
  have hindex : asuSizes.SLOT_COUNT ≤ asuSizes.INDEX_SIZE := by decide
  have hbase : ∀ r < req_num, ∀ x : Tensor, r * x.stride asuSizes < 2 ^ 64 := fun r hr =>
    asu_base_lt (lt_trans hr hn)
  obtain ⟨case, hcase, hspec⟩ := makeRandomCase_ok rng seed case_id hpos
    asuSizes_fits.query_le_slot (by decide) h0 h1
  have hresults : ∀ r : ℕ, ∃ res : Outputs × LookupState, r < req_num →
      lookup_allocate_evict (rowOf case.query_token_ids r) (case.state r) = .ok res ∧
        res.1.miss_mask = (rowOf case.query_token_ids r).map
          (fun t : ℤ => decide ((asuSizes.SLOT_COUNT : ℤ) ≤ t)) ∧
        (res.1.miss_mask.count true : ℤ) = asuSizes.QUERY_COUNT - hit_count := by
    intro r
    by_cases hr : r < req_num
    · obtain ⟨row, hrow, hrs⟩ := hspec.rows r hr
      obtain ⟨out, s', hcall, hmask, hcount⟩ := hrs.call asuSizes_fits hindex
      rw [hspec.state r hr, hrow]
      refine ⟨(out, s'), fun _ => ⟨hcall, ?_, hcount⟩⟩
      rw [hmask, List.map_map]
      exact List.map_congr_left fun t _ => by simp
    · exact ⟨⟨⟨[], []⟩, residentState asuSizes⟩, fun h => absurd h hr⟩
  choose result hresult using hresults
  have hexpected : expectedResult case = .ok ((List.range req_num).map result) := by
    unfold expectedResult
    rw [hspec.length]
    exact Folds.mapM_ok fun r hr => (hresult r (List.mem_range.mp hr)).1
  have hreq : ∀ r < req_num, Request asuSizes (case.state r) (rowOf case.query_token_ids r) := by
    intro r hr
    obtain ⟨row, hrow, hrs⟩ := hspec.rows r hr
    rw [hspec.state r hr, hrow]
    exact hrs.request asuSizes_fits hindex
  have hm : ∀ r < req_num, Loaded asuSizes (case.state r) (rowOf case.query_token_ids r)
      (requestView asuSizes r (toNpuState asuSizes case empty)) := fun r hr =>
    toNpuState_loaded empty (hbase r hr)
  refine ⟨case, _, hcase, hexpected, by simp, fun ⟨run, _, hrun⟩ => no_infinite_grid_run _ ⟨run, hrun⟩,
    exists_gridStuck _ _, fun cfg hcfg => ?_, fun r hr => ?_, fun r hr r' hr' h => ?_⟩
  · obtain ⟨hret, houtcome, _⟩ := launch_outcome hn hbase le_rfl hreq hm hcfg
    refine ⟨hret, fun r hr => ?_⟩
    have hlt : r < req_num := by simpa using hr
    obtain ⟨w, c, out, s', ho⟩ := houtcome r hlt
    rw [ho.holds.arrays_eq (hreq r hlt) ho.scan ho.call, List.getElem_map, List.getElem_range]
    -- the misses of a row are distinct, so the selector does not matter
    have hone : MissesDistinct (case.state r) (rowOf case.query_token_ids r) := by
      obtain ⟨row, hrow, hrs⟩ := hspec.rows r hlt
      rw [hspec.state r hlt, hrow]
      exact hrs.missesDistinct
    have hcall := ho.returns
    rw [lookup_at_eq_of_distinct (hreq r hlt).wf ho.selector hone, (hresult r hlt).1] at hcall
    exact congrArg expected (Except.ok.inj hcall).symm
  · have hlt : r < req_num := by simpa using hr
    rw [List.getElem_map, List.getElem_range]
    exact (hresult r hlt).2
  · exact rowSeed_injective seed case_id (by omega) (by omega) h

/-- Draws without a source of randomness: a sample is the end of its population. -/
def lastDraws : PyRandom Unit where
  seeded := fun _ => ()
  sample := fun population k _ => (population.drop (population.length - k), ())
  shuffle := fun xs _ => (xs, ())
  sample_length := fun population k _ h => by
    rw [List.length_drop]
    omega
  sample_subperm := fun population _ _ _ => (List.drop_sublist _ population).subperm
  shuffle_perm := fun xs _ => List.Perm.refl xs

/-- The script's defaults. -/
theorem validation_passes_default : ∃ case results,
    makeRandomCase asuSizes lastDraws 2 1843 20260724 0 = .ok case ∧
      expectedResult case = .ok results ∧ results.length = 2 ∧
      (∃ cfg, LaunchEnds asuSizes 2 2 (toNpuState asuSizes case fun _ => none) cfg) ∧
      ∀ cfg, LaunchEnds asuSizes 2 2 (toNpuState asuSizes case fun _ => none) cfg →
        (∀ b t, cfg.1 b t = .ret ()) ∧ RuntimeResultOk asuSizes cfg.2 results := by
  obtain ⟨case, results, h⟩ := validation_passes lastDraws (by decide : 0 < 2) (by decide)
    (by decide : (0 : ℤ) ≤ 1843) (by decide) 20260724 0 fun _ => none
  exact ⟨case, results, h.1, h.2.1, h.2.2.1, h.2.2.2.2.1, h.2.2.2.2.2.1⟩

end AsuAscend.Simt
