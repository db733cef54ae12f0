/-
The kernel refines the oracle.

The seven phases compose: whatever the schedule, the kernel ends in the memory of
`lookup_allocate_evict_at w` for the selector `w` that the race of the claim phase
has picked (`kernel_correct`). Every schedule ends, since no thread loops without
bound, and none gets stuck before the end: the accesses stay inside the request's
rows and never read an uninitialised cell.

## Which oracle

The oracle of the repository reports a repeated missing token at its first occurrence, the kernel
where the race falls. `lookup_allocate_evict_at w` is the oracle with that choice as a parameter;
the kernel refines it for the selector that the run has picked, and the oracle proper wherever no
missing token is repeated (`MissesDistinct`).

An `Outcome` keeps the scan beside the results, since the safety of the last phases needs the
counts in it.
-/
import AsuAscend.Lookup.WorkingSet
import AsuAscend.Simt.Claim
import AsuAscend.Simt.Install

set_option autoImplicit false

open BarrierThreads SentinelTable AsuAscend.Lookup

namespace AsuAscend.Simt

/-! ## Running the kernel -/

/-- All threads at the start of the kernel. -/
def launch (d : Sizes) : Fin d.SIMT_THREADS → Thread Unit := fun t => asuHbmIndexLookupSimt d t

/-- A schedule from memory `m0` that has come to its end in `cfg`. -/
def Completes (d : Sizes) (m0 : Store) (cfg : Config (Fin d.SIMT_THREADS) Cell ℤ Unit) : Prop :=
  Steps (Cell.Inside d) (launch d, m0) cfg ∧ Stuck (Cell.Inside d) cfg

/-- The five arrays of a request. -/
structure Arrays where
  token_to_slot : List (Option ℤ)
  slot_to_token : List (Option ℤ)
  lru_slots : List (Option ℤ)
  slot_ids : List (Option ℤ)
  miss_mask : List (Option ℤ)

/-- The five arrays as the memory holds them. -/
def arrays (d : Sizes) (m : Store) : Arrays where
  token_to_slot := (List.range d.INDEX_SIZE).map fun i => m (.token_to_slot i)
  slot_to_token := (List.range d.SLOT_COUNT).map fun v => m (.slot_to_token v)
  lru_slots := (List.range d.SLOT_COUNT).map fun p => m (.lru_slots p)
  slot_ids := (List.range d.QUERY_COUNT).map fun p => m (.slot_ids p)
  miss_mask := (List.range d.QUERY_COUNT).map fun p => m (.miss_mask p)

/-- The five arrays that the validation script expects (`expected_result`). -/
def expected (r : Outputs × LookupState) : Arrays where
  token_to_slot := r.2.token_to_slot.map some
  slot_to_token := r.2.slot_to_token.map some
  lru_slots := r.2.lru_slots.map some
  slot_ids := r.1.slot_ids.map some
  miss_mask := r.1.miss_mask.map fun b => some (if b then 1 else 0)

section

variable {d : Sizes} {s s' : LookupState} {query : List ℤ} {c : Scan} {out : Outputs} {m0 m : Store}

/-- The memory holds the results of a call. -/
structure Holds (d : Sizes) (out : Outputs) (s' : LookupState) (m : Store) : Prop where
  fwd : ∀ i < d.INDEX_SIZE, m (.token_to_slot i) = some (read s'.token_to_slot i)
  bwd : ∀ v < d.SLOT_COUNT, m (.slot_to_token v) = some (read s'.slot_to_token v)
  lru : ∀ p < d.SLOT_COUNT, m (.lru_slots p) = some (read s'.lru_slots p)
  ids : ∀ p < d.QUERY_COUNT, m (.slot_ids p) = some (read out.slot_ids p)
  mask : ∀ p < d.QUERY_COUNT,
    m (.miss_mask p) = some (if out.miss_mask.getD p false then 1 else 0)

/-! ## All phases -/

/-- The distinct missing tokens fit the slots that the row does not hit. -/
theorem enough_slots (hr : Request d s query) (hc : ScanSpec s query query.length c) :
    c.unique_misses.length ≤ (evictableSlots s c).length := by
  refine misses_fit (T := ∅) (B := []) hr.wf hc (by simp) (List.append_nil _).symm (by simp) ?_
  have hcard : (rowTokens s query).card ≤ query.length :=
    le_trans (List.toFinset_card_le _) (List.length_filter_le _ _)
  have := hr.fits.query_le_slot
  rw [Finset.empty_union, hr.bwd_length]
  rw [hr.query_length] at hcard
  omega

theorem Loaded.cleared (hm : Loaded d s query m0) : Loaded d s query (cleared d m0) :=
  ⟨hm.fwd, hm.bwd, hm.lru, hm.row⟩

/-- The memory before the install phase. -/
def preInstall (d : Sizes) (s : LookupState) (c : Scan) (m : Store) : Store :=
  missesCounted d c (scattered s c (counted d s c m))

/-- The memory at the end. -/
def finalStore (d : Sizes) (s : LookupState) (c : Scan) (out : Outputs) (s' : LookupState)
    (m : Store) : Store :=
  writtenBack d out s' (installed d c out s' (preInstall d s c m))

/-- After the partition, what the install phase finds. -/
theorem Claimed.partitioned (hm : Claimed d s query c m) :
    Partitioned d s query c (preInstall d s c m) :=
  { hm.counted.scattered.missesCounted with
    evictable := fun _ hi => if_pos hi
    hits := fun _ hi => if_pos hi
    evictable_count := rfl
    misses := fun _ ht => if_pos ht }

/-- What all phases leave, as the result of the call that the claims have selected. -/
theorem Claimed.holds (hm : Claimed d s query c m) (hc : ScanSpec s query query.length c)
    (h : CallSpec s query c out s') : Holds d out s' (finalStore d s c out s' m) where
  fwd := fun _ hi => if_pos hi
  bwd := fun _ hv => if_pos hv
  lru := fun _ hp => if_pos hp
  ids := fun _ hp => if_pos hp
  mask := fun p hp => by
    refine (hm.mask p hp).trans ?_
    have hiff : p ∈ c.unique_misses.map Prod.fst ↔ out.miss_mask.getD p false = true := by
      rw [h.mask]; exact (hc.mask_iff p).symm
    simp only [hiff]

/-- The selector and the call behind a complete schedule. -/
structure Outcome (d : Sizes) (s : LookupState) (query : List ℤ) (m : Store) (w : ℤ → ℕ)
    (c : Scan) (out : Outputs) (s' : LookupState) : Prop where
  selector : Selector s query w
  scan : ScanSpec s query query.length c
  selected : Selected s query w c
  returns : lookup_allocate_evict_at w query s = .ok (out, s')
  call : CallSpec s query c out s'
  holds : Holds d out s' m

/-- The kernel after the barrier of the claim phase. -/
def afterClaims (d : Sizes) (tid : ℕ) : Thread Unit := do
  let local_counts ← countSlots d tid
  Prog.barrier
  scatterSlots d tid local_counts
  Prog.barrier
  let local_misses ← countMisses d tid
  Prog.barrier
  installMisses d tid local_misses
  Prog.barrier
  writeBack d tid

theorem launch_eq (d : Sizes) : launch d = fun t : Fin d.SIMT_THREADS => (do
    clearFlags d t
    Prog.barrier
    claimQueries d t
    Prog.barrier
    afterClaims d t) := rfl

/-- The memory in which the deterministic part of the kernel ends. -/
theorem afterClaims_final (hr : Request d s query) {w : ℤ → ℕ} (hw : Selector s query w)
    (hc : ScanSpec s query query.length c) (hsel : Selected s query w c)
    (hm : Claimed d s query c m) :
    Correct (Cell.Inside d) (fun _ m' => ∃ c' out s', ScanSpec s query query.length c' ∧
      Selected s query w c' ∧ lookup_allocate_evict_at w query s = .ok (out, s') ∧
      CallSpec s query c' out s' ∧ Claimed d s query c' m ∧ m' = finalStore d s c' out s' m)
      (fun t : Fin d.SIMT_THREADS => afterClaims d t) m := by
  -- the call with the selector of the race
  obtain ⟨c', hc', hsel', hcall⟩ := lookup_at_spec hr.wf hw
  have hmem : ∀ x, x ∈ c'.unique_misses ↔ x ∈ c.unique_misses := fun x =>
    (hsel' x.1 x.2).trans (hsel x.1 x.2).symm
  have hu := hc'.unique_misses_eq hc hmem
  have hh := hc'.hit_eq hc
  have hm' : Claimed d s query c' m := by
    refine ⟨?_, hm.bwd, hm.lru, hm.row, hm.ids, ?_, ?_⟩
    · rw [hu]; exact hm.fwd
    · rw [hu]; exact hm.mask
    · rw [hh]; exact hm.flags
  rw [if_pos (enough_slots hr hc')] at hcall
  obtain ⟨out, s', hret, hspec⟩ := hcall
  unfold afterClaims
  refine count_phase (hm'.flagged hr) ?_
  refine scatter_phase (hm'.counted.flagged hr) (fun i hi => ⟨if_pos hi, if_pos hi⟩) ?_
  refine missCount_phase hm'.counted.scattered.masked ?_
  refine install_phase hr hc' hspec hm'.partitioned ?_
  refine writeBack_phase hr hc' hspec hm'.partitioned.installed ?_
  exact ⟨c', out, s', hc', hsel', hret, hspec, hm', rfl⟩

/-- The deterministic part of the kernel, which leaves `miss_mask` alone. -/
theorem afterClaims_correct (hr : Request d s query) {w : ℤ → ℕ} (hw : Selector s query w)
    (hc : ScanSpec s query query.length c) (hsel : Selected s query w c)
    (hm : Claimed d s query c m) :
    Correct (Cell.Inside d) (fun _ m' => (∃ c' out s', Outcome d s query m' w c' out s') ∧
      ∀ p, m' (.miss_mask p) = m (.miss_mask p))
      (fun t : Fin d.SIMT_THREADS => afterClaims d t) m := by
  refine (afterClaims_final hr hw hc hsel hm).mono ?_
  rintro _ m' ⟨c', out, s', hc', hsel', hret, hspec, hm', rfl⟩
  exact ⟨⟨c', out, s', hw, hc', hsel', hret, hspec, hm'.holds hc' hspec⟩, fun p => rfl⟩

/-- **The kernel**, phase by phase. -/
theorem kernel_correct (hr : Request d s query) (hm : Loaded d s query m0) :
    Correct (Cell.Inside d) (fun _ m => ∃ w c out s', Outcome d s query m w c out s')
      (launch d) m0 := by
  rw [launch_eq]
  apply clear_phase hr.fits.threads_pos
  refine claim_phase hr hm.cleared (fun v hv => if_pos hv) ?_
  intro w c m hw hc hsel hcl
  exact (afterClaims_correct hr hw hc hsel hcl).mono fun _ m' h => ⟨w, h.1⟩

/-- What a complete schedule leaves behind. -/
theorem completes_outcome (hr : Request d s query) (hm : Loaded d s query m0)
    {cfg : Config (Fin d.SIMT_THREADS) Cell ℤ Unit} (hcfg : Completes d m0 cfg) :
    (∀ t, cfg.1 t = .ret ()) ∧ ∃ w c out s', Outcome d s query cfg.2 w c out s' := by
  have : Nonempty (Fin d.SIMT_THREADS) := ⟨⟨0, hr.fits.threads_pos⟩⟩
  obtain ⟨rs, hret, h⟩ := (kernel_correct hr hm).outcome hcfg.1 hcfg.2
  exact ⟨fun t => by rw [hret], h⟩

/-! ## The five arrays -/

/-- An array that holds a list holds it entry by entry. -/
theorem map_range_read {xs : List ℤ} {n : ℕ} (hn : xs.length = n) {f : ℕ → Option ℤ}
    (hf : ∀ i < n, f i = some (read xs i)) : (List.range n).map f = xs.map some := by
  refine List.ext_getElem (by simp [hn]) fun i h1 h2 => ?_
  have hi : i < n := by simpa using h1
  rw [List.getElem_map, List.getElem_range, hf i hi, List.getElem_map, read_of_lt (by omega)]

/-- So the arrays are those that the oracle expects. -/
theorem Holds.arrays_eq (hr : Request d s query) (hc : ScanSpec s query query.length c)
    (h : CallSpec s query c out s') (hm : Holds d out s' m) : arrays d m = expected (out, s') := by
  have hlru : s'.lru_slots.length = d.SLOT_COUNT := by
    rw [(h.wf hr.wf hc).lru_length, h.bwd_length, hr.bwd_length]
  have hmask : out.miss_mask.length = d.QUERY_COUNT := by
    rw [h.mask, hc.mask_length, hr.query_length]
  unfold arrays expected
  congr 1
  · exact map_range_read (h.fwd_length.trans hr.fwd_length) hm.fwd
  · exact map_range_read (h.bwd_length.trans hr.bwd_length) hm.bwd
  · exact map_range_read hlru hm.lru
  · exact map_range_read (h.ids_length.trans hr.query_length) hm.ids
  · refine List.ext_getElem (by simp [hmask]) fun p h1 h2 => ?_
    have hp : p < d.QUERY_COUNT := by simpa using h1
    rw [List.getElem_map, List.getElem_range, hm.mask p hp, List.getElem_map,
      List.getD_eq_getElem _ _ (by omega)]

end

/-! ## A concrete request -/

/-- The rows in memory, outputs and workspace uninitialised. -/
def initialStore (d : Sizes) (s : LookupState) (query : List ℤ) : Store
  | .token_to_slot i => if i < d.INDEX_SIZE then some (read s.token_to_slot i) else none
  | .slot_to_token v => if v < d.SLOT_COUNT then some (read s.slot_to_token v) else none
  | .lru_slots p => if p < d.SLOT_COUNT then some (read s.lru_slots p) else none
  | .query_token_ids p => if p < d.QUERY_COUNT then some (read query p) else none
  | _ => none

theorem initialStore_loaded (d : Sizes) (s : LookupState) (query : List ℤ) :
    Loaded d s query (initialStore d s query) :=
  ⟨fun _ h => if_pos h, fun _ h => if_pos h, fun _ h => if_pos h, fun _ h => if_pos h⟩

/-- No token is resident. -/
def emptyState (d : Sizes) : LookupState where
  token_to_slot := List.replicate d.INDEX_SIZE (-1)
  slot_to_token := List.replicate d.SLOT_COUNT (-1)
  lru_slots := (List.range d.SLOT_COUNT).map Int.ofNat

/-- Token 7 twice, then padding. -/
def twiceRow (d : Sizes) : List ℤ := 7 :: 7 :: List.replicate (d.QUERY_COUNT - 2) (-1)

/-- The row of the example is a request on an empty state. -/
theorem emptyState_request {d : Sizes} (hfits : d.Fits) (hq : 2 ≤ d.QUERY_COUNT) :
    Request d (emptyState d) (twiceRow d) where
  fits := hfits
  wf := {
    perm := by unfold emptyState; rw [List.length_replicate]
    inverse := {
      fwd := fun i hi => Or.inl (by rw [read_of_lt hi]; exact List.getElem_replicate _)
      bwd := fun j hj => Or.inl (by rw [read_of_lt hj]; exact List.getElem_replicate _) } }
  fwd_length := List.length_replicate
  bwd_length := List.length_replicate
  query_length := by unfold twiceRow; simp; omega

/-- Every launch has a run that ends: take any schedule. -/
theorem exists_completes {d : Sizes} (hfits : d.Fits) (m0 : Store) : ∃ cfg, Completes d m0 cfg := by
  have : Nonempty (Fin d.SIMT_THREADS) := ⟨⟨0, hfits.threads_pos⟩⟩
  exact exists_stuck (Cell.Inside d) (launch d, m0)

/-! ## The refinement -/

/-- **The kernel refines the oracle.** From a request that meets the README
invariants every schedule ends, every thread returns, no claim is left over, and the
five arrays are those of the oracle's call with the misses reported at the positions
that some selector chooses; the oracle's own, if no missing token is repeated. -/
theorem simt_refines_oracle {s : LookupState} {query : List ℤ} {m0 : Store}
    (hr : Request asuSizes s query) (hm : Loaded asuSizes s query m0) :
    (¬ ∃ run : ℕ → Config (Fin asuSizes.SIMT_THREADS) Cell ℤ Unit,
      run 0 = (launch asuSizes, m0) ∧ ∀ n, Step (Cell.Inside asuSizes) (run n) (run (n + 1))) ∧
    ∀ cfg, Completes asuSizes m0 cfg →
      (∀ t, cfg.1 t = .ret ()) ∧
      (∀ z ∈ (arrays asuSizes cfg.2).token_to_slot, z ≠ some CLAIMING) ∧
      (∀ z ∈ (arrays asuSizes cfg.2).slot_ids, z ≠ some CLAIMING) ∧
      (∃ w r, Selector s query w ∧ lookup_allocate_evict_at w query s = .ok r ∧
        arrays asuSizes cfg.2 = expected r) ∧
      (MissesDistinct s query →
        ∃ r, lookup_allocate_evict query s = .ok r ∧ arrays asuSizes cfg.2 = expected r) := by
  have : Nonempty (Fin asuSizes.SIMT_THREADS) := ⟨⟨0, hr.fits.threads_pos⟩⟩
  refine ⟨fun ⟨run, _, hrun⟩ => no_infinite_run _ ⟨run, hrun⟩, fun cfg hcfg => ?_⟩
  obtain ⟨hret, w, c, out, s', ho⟩ := completes_outcome hr hm hcfg
  have harr := ho.holds.arrays_eq hr ho.scan ho.call
  -- a sentinel table holds slots, tokens and `NOT_FOUND` only
  have hsent : ∀ {xs : List ℤ}, Sentinel xs → ∀ z ∈ xs.map some, z ≠ some CLAIMING := by
    intro xs hxs z hz heq
    obtain ⟨y, hy, rfl⟩ := List.mem_map.mp hz
    have hge := hxs y hy
    rw [Option.some.inj heq] at hge
    exact absurd hge (by decide)
  refine ⟨hret, ?_, ?_, ⟨w, _, ho.selector, ho.returns, harr⟩, fun hone => ⟨_, ?_, harr⟩⟩
  · rw [harr]; exact hsent ho.call.fwd_sentinel
  · rw [harr]; exact hsent (ho.call.ids_sentinel)
  · rw [← lookup_at_eq_of_distinct hr.wf ho.selector hone]
    exact ho.returns

/-- Some schedule of the row in which token 7 is queried twice. -/
theorem simt_refines_oracle_twice :
    ∃ cfg, Completes asuSizes (initialStore asuSizes (emptyState asuSizes) (twiceRow asuSizes)) cfg ∧
      (∀ t, cfg.1 t = .ret ()) ∧
      (∀ z ∈ (arrays asuSizes cfg.2).token_to_slot, z ≠ some CLAIMING) ∧
      (∀ z ∈ (arrays asuSizes cfg.2).slot_ids, z ≠ some CLAIMING) ∧
      (∃ w r, Selector (emptyState asuSizes) (twiceRow asuSizes) w ∧
        lookup_allocate_evict_at w (twiceRow asuSizes) (emptyState asuSizes) = .ok r ∧
        arrays asuSizes cfg.2 = expected r) ∧
      (MissesDistinct (emptyState asuSizes) (twiceRow asuSizes) →
        ∃ r, lookup_allocate_evict (twiceRow asuSizes) (emptyState asuSizes) = .ok r ∧
          arrays asuSizes cfg.2 = expected r) := by
  have hq : 2 ≤ asuSizes.QUERY_COUNT := by decide
  obtain ⟨cfg, hcfg⟩ := exists_completes asuSizes_fits
    (initialStore asuSizes (emptyState asuSizes) (twiceRow asuSizes))
  exact ⟨cfg, hcfg, (simt_refines_oracle (emptyState_request asuSizes_fits hq)
    (initialStore_loaded _ _ _)).2 cfg hcfg⟩

end AsuAscend.Simt
