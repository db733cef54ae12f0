/-
`asu_hbm_index_lookup_simt_kernel` and `asu_hbm_index_lookup_simt_do`: one launch of the
lookup for all requests.

The launch has a block of SIMT threads for each request. Blocks share no barrier and
work on the same seven tensors, at the addresses of `Cell.address`; since these lie
apart, every interleaving of all threads of all blocks does to each request what the
oracle does (`launch_refines_oracle`). A decode loop launches the operator again and
again on the same tensors (`LaunchRun`), and the invariants hold throughout
(`launches_keep_requests`).

## Two levels

A block's own run is one of `Refinement`, on the arrays of its request. The blocks' interleaving is
taken apart by `Grids`: as the addresses of two requests never meet, a block sees the memory that
it would see alone. The 64-bit bases do not wrap as long as the number of requests is a `uint32_t`,
which it is by its type.

A launch ends in every interleaving and leaves each thread returned, so that the next launch finds
the tensors in the state the operator asks for (`Ready`). A request that a launch does not serve
keeps its rows.
-/
import AsuAscend.Lib.Grids
import AsuAscend.Simt.Layout
import AsuAscend.Simt.Refinement

set_option autoImplicit false

open BarrierThreads MachineWords SentinelTable AsuAscend.Lookup

namespace AsuAscend.Simt

/-! ## The launch -/

/-- A tensor and the offset of an element. -/
abbrev Address := Tensor × ℕ

instance (d : Sizes) : DecidablePred (Cell.Inside d)
  | .token_to_slot token => inferInstanceAs (Decidable (token < d.INDEX_SIZE))
  | .slot_to_token slot => inferInstanceAs (Decidable (slot < d.SLOT_COUNT))
  | .lru_slots pos => inferInstanceAs (Decidable (pos < d.SLOT_COUNT))
  | .query_token_ids pos => inferInstanceAs (Decidable (pos < d.QUERY_COUNT))
  | .slot_ids pos => inferInstanceAs (Decidable (pos < d.QUERY_COUNT))
  | .miss_mask pos => inferInstanceAs (Decidable (pos < d.QUERY_COUNT))
  | .hit_flags slot => inferInstanceAs (Decidable (slot < d.SLOT_COUNT))
  | .hit_slots i => inferInstanceAs (Decidable (i < d.SLOT_COUNT))
  | .evictable_slots i => inferInstanceAs (Decidable (i < d.SLOT_COUNT))
  | .thread_hit_counts tid => inferInstanceAs (Decidable (tid < d.SIMT_THREADS))
  | .thread_evict_counts tid => inferInstanceAs (Decidable (tid < d.SIMT_THREADS))
  | .thread_miss_counts tid => inferInstanceAs (Decidable (tid < d.SIMT_THREADS))
  | .counters i => inferInstanceAs (Decidable (i < 4))

section

variable (d : Sizes)

/-- The entry point, as thread `tid` of block `block_idx` runs it. -/
def asuHbmIndexLookupSimtKernel (req_num block_idx : ℕ) (tid : Fin d.SIMT_THREADS) :
    Prog Address ℤ Unit :=
  let req_id := u32 (block_idx : ℕ)
  if req_id ≥ req_num then pure ()
  else (asuHbmIndexLookupSimt d tid).placed (Cell.address d req_id)

/-- The launch: `req_num` blocks. -/
def asuHbmIndexLookupSimtDo (req_num : ℕ) : Fin req_num → Fin d.SIMT_THREADS → Prog Address ℤ Unit :=
  fun block_idx tid => asuHbmIndexLookupSimtKernel d req_num block_idx tid

/-- The tensors have `rows` rows. -/
def Allocated (rows : ℕ) (g : Address) : Prop := g.2 < rows * g.1.stride d

/-- The element belongs to request `r`. -/
def InRow (r : ℕ) (g : Address) : Prop :=
  r * g.1.stride d ≤ g.2 ∧ g.2 < (r + 1) * g.1.stride d

/-- The elements of request `r`. -/
def requestView (r : ℕ) (m : Mem Address ℤ) : Store :=
  blockView (Cell.address d) (Cell.Inside d) r m

/-- A launch on tensors with `rows` rows that has come to its end. -/
def LaunchEnds (req_num rows : ℕ) (m0 : Mem Address ℤ)
    (cfg : Grid (Fin req_num) (Fin d.SIMT_THREADS) Address ℤ Unit) : Prop :=
  GridSteps (Allocated d rows) (asuHbmIndexLookupSimtDo d req_num, m0) cfg ∧
    GridStuck (Allocated d rows) cfg

end

section

variable {d : Sizes} {req_num rows : ℕ}

/-- The blocks of a launch are the kernel, placed at the rows of its tensors. -/
theorem do_eq (hn : req_num < 2 ^ 32) : asuHbmIndexLookupSimtDo d req_num =
    fun (b : Fin req_num) t => (launch d t).placed (Cell.address d b) := by
  funext b t
  have hb := b.isLt
  have hid : u32 ((b : ℕ) : ℤ) = b := u32_natCast (by omega)
  unfold asuHbmIndexLookupSimtDo asuHbmIndexLookupSimtKernel
  rw [hid, if_neg (by omega)]
  rfl

/-- The requests of a launch lie apart. -/
theorem launch_apart (hbase : ∀ r < req_num, ∀ x : Tensor, r * x.stride d < 2 ^ 64)
    (hrows : req_num ≤ rows) :
    Apart (fun b : Fin req_num => Cell.address d b) (Cell.Inside d) (Allocated d rows) where
  inj := by
    intro b b' a a' ha ha' h
    obtain ⟨hb, heq⟩ := address_injective (hbase b b.isLt) (hbase b' b'.isLt) ha ha' h
    exact ⟨Fin.ext hb, heq⟩
  mem := by
    intro b a ha
    obtain ⟨_, hlt⟩ := address_own (hbase b b.isLt) ha
    exact lt_of_lt_of_le hlt (Nat.mul_le_mul_right _ (le_trans b.isLt hrows))

variable {s : ℕ → LookupState} {query : ℕ → List ℤ} {m0 : Mem Address ℤ}

/-- What a launch leaves behind, request by request. -/
theorem launch_outcome (hn : req_num < 2 ^ 32)
    (hbase : ∀ r < req_num, ∀ x : Tensor, r * x.stride d < 2 ^ 64) (hrows : req_num ≤ rows)
    (hr : ∀ r < req_num, Request d (s r) (query r))
    (hm : ∀ r < req_num, Loaded d (s r) (query r) (requestView d r m0))
    {cfg : Grid (Fin req_num) (Fin d.SIMT_THREADS) Address ℤ Unit}
    (hcfg : LaunchEnds d req_num rows m0 cfg) :
    (∀ b t, cfg.1 b t = .ret ()) ∧
    (∀ r < req_num, ∃ w c out s', Outcome d (s r) (query r) (requestView d r cfg.2) w c out s') ∧
    ∀ g, (∀ r < req_num, ¬ InRow d r g) → cfg.2 g = m0 g := by
  have hap := launch_apart hbase hrows
  have hcontained : ∀ b : Fin req_num, Contained (Cell.Inside d) (launch d, requestView d b m0) := by
    intro b
    have hb := hr b b.isLt
    have : Nonempty (Fin d.SIMT_THREADS) := ⟨⟨0, hb.fits.threads_pos⟩⟩
    exact Correct.contained (c := (launch d, requestView d b m0)) (kernel_correct hb (hm b b.isLt))
  obtain ⟨hsteps, hst⟩ := hcfg
  rw [do_eq hn] at hsteps
  obtain ⟨rest, hseen⟩ := Seen.run hap hcontained hsteps
  -- each block has seen a complete run of its own
  have hends : ∀ b : Fin req_num, (∀ t, rest b t = .ret ()) ∧
      ∃ w c out s', Outcome d (s b) (query b) (requestView d b cfg.2) w c out s' := fun b =>
    completes_outcome (hr b b.isLt) (hm b b.isLt) ⟨hseen.steps b, hseen.stuck hap hst b⟩
  refine ⟨fun b t => ?_, fun r hlt => (hends ⟨r, hlt⟩).2, fun g hg => hseen.frame g ?_⟩
  · rw [hseen.programs]
    dsimp only
    rw [(hends b).1 t]
    rfl
  · rintro b a ha rfl
    exact hg b b.isLt (address_own (hbase b b.isLt) ha)

end

/-! ## Tensors that several launches work on -/

/-- The host writes a new query tensor. -/
def setQueries (d : Sizes) (rows : ℕ) (query : ℕ → List ℤ) (m : Mem Address ℤ) : Mem Address ℤ :=
  fun g =>
    if g.1 = .query_token_ids ∧ g.2 < rows * d.QUERY_COUNT then
      some (read (query (g.2 / d.QUERY_COUNT)) (g.2 % d.QUERY_COUNT))
    else m g

/-- The state tensors hold `s`. -/
structure StateLoaded (d : Sizes) (s : LookupState) (m : Store) : Prop where
  fwd : ∀ i < d.INDEX_SIZE, m (.token_to_slot i) = some (read s.token_to_slot i)
  bwd : ∀ v < d.SLOT_COUNT, m (.slot_to_token v) = some (read s.slot_to_token v)
  lru : ∀ p < d.SLOT_COUNT, m (.lru_slots p) = some (read s.lru_slots p)

/-- Launches one after the other: the requests that each of them serves, and their queries. -/
inductive LaunchRun (d : Sizes) (rows : ℕ) :
    List (ℕ × (ℕ → List ℤ)) → Mem Address ℤ → Mem Address ℤ → Prop
  | nil (m : Mem Address ℤ) : LaunchRun d rows [] m m
  | launch {req_num : ℕ} {query : ℕ → List ℤ} {rest : List (ℕ × (ℕ → List ℤ))}
      {m m' : Mem Address ℤ} {cfg : Grid (Fin req_num) (Fin d.SIMT_THREADS) Address ℤ Unit}
      (h : LaunchEnds d req_num rows (setQueries d rows query m) cfg)
      (hrest : LaunchRun d rows rest cfg.2 m') : LaunchRun d rows ((req_num, query) :: rest) m m'

/-- Calls of the oracle one after the other, each with the misses reported where some selector
says. -/
inductive SelectedRun : List (List ℤ) → LookupState → LookupState → Prop
  | nil (s : LookupState) : SelectedRun [] s s
  | call {w : ℤ → ℕ} {query : List ℤ} {rest : List (List ℤ)} {s s' s'' : LookupState}
      {out : Outputs} (hw : Selector s query w)
      (h : lookup_allocate_evict_at w query s = .ok (out, s')) (hrest : SelectedRun rest s' s'') :
      SelectedRun (query :: rest) s s''

/-- The query rows that the launches give to request `r`. -/
def queriesOf (r : ℕ) (launches : List (ℕ × (ℕ → List ℤ))) : List (List ℤ) :=
  launches.filterMap fun l => if r < l.1 then some (l.2 r) else none

section

variable {d : Sizes} {req_num rows r : ℕ} {s : LookupState} {m : Mem Address ℤ}

/-- A request sees the cells of its rows: the base does not wrap. -/
theorem requestView_eq (hbase : ∀ x : Tensor, r * x.stride d < 2 ^ 64) {a : Cell} (ha : a.Inside d) :
    requestView d r m a = m ((a.place d).1, r * (a.place d).1.stride d + (a.place d).2) := by
  rw [requestView, blockView_inside ha, address_eq hbase]

theorem setQueries_loaded (query : ℕ → List ℤ) (hbase : ∀ x : Tensor, r * x.stride d < 2 ^ 64) (hr : r < rows)
    (h : StateLoaded d s (requestView d r m)) :
    Loaded d s (query r) (requestView d r (setQueries d rows query m)) := by
  -- only the query tensor is written
  have hother : ∀ a : Cell, a.Inside d → (a.place d).1 ≠ .query_token_ids →
      requestView d r (setQueries d rows query m) a = requestView d r m a := by
    intro a ha hne
    rw [requestView_eq hbase ha, requestView_eq hbase ha]
    exact if_neg fun h => hne h.1
  refine ⟨fun i hi => ?_, fun v hv => ?_, fun p hp => ?_, fun p hp => ?_⟩
  · rw [hother (.token_to_slot i) hi (by simp [Cell.place])]
    exact h.fwd i hi
  · rw [hother (.slot_to_token v) hv (by simp [Cell.place])]
    exact h.bwd v hv
  · rw [hother (.lru_slots p) hp (by simp [Cell.place])]
    exact h.lru p hp
  · have hlt : r * d.QUERY_COUNT + p < rows * d.QUERY_COUNT := by
      have hle := Nat.mul_le_mul_right d.QUERY_COUNT (Nat.succ_le_of_lt hr)
      rw [Nat.succ_mul] at hle
      omega
    rw [requestView_eq hbase (a := .query_token_ids p) hp]
    refine (if_pos ⟨rfl, hlt⟩).trans ?_
    show some (read (query ((r * d.QUERY_COUNT + p) / d.QUERY_COUNT))
      ((r * d.QUERY_COUNT + p) % d.QUERY_COUNT)) = _
    have hpos : 0 < d.QUERY_COUNT := by omega
    rw [Nat.mul_comm, Nat.mul_add_div hpos, Nat.div_eq_of_lt hp, Nat.mul_add_mod,
      Nat.mod_eq_of_lt hp, Nat.add_zero]

/-- An element has one row. -/
theorem InRow.unique {r' : ℕ} {g : Address} (h : InRow d r g) (h' : InRow d r' g) : r = r' := by
  obtain ⟨hlo, hhi⟩ := h
  obtain ⟨hlo', hhi'⟩ := h'
  have h1 : r < r' + 1 := Nat.lt_of_mul_lt_mul_right (lt_of_le_of_lt hlo hhi')
  have h2 : r' < r + 1 := Nat.lt_of_mul_lt_mul_right (lt_of_le_of_lt hlo' hhi)
  omega

/-- A request that is not served keeps its elements. -/
theorem requestView_unserved (hbase : ∀ x : Tensor, r * x.stride d < 2 ^ 64) (hr : req_num ≤ r)
    {m' : Mem Address ℤ} (h : ∀ g, (∀ r < req_num, ¬ InRow d r g) → m' g = m g) :
    requestView d r m' = requestView d r m := by
  funext a
  by_cases ha : a.Inside d
  · unfold requestView
    rw [blockView_inside ha, blockView_inside ha]
    refine h _ fun r' hr' hrow => ?_
    have := hrow.unique (address_own hbase ha)
    omega
  · unfold requestView blockView
    rw [if_neg ha, if_neg ha]

end

/-! ## All requests -/

/-- State tensors in which no token is resident. -/
def emptyTensors (d : Sizes) : Mem Address ℤ
  | (.token_to_slot, _) => some (-1)
  | (.slot_to_token, _) => some (-1)
  | (.lru_slots, i) => some ((i % d.SLOT_COUNT : ℕ) : ℤ)
  | _ => none

/-- The tensors of a fresh start hold empty states. -/
theorem emptyTensors_loaded {d : Sizes} {r : ℕ} (hbase : ∀ x : Tensor, r * x.stride d < 2 ^ 64) :
    StateLoaded d (emptyState d) (requestView d r (emptyTensors d)) := by
  refine ⟨fun i hi => ?_, fun v hv => ?_, fun p hp => ?_⟩
  · rw [requestView_eq hbase (a := .token_to_slot i) hi]
    unfold emptyState
    rw [read_of_lt (by rw [List.length_replicate]; exact hi), List.getElem_replicate]
    rfl
  · rw [requestView_eq hbase (a := .slot_to_token v) hv]
    unfold emptyState
    rw [read_of_lt (by rw [List.length_replicate]; exact hv), List.getElem_replicate]
    rfl
  · rw [requestView_eq hbase (a := .lru_slots p) hp]
    unfold emptyState
    rw [read_of_lt (by simpa using hp), List.getElem_map, List.getElem_range]
    show some (((r * d.SLOT_COUNT + p) % d.SLOT_COUNT : ℕ) : ℤ) = some (Int.ofNat p)
    rw [Nat.mul_comm, Nat.mul_add_mod, Nat.mod_eq_of_lt hp]
    rfl

/-- Two requests in the empty state, both asked for token 7 twice. -/
def twoRows (d : Sizes) : Mem Address ℤ := setQueries d 2 (fun _ => twiceRow d) (emptyTensors d)

/-- **One launch is the oracle on every request.** From requests that meet the README
invariants, whatever way the threads of all blocks interleave, the launch ends, every thread
returns, the five arrays of each request are those of the oracle's call with the misses
reported at the positions that some selector chooses (the oracle's own, if no missing token is
repeated), and rows of no request of the launch are untouched. -/
theorem launch_refines_oracle {req_num rows : ℕ} (hn : req_num < 2 ^ 32) (hrows : req_num ≤ rows)
    {s : ℕ → LookupState} {query : ℕ → List ℤ} {m0 : Mem Address ℤ}
    (hr : ∀ r < req_num, Request asuSizes (s r) (query r))
    (hm : ∀ r < req_num, Loaded asuSizes (s r) (query r) (requestView asuSizes r m0)) :
    (¬ ∃ run : ℕ → Grid (Fin req_num) (Fin asuSizes.SIMT_THREADS) Address ℤ Unit,
      run 0 = (asuHbmIndexLookupSimtDo asuSizes req_num, m0) ∧
        ∀ n, GridStep (Allocated asuSizes rows) (run n) (run (n + 1))) ∧
    ∀ cfg, LaunchEnds asuSizes req_num rows m0 cfg →
      (∀ b t, cfg.1 b t = .ret ()) ∧
      (∀ r < req_num,
        (∃ w res, Selector (s r) (query r) w ∧
          lookup_allocate_evict_at w (query r) (s r) = .ok res ∧
          arrays asuSizes (requestView asuSizes r cfg.2) = expected res) ∧
        (MissesDistinct (s r) (query r) → ∃ res, lookup_allocate_evict (query r) (s r) = .ok res ∧
          arrays asuSizes (requestView asuSizes r cfg.2) = expected res)) ∧
      ∀ g, (∀ r < req_num, ¬ InRow asuSizes r g) → cfg.2 g = m0 g := by
  have : Nonempty (Fin asuSizes.SIMT_THREADS) := ⟨⟨0, asuSizes_fits.threads_pos⟩⟩
  refine ⟨fun ⟨run, _, hrun⟩ => no_infinite_grid_run _ ⟨run, hrun⟩, fun cfg hcfg => ?_⟩
  have hbase : ∀ r < req_num, ∀ x : Tensor, r * x.stride asuSizes < 2 ^ 64 := fun r hlt =>
    asu_base_lt (lt_trans hlt hn)
  obtain ⟨hret, houtcome, hframe⟩ := launch_outcome hn hbase hrows hr hm hcfg
  refine ⟨hret, fun r hlt => ?_, hframe⟩
  obtain ⟨w, c, out, s', ho⟩ := houtcome r hlt
  have harr := ho.holds.arrays_eq (hr r hlt) ho.scan ho.call
  refine ⟨⟨w, _, ho.selector, ho.returns, harr⟩, fun hone => ⟨_, ?_, harr⟩⟩
  rw [← lookup_at_eq_of_distinct (hr r hlt).wf ho.selector hone]
  exact ho.returns

/-- Two requests in the empty state, served by one launch. -/
theorem launch_refines_oracle_two : ∃ cfg, LaunchEnds asuSizes 2 2 (twoRows asuSizes) cfg ∧
    (∀ b t, cfg.1 b t = .ret ()) ∧
    ∀ r < 2, ∃ w res, Selector (emptyState asuSizes) (twiceRow asuSizes) w ∧
      lookup_allocate_evict_at w (twiceRow asuSizes) (emptyState asuSizes) = .ok res ∧
      arrays asuSizes (requestView asuSizes r cfg.2) = expected res := by
  have : Nonempty (Fin asuSizes.SIMT_THREADS) := ⟨⟨0, asuSizes_fits.threads_pos⟩⟩
  obtain ⟨cfg, hcfg⟩ := exists_gridStuck (Allocated asuSizes 2)
    (asuHbmIndexLookupSimtDo asuSizes 2, twoRows asuSizes)
  have hr : ∀ r < 2, Request asuSizes (emptyState asuSizes) (twiceRow asuSizes) := fun _ _ =>
    emptyState_request asuSizes_fits (by decide)
  have hm : ∀ r < 2, Loaded asuSizes (emptyState asuSizes) (twiceRow asuSizes)
      (requestView asuSizes r (twoRows asuSizes)) := by
    intro r hlt
    have hbase := asu_base_lt (by omega : r < 2 ^ 32)
    unfold twoRows
    exact setQueries_loaded (fun _ => twiceRow asuSizes) hbase hlt (emptyTensors_loaded hbase)
  have h := (launch_refines_oracle (by decide) le_rfl hr hm).2 cfg hcfg
  exact ⟨cfg, hcfg, h.1, fun r hr => (h.2.1 r hr).1⟩

/-! ## Launch after launch -/

/-- A served request holds the state that its call leaves. -/
theorem Outcome.stateLoaded {d : Sizes} {s s' : LookupState} {query : List ℤ} {m : Store}
    {w : ℤ → ℕ} {c : Scan} {out : Outputs} (h : Outcome d s query m w c out s') :
    StateLoaded d s' m := ⟨h.holds.fwd, h.holds.bwd, h.holds.lru⟩

section

variable {d : Sizes} {rows : ℕ} {s : ℕ → LookupState} {m m' : Mem Address ℤ}

/-- The state of each request meets the README invariants, has the operator's sizes and is the
one that the tensors hold. -/
structure Ready (d : Sizes) (rows : ℕ) (s : ℕ → LookupState) (m : Mem Address ℤ) : Prop where
  wf : ∀ r < rows, Wf (s r)
  fwd_length : ∀ r < rows, (s r).token_to_slot.length = d.INDEX_SIZE
  bwd_length : ∀ r < rows, (s r).slot_to_token.length = d.SLOT_COUNT
  loaded : ∀ r < rows, StateLoaded d (s r) (requestView d r m)

/-- The rows of a launch are rows of the tensors, and its queries have the operator's length. -/
def FitsTensors (d : Sizes) (rows : ℕ) (l : ℕ × (ℕ → List ℤ)) : Prop :=
  l.1 ≤ rows ∧ ∀ r < rows, (l.2 r).length = d.QUERY_COUNT

/-- A request of a launch is one that the kernel can serve. -/
theorem Ready.request (h : Ready d rows s m) (hfits : d.Fits) {l : ℕ × (ℕ → List ℤ)}
    (hl : FitsTensors d rows l) {r : ℕ} (hr : r < rows) : Request d (s r) (l.2 r) :=
  ⟨hfits, h.wf r hr, h.fwd_length r hr, h.bwd_length r hr, hl.2 r hr⟩

/-- One launch: the requests that it serves make a call each, the others keep their state. -/
theorem Ready.launch (h : Ready d rows s m) (hfits : d.Fits) (hn : rows < 2 ^ 32)
    (hbase : ∀ r < rows, ∀ x : Tensor, r * x.stride d < 2 ^ 64) {req_num : ℕ} {query : ℕ → List ℤ}
    (hl : FitsTensors d rows (req_num, query))
    {cfg : Grid (Fin req_num) (Fin d.SIMT_THREADS) Address ℤ Unit}
    (hcfg : LaunchEnds d req_num rows (setQueries d rows query m) cfg) :
    ∃ s', Ready d rows s' cfg.2 ∧ ∀ r < rows,
      (r < req_num → ∃ w out, Selector (s r) (query r) w ∧
        lookup_allocate_evict_at w (query r) (s r) = .ok (out, s' r)) ∧
      (req_num ≤ r → s' r = s r) := by
  have hle : req_num ≤ rows := hl.1
  have hloaded : ∀ r < rows, Loaded d (s r) (query r) (requestView d r (setQueries d rows query m)) :=
    fun r hr => setQueries_loaded query (hbase r hr) hr (h.loaded r hr)
  obtain ⟨_, houtcome, hframe⟩ := launch_outcome (by omega) (fun r hr => hbase r (by omega)) hle
    (fun r hr => h.request hfits hl (by omega)) (fun r hr => hloaded r (by omega)) hcfg
  have hrow : ∀ r, ∃ s', r < rows → (Wf s' ∧ s'.token_to_slot.length = d.INDEX_SIZE ∧
      s'.slot_to_token.length = d.SLOT_COUNT ∧ StateLoaded d s' (requestView d r cfg.2)) ∧
      (r < req_num → ∃ w out, Selector (s r) (query r) w ∧
        lookup_allocate_evict_at w (query r) (s r) = .ok (out, s')) ∧
      (req_num ≤ r → s' = s r) := by
    intro r
    by_cases hlt : r < req_num
    · obtain ⟨w, c, out, s', ho⟩ := houtcome r hlt
      refine ⟨s', fun hr => ⟨⟨ho.call.wf (h.wf r hr) ho.scan,
        ho.call.fwd_length.trans (h.fwd_length r hr), ho.call.bwd_length.trans (h.bwd_length r hr),
        ho.stateLoaded⟩, fun _ => ⟨w, out, ho.selector, ho.returns⟩, fun hge => by omega⟩⟩
    · refine ⟨s r, fun hr => ⟨⟨h.wf r hr, h.fwd_length r hr, h.bwd_length r hr, ?_⟩,
        fun hlt' => absurd hlt' hlt, fun _ => rfl⟩⟩
      -- the row of a request that is not served is as the host left it
      rw [requestView_unserved (hbase r hr) (by omega) hframe]
      exact ⟨(hloaded r hr).fwd, (hloaded r hr).bwd, (hloaded r hr).lru⟩
  choose s' hs' using hrow
  exact ⟨s', ⟨fun r hr => (hs' r hr).1.1, fun r hr => (hs' r hr).1.2.1,
    fun r hr => (hs' r hr).1.2.2.1, fun r hr => (hs' r hr).1.2.2.2⟩, fun r hr => (hs' r hr).2⟩

/-- **A run of launches**, from one to the next. -/
theorem Ready.launches (h : Ready d rows s m) (hfits : d.Fits) (hn : rows < 2 ^ 32)
    (hbase : ∀ r < rows, ∀ x : Tensor, r * x.stride d < 2 ^ 64)
    {launches : List (ℕ × (ℕ → List ℤ))} (hl : ∀ l ∈ launches, FitsTensors d rows l)
    (hrun : LaunchRun d rows launches m m') :
    ∃ s', Ready d rows s' m' ∧ ∀ r < rows, SelectedRun (queriesOf r launches) (s r) (s' r) := by
  induction hrun generalizing s with
  | nil m => exact ⟨s, h, fun r _ => .nil _⟩
  | @launch req_num query rest m m' cfg hcfg hrest ih =>
      obtain ⟨s1, h1, hcall⟩ := h.launch hfits hn hbase (hl _ List.mem_cons_self) hcfg
      obtain ⟨s', h', hruns⟩ := ih h1 fun l hmem => hl l (List.mem_cons_of_mem _ hmem)
      refine ⟨s', h', fun r hr => ?_⟩
      unfold queriesOf
      rw [List.filterMap_cons]
      by_cases hlt : r < req_num
      · obtain ⟨w, out, hw, hret⟩ := (hcall r hr).1 hlt
        simp only [if_pos hlt]
        exact .call hw hret (hruns r hr)
      · simp only [if_neg hlt]
        rw [← (hcall r hr).2 (by omega)]
        exact hruns r hr

end

/-- Any launches can be run to their ends. -/
theorem exists_launchRun {d : Sizes} (hfits : d.Fits) (rows : ℕ) (launches : List (ℕ × (ℕ → List ℤ)))
    (m : Mem Address ℤ) : ∃ m', LaunchRun d rows launches m m' := by
  have : Nonempty (Fin d.SIMT_THREADS) := ⟨⟨0, hfits.threads_pos⟩⟩
  induction launches generalizing m with
  | nil => exact ⟨m, .nil m⟩
  | cons l rest ih =>
      obtain ⟨cfg, hcfg⟩ := exists_gridStuck (Allocated d rows)
        (asuHbmIndexLookupSimtDo d l.1, setQueries d rows l.2 m)
      obtain ⟨m', hrest⟩ := ih cfg.2
      exact ⟨m', .launch hcfg hrest⟩

/-- **The invariants over any number of launches.** From state tensors that meet the README
invariants, any number of launches, each of any of the requests with any queries, goes through
in every interleaving; then each request's rows are the state that calls of the oracle leave on
its own queries, launch after launch, with the misses reported where selectors say, and that
state meets the README invariants again. -/
theorem launches_keep_requests {rows : ℕ} (hn : rows < 2 ^ 32) {s : ℕ → LookupState}
    {m : Mem Address ℤ} (h : Ready asuSizes rows s m) (launches : List (ℕ × (ℕ → List ℤ)))
    (hl : ∀ l ∈ launches, FitsTensors asuSizes rows l) :
    (∃ m', LaunchRun asuSizes rows launches m m') ∧
    ∀ m', LaunchRun asuSizes rows launches m m' → ∀ r < rows, ∃ s',
      SelectedRun (queriesOf r launches) (s r) s' ∧ Wf s' ∧
      StateLoaded asuSizes s' (requestView asuSizes r m') := by
  refine ⟨exists_launchRun asuSizes_fits rows launches m, fun m' hrun r hr => ?_⟩
  obtain ⟨s', h', hruns⟩ := h.launches asuSizes_fits hn
    (fun r hlt => asu_base_lt (lt_trans hlt hn)) hl hrun
  exact ⟨s' r, hruns r hr, h'.wf r hr, h'.loaded r hr⟩

/-- Two launches on two rows, the second one of the first request only. -/
theorem launches_keep_requests_two :
    ∃ m', LaunchRun asuSizes 2 [(2, fun _ => twiceRow asuSizes), (1, fun _ => twiceRow asuSizes)]
        (emptyTensors asuSizes) m' ∧
      ∃ s', SelectedRun [twiceRow asuSizes, twiceRow asuSizes] (emptyState asuSizes) s' ∧ Wf s' ∧
        StateLoaded asuSizes s' (requestView asuSizes 0 m') := by
  have hrow := emptyState_request asuSizes_fits (by decide : 2 ≤ asuSizes.QUERY_COUNT)
  have hready : Ready asuSizes 2 (fun _ => emptyState asuSizes) (emptyTensors asuSizes) :=
    ⟨fun _ _ => hrow.wf, fun _ _ => hrow.fwd_length, fun _ _ => hrow.bwd_length,
      fun r hr => emptyTensors_loaded (asu_base_lt (by omega))⟩
  have hfit : ∀ l ∈ [(2, fun _ : ℕ => twiceRow asuSizes), (1, fun _ : ℕ => twiceRow asuSizes)],
      FitsTensors asuSizes 2 l := by
    intro l hl
    simp only [List.mem_cons, List.not_mem_nil, or_false] at hl
    rcases hl with rfl | rfl
    · exact ⟨le_rfl, fun _ _ => hrow.query_length⟩
    · exact ⟨by omega, fun _ _ => hrow.query_length⟩
  obtain ⟨⟨m', hrun⟩, hkeep⟩ := launches_keep_requests (by decide) hready _ hfit
  exact ⟨m', hrun, hkeep m' hrun 0 (by decide)⟩

end AsuAscend.Simt
