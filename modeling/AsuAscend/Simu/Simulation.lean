/-
The runs of the eviction simulator.

`runSimulation` is `run_simulation`; each of its steps keeps, beside its statistics, the
cache before and after it, which the program drops. `runSimulation_balances`: no slot is
lost and every count adds up. `runSimulation_no_shortage`: with room for the queries of
one step, every miss finds a slot.

## Runs that do not return

A query of the hot-set or the Zipf workload draws until it has enough tokens, and a source of
draws may never give it any. So the loop has a fuel, and running out of it is an outcome of its
own (`noEnd`), which the statements about returning runs say nothing of. `makeZipfCdf` can raise:
a power overflows for some exponents. Both are cases of the results here, none is assumed away.
-/
import AsuAscend.Simu.Workload
import Mathlib.Data.Finset.Sort
import Mathlib.Data.Rat.Cast.Order

set_option autoImplicit false

open Draws

namespace AsuAscend.Simu

structure StepStats extends QueryStats where
  step : ℤ
  cpuEvictions : ℕ
  residentCount : ℕ
  freeSlots : ℕ

/-- A step with the caches around it. -/
structure StepRun where
  before : LRUManagedCache TokenKey
  stats : StepStats
  after : LRUManagedCache TokenKey

structure SimulationResult (F : Type) where
  config : SimulationConfig F
  steps : List StepRun
  total : StepStats

/-- The variables of the loop over the steps. -/
structure Simulation where
  cache : LRUManagedCache TokenKey
  steps : List StepRun
  total : StepStats

section Run

variable {F ρ : Type} (rng : RandomSource F ρ) [PyFloat F]

def resolveRequest (w : TopKWorkload F) (fuel stepId : ℕ) (s : LRUManagedCache TokenKey × QueryStats)
    (reqId : ℕ) : Gen String ρ (LRUManagedCache TokenKey × QueryStats) := do
  let tokens ← w.query rng fuel reqId stepId
  let (cache, stats) := s.1.resolveQuery tokens
  return (cache, s.2.add stats)

def simulateStep (config : SimulationConfig F) (w : TopKWorkload F) (fuel : ℕ)
    (cache : LRUManagedCache TokenKey) (stepId : ℕ) : Gen String ρ StepRun := do
  let (cpuEvictions, prepared) := cache.prepareFreeSlots
  let (after, stats) ← (List.range config.reqNum.toNat).foldlM (resolveRequest rng w fuel stepId)
    (prepared, .zero)
  return {
    before := cache
    stats := {
      toQueryStats := stats
      step := stepId
      cpuEvictions := cpuEvictions
      residentCount := after.residentCount
      freeSlots := after.freeSlots.length }
    after := after }

/-- One round of the loop over the steps. -/
def simulateRound (config : SimulationConfig F) (w : TopKWorkload F) (fuel : ℕ) (sim : Simulation)
    (stepId : ℕ) : Gen String ρ Simulation := do
  let run ← simulateStep rng config w fuel sim.cache stepId
  return {
    cache := run.after
    steps := sim.steps ++ [run]
    total := { sim.total with
      toQueryStats := sim.total.toQueryStats.add run.stats.toQueryStats
      cpuEvictions := sim.total.cpuEvictions + run.stats.cpuEvictions } }

def runSimulation (fuel : ℕ) (config : SimulationConfig F) : Gen String ρ (SimulationResult F) := do
  attempt (validateConfig config)
  let cache ← attempt (LRUManagedCache.init config.totalSlots config.freeSlotTarget)
  let w ← makeWorkload rng config
  let total : StepStats := ⟨.zero, -1, 0, 0, 0⟩
  let sim ← (List.range config.steps.toNat).foldlM (simulateRound rng config w fuel) ⟨cache, [], total⟩
  return {
    config := config
    steps := sim.steps
    total := { sim.total with
      residentCount := sim.cache.residentCount
      freeSlots := sim.cache.freeSlots.length } }

end Run

/-! ## The counts of a query -/

namespace LRUManagedCache

/-- `n` queries took the cache from `start` to `c`, with these counts. -/
structure Counted (start c : LRUManagedCache TokenKey) (stats : QueryStats) (n : ℕ) : Prop where
  queries : stats.queries = n
  misses : stats.installs + stats.shortages = stats.misses
  free : c.freeSlots.length + stats.installs = start.freeSlots.length
  starved : stats.shortages = 0 ∨ c.freeSlots = []
  target : c.freeSlotTarget = start.freeSlotTarget

variable {start c c' : LRUManagedCache TokenKey} {stats stats' : QueryStats} {m n : ℕ}

/-- Before the first token nothing has been counted. -/
theorem counted_zero (c : LRUManagedCache TokenKey) : Counted c c .zero 0 :=
  ⟨rfl, rfl, rfl, Or.inl rfl, rfl⟩

/-- One token more is a hit or a miss, and a miss is an install or a shortage. -/
theorem Counted.resolveToken (h : Counted start c stats n) (token : TokenKey) :
    Counted start (LRUManagedCache.resolveToken (c, stats) token).1
      (LRUManagedCache.resolveToken (c, stats) token).2 (n + 1) := by
  have hqueries := h.queries
  have hmisses := h.misses
  have hfree := h.free
  unfold QueryStats.queries at hqueries
  rcases c.resolveToken_cases stats token with
    ⟨_, hstep⟩ | ⟨free, slot, _, hslots, hstep⟩ | ⟨_, hslots, hstep⟩
  -- a hit
  · rw [hstep]
    refine ⟨?_, hmisses, hfree, h.starved, h.target⟩
    show stats.hits + 1 + stats.misses = n + 1
    omega
  -- a miss that is installed
  · rw [hstep]
    rw [hslots, List.length_append, List.length_singleton] at hfree
    refine ⟨?_, ?_, ?_, ?_, h.target⟩
    · show stats.hits + (stats.misses + 1) = n + 1
      omega
    · show stats.installs + 1 + stats.shortages = stats.misses + 1
      omega
    · show free.length + (stats.installs + 1) = start.freeSlots.length
      omega
    · -- there was a free slot, so no query has been short of one
      rcases h.starved with hzero | hnil
      · exact Or.inl hzero
      · rw [hslots] at hnil
        exact absurd hnil (List.concat_ne_nil slot free)
  -- a miss without a free slot
  · rw [hstep]
    refine ⟨?_, ?_, hfree, Or.inr hslots, h.target⟩
    · show stats.hits + (stats.misses + 1) = n + 1
      omega
    · show stats.installs + (stats.shortages + 1) = stats.misses + 1
      omega

theorem counted_resolveQuery (c : LRUManagedCache TokenKey) (tokens : List TokenKey) :
    Counted c (c.resolveQuery tokens).1 (c.resolveQuery tokens).2 tokens.length := by
  unfold LRUManagedCache.resolveQuery
  induction tokens using List.reverseRecOn with
  | nil => exact counted_zero c
  | append_singleton tokens token ih =>
      rw [List.foldl_append, List.length_append, List.length_singleton]
      exact ih.resolveToken token

/-- The counts of two queries in a row add up. -/
theorem Counted.add (h : Counted start c stats m) (h' : Counted c c' stats' n) :
    Counted start c' (stats.add stats') (m + n) := by
  have hqueries := h.queries
  have hqueries' := h'.queries
  have hmisses := h.misses
  have hmisses' := h'.misses
  have hfree := h.free
  have hfree' := h'.free
  unfold QueryStats.queries at hqueries hqueries'
  refine ⟨?_, ?_, ?_, ?_, h'.target.trans h.target⟩
  · show stats.hits + stats'.hits + (stats.misses + stats'.misses) = m + n
    omega
  · show stats.installs + stats'.installs + (stats.shortages + stats'.shortages) =
      stats.misses + stats'.misses
    omega
  · show c'.freeSlots.length + (stats.installs + stats'.installs) = start.freeSlots.length
    omega
  · show stats.shortages + stats'.shortages = 0 ∨ c'.freeSlots = []
    -- a query that was short found no free slot, and the second has none to start with
    rcases h.starved with hzero | hnil
    · rcases h'.starved with hzero' | hnil'
      · exact Or.inl (by omega)
      · exact Or.inr hnil'
    · right
      rw [hnil, List.length_nil] at hfree'
      exact List.length_eq_zero_iff.mp (by omega)

/-- With a free slot for every query there is no shortage. -/
theorem Counted.no_shortage (h : Counted start c stats n) (hn : n ≤ start.freeSlots.length) :
    stats.shortages = 0 := by
  rcases h.starved with hzero | hnil
  · exact hzero
  · have hqueries := h.queries
    have hmisses := h.misses
    have hfree := h.free
    unfold QueryStats.queries at hqueries
    rw [hnil, List.length_nil] at hfree
    omega

/-- Eviction always reaches the target. -/
theorem Conserves.evicted {total : ℕ} (h : c.Conserves total) :
    c.prepareFreeSlots.1 = c.freeSlotTarget - c.freeSlots.length ∧
      c.prepareFreeSlots.2.freeSlots.length = c.freeSlots.length + c.prepareFreeSlots.1 ∧
      c.prepareFreeSlots.2.freeSlotTarget = c.freeSlotTarget := by
  obtain ⟨n, hn, hevicted, htarget, hfree, _⟩ := c.prepareFreeSlots_spec
  have hcount := h.count
  have hle := h.target_le
  unfold residentCount at hcount
  refine ⟨by omega, ?_, htarget⟩
  rw [hfree, List.length_append, List.length_map, List.length_take, hevicted]
  show _ + min n c.residents.length = _
  omega

end LRUManagedCache

/-! ## Every step balances

`StepRun.Balanced` collects the equations of one step: hits and misses make up the queries, misses
are installs or shortages, and residents before and after differ by the installs and the
evictions. `Chained` says that a step begins with the cache that the step before has left. -/

/-- What is right about one step of a simulation. -/
structure StepRun.Balanced {F : Type} (config : SimulationConfig F) (run : StepRun) : Prop where
  slots : run.after.Conserves config.totalSlots.toNat
  resident_eq : run.stats.residentCount = run.after.residentCount
  free_eq : run.stats.freeSlots = run.after.freeSlots.length
  total : (run.stats.residentCount + run.stats.freeSlots : ℤ) = config.totalSlots
  queries : (run.stats.queries : ℤ) = config.reqNum * topkPerReq
  hits_misses : run.stats.hits + run.stats.misses = run.stats.queries
  installs_shortages : run.stats.installs + run.stats.shortages = run.stats.misses
  evictions : (run.stats.cpuEvictions : ℤ) =
    max 0 (config.freeSlotTarget - run.before.freeSlots.length)

/-- The steps follow each other: each begins with the cache the one before it left. -/
def Chained (first : LRUManagedCache TokenKey) (steps : List StepRun)
    (last : LRUManagedCache TokenKey) : Prop :=
  first :: steps.map StepRun.after = steps.map StepRun.before ++ [last]

/-- The target and the slots of a cache that belongs to the configuration. -/
structure Belongs {F : Type} (config : SimulationConfig F) (c : LRUManagedCache TokenKey) : Prop where
  slots : c.Conserves config.totalSlots.toNat
  target : (c.freeSlotTarget : ℤ) = config.freeSlotTarget

section Step

variable {F : Type} {config : SimulationConfig F}

/-- A valid configuration has no negative number of slots. -/
theorem Valid.totalSlots_nonneg (hvalid : Valid config) : 0 ≤ config.totalSlots :=
  Int.mul_nonneg hvalid.reqNum_pos.le hvalid.hbmSlots_pos.le

theorem Valid.freeSlotTarget_nonneg (hvalid : Valid config) : 0 ≤ config.freeSlotTarget := by
  have hper : 0 ≤ config.freeSlotsTargetPerReq.getD topkPerReq := by
    cases htarget : config.freeSlotsTargetPerReq with
    | none => exact Int.natCast_nonneg _
    | some target => exact hvalid.target_nonneg target htarget
  exact le_min hvalid.totalSlots_nonneg (Int.mul_nonneg hvalid.reqNum_pos.le hper)

/-- The cache a simulation starts with. -/
theorem init_belongs {c : LRUManagedCache TokenKey}
    (h : LRUManagedCache.init config.totalSlots config.freeSlotTarget = .ok c) : Belongs config c := by
  refine ⟨LRUManagedCache.conserves_init h, ?_⟩
  obtain ⟨_, htarget, rfl⟩ := LRUManagedCache.init_eq h
  have hle : config.freeSlotTarget ≤ config.totalSlots := min_le_left _ _
  show ((min config.freeSlotTarget config.totalSlots).toNat : ℤ) = config.freeSlotTarget
  omega

variable {ρ : Type} (rng : RandomSource F ρ) [PyFloat F] {E : String → Prop} {w : TopKWorkload F}

/-- The requests of one step. -/
theorem requests_yields (hw : Prepared w) (hconfig : w.config = config) (fuel stepId : ℕ)
    {c : LRUManagedCache TokenKey} {total : ℕ} (hc : c.Conserves total) :
    Yields (fun s => s.1.Conserves total ∧
        LRUManagedCache.Counted c s.1 s.2 (config.reqNum.toNat * topkPerReq)) E
      ((List.range config.reqNum.toNat).foldlM (resolveRequest rng w fuel stepId) (c, .zero)) := by
  have hloop := yields_foldlM (E := E) (f := resolveRequest rng w fuel stepId)
    (fun pre s => s.1.Conserves total ∧ LRUManagedCache.Counted c s.1 s.2 (pre.length * topkPerReq))
    (List.range config.reqNum.toNat) (a := (c, .zero)) ⟨hc, ?_⟩ ?_
  · rw [List.length_range] at hloop
    exact hloop
  · rw [List.length_nil, Nat.zero_mul]
    exact LRUManagedCache.counted_zero c
  · intro pre reqId suf s hsplit hs
    have hreq : reqId < w.config.reqNum.toNat := by
      have hmem : reqId ∈ List.range config.reqNum.toNat := by
        rw [hsplit]
        exact List.mem_append_right pre List.mem_cons_self
      rw [hconfig]
      exact List.mem_range.mp hmem
    refine (query_yields rng hw fuel hreq stepId).bind fun tokens htokens => ?_
    refine yields_pure ⟨hs.1.resolveQuery tokens, ?_⟩
    have hcounted := hs.2.add (LRUManagedCache.counted_resolveQuery s.1 tokens)
    rw [htokens.1] at hcounted
    rw [List.length_append, List.length_singleton, Nat.add_mul, Nat.one_mul]
    exact hcounted

/-- What a step does, with the counts that `runSimulation_balances` and
`runSimulation_no_shortage` are read off. -/
theorem simulateStep_yields (hw : Prepared w) (hconfig : w.config = config) (fuel stepId : ℕ)
    {c : LRUManagedCache TokenKey} (hc : Belongs config c) :
    Yields (fun run => run.before = c ∧ Belongs config run.after ∧ run.Balanced config ∧
        run.after.residentCount + run.stats.cpuEvictions =
          c.residentCount + run.stats.installs ∧
        (config.reqNum * topkPerReq ≤ config.freeSlotTarget → run.stats.shortages = 0)) E
      (simulateStep rng config w fuel c stepId) := by
  have hvalid : Valid config := hconfig ▸ hw.valid
  obtain ⟨hevicted, hprepared, htarget⟩ := hc.slots.evicted
  have hrequests := requests_yields rng (E := E) hw hconfig fuel stepId hc.slots.prepare
  refine Yields.bind (g := (List.range config.reqNum.toNat).foldlM (resolveRequest rng w fuel stepId)
    (c.prepareFreeSlots.2, .zero)) hrequests fun s hs => yields_pure ?_
  obtain ⟨hslots, hcounted⟩ := hs
  have hcount := hslots.count
  have hcountBefore := hc.slots.count
  have hfree := hcounted.free
  have hqueries := hcounted.queries
  have htotal := hvalid.totalSlots_nonneg
  have hreq := hvalid.reqNum_pos
  have hbelongs := hc.target
  -- what the counters say follows from the free slots before, between and after
  refine ⟨rfl, ⟨hslots, ?_⟩, ?_, ?_, ?_⟩
  · rw [hcounted.target, htarget]
    exact hc.target
  · refine ⟨hslots, rfl, rfl, ?_, ?_, rfl, hcounted.misses, ?_⟩
    · show (s.1.residentCount + s.1.freeSlots.length : ℤ) = config.totalSlots
      omega
    · show ((s.2.queries : ℕ) : ℤ) = config.reqNum * topkPerReq
      rw [hqueries, Int.natCast_mul, Int.toNat_of_nonneg hreq.le]
    · show ((c.prepareFreeSlots.1 : ℕ) : ℤ) = max 0 (config.freeSlotTarget - c.freeSlots.length)
      omega
  · show s.1.residentCount + c.prepareFreeSlots.1 = c.residentCount + s.2.installs
    omega
  · intro henough
    apply hcounted.no_shortage
    have hneed : ((config.reqNum.toNat * topkPerReq : ℕ) : ℤ) ≤ config.freeSlotTarget := by
      rw [Int.natCast_mul, Int.toNat_of_nonneg hreq.le]
      exact henough
    omega

/-! ## Whole simulations -/

/-- What is right after the steps so far, of a simulation that began with `first`. -/
structure Simulation.Balanced (config : SimulationConfig F) (first : LRUManagedCache TokenKey)
    (sim : Simulation) : Prop where
  cache : Belongs config sim.cache
  chained : Chained first sim.steps sim.cache
  steps : ∀ run ∈ sim.steps, run.Balanced config
  sum : sim.total.toQueryStats =
    sim.steps.foldl (fun sum run => sum.add run.stats.toQueryStats) .zero
  evictions : sim.total.cpuEvictions = (sim.steps.map fun run => run.stats.cpuEvictions).sum
  resident : sim.cache.residentCount + sim.total.cpuEvictions = sim.total.installs
  shortages : config.reqNum * topkPerReq ≤ config.freeSlotTarget →
    sim.total.shortages = 0 ∧ ∀ run ∈ sim.steps, run.stats.shortages = 0

/-- **One step** more, with the totals kept. -/
theorem simulateRound_yields (hw : Prepared w) (hconfig : w.config = config) (fuel stepId : ℕ)
    {first : LRUManagedCache TokenKey} {sim : Simulation} (h : sim.Balanced config first) :
    Yields (fun sim' => sim'.Balanced config first ∧ sim'.steps.length = sim.steps.length + 1) E
      (simulateRound rng config w fuel sim stepId) := by
  refine (simulateStep_yields rng hw hconfig fuel stepId h.cache).bind fun run hrun => yields_pure ?_
  obtain ⟨hbefore, hafter, hbalanced, hresident, hshort⟩ := hrun
  refine ⟨⟨hafter, ?_, ?_, ?_, ?_, ?_, ?_⟩, List.length_append⟩
  -- the step begins with the cache that the last one has left
  · have hchained := h.chained
    unfold Chained at hchained ⊢
    rw [List.map_append, List.map_append, ← List.cons_append, hchained, List.append_assoc,
      List.append_assoc, List.map_singleton, List.map_singleton, hbefore]
  · intro run' hmem
    rcases List.mem_append.mp hmem with hold | hnew
    · exact h.steps run' hold
    · rw [List.mem_singleton.mp hnew]
      exact hbalanced
  -- the totals are the sums of the steps, one count after the other
  · show sim.total.toQueryStats.add run.stats.toQueryStats = _
    rw [List.foldl_append, ← h.sum]
    rfl
  · show sim.total.cpuEvictions + run.stats.cpuEvictions = _
    rw [List.map_append, List.sum_append, ← h.evictions, List.map_singleton, List.sum_singleton]
  · show run.after.residentCount + (sim.total.cpuEvictions + run.stats.cpuEvictions) =
      sim.total.installs + run.stats.installs
    have := h.resident
    omega
  -- no step has a shortage, the new one neither
  · intro hneed
    obtain ⟨htotal, hsteps⟩ := h.shortages hneed
    refine ⟨?_, fun run' hmem => ?_⟩
    · show sim.total.shortages + run.stats.shortages = 0
      rw [htotal, hshort hneed]
    · rcases List.mem_append.mp hmem with hold | hnew
      · exact hsteps run' hold
      · rw [List.mem_singleton.mp hnew]
        exact hshort hneed

/-- What is right about the result of a simulation. -/
structure SimulationResult.Balanced (config : SimulationConfig F) (result : SimulationResult F) :
    Prop where
  steps_length : (result.steps.length : ℤ) = config.steps
  chained : ∃ first last, LRUManagedCache.init config.totalSlots config.freeSlotTarget = .ok first ∧
    Chained first result.steps last ∧ result.total.residentCount = last.residentCount ∧
    result.total.freeSlots = last.freeSlots.length
  steps : ∀ run ∈ result.steps, run.Balanced config
  sum : result.total.toQueryStats =
    result.steps.foldl (fun sum run => sum.add run.stats.toQueryStats) .zero
  evictions : result.total.cpuEvictions = (result.steps.map fun run => run.stats.cpuEvictions).sum
  resident : (result.total.residentCount : ℤ) = result.total.installs - result.total.cpuEvictions

variable (config) in
/-- **A whole run**: it is balanced, and has no shortage if the target covers a step. The Zipf
weights alone can raise. -/
theorem runSimulation_yields (hvalid : validateConfig config = .ok ()) (fuel : ℕ) :
    Yields (fun result => result.Balanced config ∧
        (config.reqNum * topkPerReq ≤ config.freeSlotTarget →
          result.total.shortages = 0 ∧ ∀ run ∈ result.steps, run.stats.shortages = 0))
      (fun e => makeZipfCdf config = .error e) (runSimulation rng fuel config) := by
  have hv := valid_of_validateConfig hvalid
  unfold runSimulation
  rw [hvalid]
  refine Yields.bind (P := fun _ => True) (yields_pure trivial) fun _ _ => ?_
  refine Yields.bind (P := fun c => LRUManagedCache.init config.totalSlots config.freeSlotTarget = .ok c)
    (yields_attempt (fun _ h => h) fun e he => ?_) fun first hfirst => ?_
  · exfalso
    -- `LRUManagedCache.init` rejects only what `validateConfig` has rejected
    have htotal := hv.totalSlots_nonneg
    have htarget := hv.freeSlotTarget_nonneg
    unfold LRUManagedCache.init at he
    rw [if_neg (by omega), if_neg (by omega)] at he
    cases he
  refine (makeWorkload_yields rng hv).bind fun w hw => ?_
  obtain ⟨hconfig, hprepared⟩ := hw
  have hloop := yields_foldlM (E := fun e => makeZipfCdf config = .error e)
    (f := simulateRound rng config w fuel)
    (fun pre sim => sim.Balanced config first ∧ sim.steps.length = pre.length)
    (List.range config.steps.toNat) (a := ⟨first, [], ⟨.zero, -1, 0, 0, 0⟩⟩) ⟨?_, rfl⟩ ?_
  · refine hloop.bind fun sim hsim => yields_pure ?_
    obtain ⟨hbalanced, hlength⟩ := hsim
    rw [List.length_range] at hlength
    refine ⟨⟨?_, ⟨first, sim.cache, hfirst, hbalanced.chained, rfl, rfl⟩, hbalanced.steps,
      hbalanced.sum, hbalanced.evictions, ?_⟩, hbalanced.shortages⟩
    · show (sim.steps.length : ℤ) = config.steps
      have := hv.steps_pos
      omega
    · show (sim.cache.residentCount : ℤ) = sim.total.installs - sim.total.cpuEvictions
      have := hbalanced.resident
      omega
  · refine ⟨init_belongs hfirst, rfl, fun _ h => absurd h List.not_mem_nil, rfl, rfl, ?_,
      fun _ => ⟨rfl, fun _ h => absurd h List.not_mem_nil⟩⟩
    obtain ⟨_, _, rfl⟩ := LRUManagedCache.init_eq hfirst
    rfl
  · intro pre stepId suf sim _ hsim
    refine (simulateRound_yields rng hprepared hconfig fuel stepId hsim.1).mono fun sim' h => ?_
    refine ⟨h.1, ?_⟩
    rw [h.2, hsim.2, List.length_append, List.length_singleton]

end Step

/-! ## Simulations that end -/

section Settle

variable {F ρ : Type} (rng : RandomSource F ρ) [PyFloat F] {config : SimulationConfig F}

/-- Without the loop that fills up a set of tokens, generation ends. -/
theorem query_settles {w : TopKWorkload F}
    (h : w.config.workload = .uniform ∨ w.config.workload = .sliding) (fuel reqId step : ℕ) :
    Settles (w.query rng fuel reqId step) := by
  have hids : Settles (w.tokenIds rng fuel reqId step) := by
    unfold TopKWorkload.tokenIds
    rcases h with hworkload | hworkload
    · rw [hworkload]
      exact sampled_settles rng _ _
    · rw [hworkload]
      exact sampled_settles rng _ _
  exact hids.bind fun _ => settles_pure _

theorem makeWorkload_settles (config : SimulationConfig F) : Settles (makeWorkload rng config) := by
  have hhotsets : Settles (makeHotsets rng config) := by
    unfold makeHotsets
    split_ifs
    · exact settles_pure []
    · exact settles_mapM (fun _ => sampled_settles rng _ _) _
  refine (settles_set _).bind fun _ => hhotsets.bind fun _ => ?_
  exact (settles_attempt _).bind fun _ => settles_pure _

/-- A simulation of one of these workloads ends, with any fuel. -/
theorem runSimulation_settles (hvalid : validateConfig config = .ok ())
    (h : config.workload = .uniform ∨ config.workload = .sliding) (fuel : ℕ) :
    Settles (runSimulation rng fuel config) := by
  unfold runSimulation
  refine (settles_attempt _).bind fun _ => (settles_attempt _).bind fun cache => ?_
  have hmake := makeWorkload_yields rng (valid_of_validateConfig hvalid)
  refine (makeWorkload_settles rng config).bind_of_yields hmake fun w hw => ?_
  refine (settles_foldlM (fun sim stepId => ?_) _ _).bind fun _ => settles_pure _
  refine Settles.bind ?_ fun _ => settles_pure _
  refine Settles.bind (settles_foldlM (fun c reqId => ?_) _ _) fun _ => settles_pure _
  exact (query_settles rng (hw.1 ▸ h) fuel reqId stepId).bind fun _ => settles_pure _

end Settle

/-! ## What a simulation reports -/

section Result

variable {F ρ : Type} (rng : RandomSource F ρ) [PyFloat F] {config : SimulationConfig F} {fuel : ℕ}
  {s : ρ} {r : Except String (SimulationResult F × ρ)}

/-- A simulation that ends has lost no slot, and all its counts add up; the one thing that
raises is a power of the Zipf distribution that overflows. -/
theorem runSimulation_balances (hvalid : validateConfig config = .ok ())
    (hrun : runFrom (runSimulation rng fuel config) s = some r) :
    (∃ e, makeZipfCdf config = .error e ∧ r = .error e) ∨
    ∃ result s', r = .ok (result, s') ∧ result.Balanced config := by
  have h := runSimulation_yields config rng hvalid fuel s r hrun
  cases r with
  | error e => exact Or.inl ⟨e, h, rfl⟩
  | ok p => exact Or.inr ⟨p.1, p.2, rfl, h.1⟩

end Result

/-- Floats without rounding; the powers are those with a whole exponent. -/
instance : PyFloat ℚ where
  decidableLE := inferInstance
  decidableLT := inferInstance
  pow rank exponent := .ok ((rank : ℚ) ^ exponent.num.toNat)

/-- The generator whose every draw is the first of what it can be. -/
def firstDraws : RandomSource ℚ Unit where
  seeded _ := ()
  random _ := (0, ())
  randrange _ _ := (0, ())
  choice population _ := (population.headD 0, ())
  sample population k _ := (population.take k, ())
  listOfSet tokens := tokens.added.toFinset.sort (· ≤ ·)
  randrange_lt _ _ h := h
  choice_mem population _ h := by
    cases population with
    | nil => exact absurd rfl h
    | cons token _ => exact List.mem_cons_self
  sample_length population k _ h := by
    rw [List.length_take, Nat.min_eq_left h]
  sample_subperm population k _ _ := (List.take_sublist k population).subperm
  listOfSet_nodup tokens := tokens.added.toFinset.sort_nodup (· ≤ ·)
  mem_listOfSet tokens _ := (Finset.mem_sort (· ≤ ·)).trans List.mem_toFinset

/-- Two requests with 4096 slots each, over three steps. -/
def uniformConfig : SimulationConfig ℚ where
  reqNum := 2
  steps := 3
  managedTokensPerReq := 4096
  hbmSlotsPerReq := 4096
  freeSlotsTargetPerReq := none
  workload := .uniform
  hotsetSize := 4096
  hotsetProb := 1
  zipfExponent := 1
  seed := 7

theorem validateConfig_uniformConfig : validateConfig uniformConfig = .ok () := by decide

/-- The run of the example comes to an end, since the uniform workload draws in one go. -/
theorem uniformConfig_ends : ∃ r, runFrom (runSimulation firstDraws 0 uniformConfig) () = some r :=
  Option.ne_none_iff_exists'.mp
    (runSimulation_settles firstDraws validateConfig_uniformConfig (Or.inl rfl) 0 ())

theorem runSimulation_balances_uniform : ∃ result s',
    runFrom (runSimulation firstDraws 0 uniformConfig) () = some (.ok (result, s')) ∧
    result.Balanced uniformConfig := by
  obtain ⟨r, hr⟩ := uniformConfig_ends
  rcases runSimulation_balances firstDraws validateConfig_uniformConfig hr with
    ⟨e, he, _⟩ | ⟨result, s', rfl, hbalanced⟩
  · cases he
  · exact ⟨result, s', hr, hbalanced⟩

section Shortage

variable {F ρ : Type} (rng : RandomSource F ρ) [PyFloat F] {config : SimulationConfig F} {fuel : ℕ}
  {s : ρ} {r : Except String (SimulationResult F × ρ)}

/-- With slots and a target for the queries of a step, every miss finds a free slot. -/
theorem runSimulation_no_shortage (hvalid : validateConfig config = .ok ())
    (hslots : topkPerReq ≤ config.hbmSlotsPerReq)
    (htarget : ∀ target, config.freeSlotsTargetPerReq = some target → topkPerReq ≤ target)
    (hrun : runFrom (runSimulation rng fuel config) s = some r) :
    (∃ e, makeZipfCdf config = .error e ∧ r = .error e) ∨
    ∃ result s', r = .ok (result, s') ∧ result.total.shortages = 0 ∧
      ∀ run ∈ result.steps, run.stats.shortages = 0 ∧ run.stats.installs = run.stats.misses := by
  have h := runSimulation_yields config rng hvalid fuel s r hrun
  cases r with
  | error e => exact Or.inl ⟨e, h, rfl⟩
  | ok p =>
      have hreq := (valid_of_validateConfig hvalid).reqNum_pos
      have hper : topkPerReq ≤ config.freeSlotsTargetPerReq.getD topkPerReq := by
        cases hcase : config.freeSlotsTargetPerReq with
        | none => exact le_refl _
        | some target => exact htarget target hcase
      -- whether clamped or not, the target covers the queries of a step
      have hneed : config.reqNum * topkPerReq ≤ config.freeSlotTarget := by
        apply le_min
        · exact Int.mul_le_mul_of_nonneg_left hslots hreq.le
        · exact Int.mul_le_mul_of_nonneg_left hper hreq.le
      obtain ⟨htotal, hsteps⟩ := h.2 hneed
      refine Or.inr ⟨p.1, p.2, rfl, htotal, fun run hmem => ⟨hsteps run hmem, ?_⟩⟩
      have hsum := (h.1.steps run hmem).installs_shortages
      rw [hsteps run hmem] at hsum
      exact hsum

end Shortage

theorem runSimulation_no_shortage_uniform : ∃ result s',
    runFrom (runSimulation firstDraws 0 uniformConfig) () = some (.ok (result, s')) ∧
    result.total.shortages = 0 := by
  obtain ⟨r, hr⟩ := uniformConfig_ends
  rcases runSimulation_no_shortage firstDraws validateConfig_uniformConfig (by decide)
      (fun _ h => by cases h) hr with ⟨e, he, _⟩ | ⟨result, s', rfl, htotal, _⟩
  · cases he
  · exact ⟨result, s', hr, htotal⟩

end AsuAscend.Simu
