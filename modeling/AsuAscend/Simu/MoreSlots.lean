/-
Simulations that differ in the size of the HBM.

`--hbm-slots-per-req` changes neither the draws nor the queries, only the pool. The
residents of the smaller pool are then at any time a sublist of those of the larger one,
which has as many free slots or more (`Above`): what the smaller pool evicts to reach its
target includes what the larger one evicts, or is all it has. So every step has as many
hits or more and as many shortages or fewer (`runSimulation_more_slots`), also where the
pools run out of free slots.

## Two runs with the same draws

The two simulations are run on the same source of draws. `Mirrors` (`Lib.Draws`) relates two
generators that draw alike and have related results; the generators of the workload mirror
each other because the number of slots is nothing that they look at, the operations on the
caches because of `Above`. The target of free slots is clamped to the pool, so the larger pool
may have the larger target: what it keeps is compared in `Beside.prepare`.
-/
import AsuAscend.Simu.Simulation

set_option autoImplicit false

open Draws

namespace AsuAscend.Simu

/-- The same simulation with another number of slots. -/
def SimulationConfig.withSlots {F : Type} (config : SimulationConfig F) (slots : ℤ) :
    SimulationConfig F := { config with hbmSlotsPerReq := slots }

/-- The pool `c'` holds the residents of `c`, in the same order, and has as many free slots. -/
structure Above {Token : Type} (c c' : LRUManagedCache Token) : Prop where
  residents : c.residents.keys.Sublist c'.residents.keys
  free : c.freeSlots.length ≤ c'.freeSlots.length

/-- As many queries, no fewer hits and no more shortages. -/
structure NoWorse (stats stats' : QueryStats) : Prop where
  queries : stats'.queries = stats.queries
  hits : stats.hits ≤ stats'.hits
  shortages : stats'.shortages ≤ stats.shortages

theorem NoWorse.refl (stats : QueryStats) : NoWorse stats stats := ⟨rfl, le_rfl, le_rfl⟩

/-- Counts that are no worse add up to counts that are no worse. -/
theorem NoWorse.add {stats₁ stats₁' stats₂ stats₂' : QueryStats} (h₁ : NoWorse stats₁ stats₁')
    (h₂ : NoWorse stats₂ stats₂') : NoWorse (stats₁.add stats₂) (stats₁'.add stats₂') := by
  refine ⟨?_, Nat.add_le_add h₁.hits h₂.hits, Nat.add_le_add h₁.shortages h₂.shortages⟩
  have hq₁ := h₁.queries
  have hq₂ := h₂.queries
  unfold QueryStats.queries QueryStats.add at *
  dsimp only
  omega

/-! ## The two operations -/

section Pool

variable {Token : Type} [DecidableEq Token] {c c' : LRUManagedCache Token} {stats stats' : QueryStats}

/-- One query. A token that only `c'` holds is a hit there, and installed in `c` if there is room. -/
theorem Above.resolveToken (h : Above c c') (hstats : NoWorse stats stats') (token : Token) :
    Above (LRUManagedCache.resolveToken (c, stats) token).1
        (LRUManagedCache.resolveToken (c', stats') token).1 ∧
      NoWorse (LRUManagedCache.resolveToken (c, stats) token).2
        (LRUManagedCache.resolveToken (c', stats') token).2 := by
  have hsub : token ∈ c.residents → token ∈ c'.residents := fun hmem => h.residents.subset hmem
  have hfree := h.free
  have hqueries := hstats.queries
  have hhits := hstats.hits
  have hshort := hstats.shortages
  unfold QueryStats.queries at hqueries
  -- the keys of `c` also remain where `c'` moves or appends the token
  have hkeep : token ∉ c.residents → c.residents.keys.Sublist (c'.residents.keys.erase token) := by
    intro hnot
    have herase := h.residents.erase token
    rwa [List.erase_of_not_mem (OrderedDict.mem_iff.not.mp hnot)] at herase
  rcases c.resolveToken_cases stats token with
      ⟨hmem, hstep⟩ | ⟨free, slot, hmem, hslots, hstep⟩ | ⟨hmem, hslots, hstep⟩ <;>
    rcases c'.resolveToken_cases stats' token with
      ⟨hmem', hstep'⟩ | ⟨free', slot', hmem', hslots', hstep'⟩ | ⟨hmem', hslots', hstep'⟩ <;>
    rw [hstep, hstep']
  · refine ⟨⟨?_, hfree⟩, ⟨?_, ?_, hshort⟩⟩
    · show (c.residents.moveToEnd token).keys.Sublist (c'.residents.moveToEnd token).keys
      rw [OrderedDict.keys_moveToEnd hmem, OrderedDict.keys_moveToEnd hmem']
      exact (h.residents.erase token).append_right _
    · show stats'.hits + 1 + stats'.misses = stats.hits + 1 + stats.misses
      omega
    · exact Nat.succ_le_succ hhits
  · exact absurd (hsub hmem) hmem'
  · exact absurd (hsub hmem) hmem'
  · rw [hslots, List.length_append, List.length_singleton] at hfree
    refine ⟨⟨?_, ?_⟩, ⟨?_, ?_, hshort⟩⟩
    · show (c.residents.insert token slot).keys.Sublist (c'.residents.moveToEnd token).keys
      rw [OrderedDict.keys_insert hmem, OrderedDict.keys_moveToEnd hmem']
      exact (hkeep hmem).append_right _
    · show free.length ≤ c'.freeSlots.length
      omega
    · show stats'.hits + 1 + stats'.misses = stats.hits + (stats.misses + 1)
      omega
    · exact Nat.le_succ_of_le hhits
  · rw [hslots, hslots', List.length_append, List.length_append, List.length_singleton,
      List.length_singleton] at hfree
    refine ⟨⟨?_, ?_⟩, ⟨?_, hhits, hshort⟩⟩
    · show (c.residents.insert token slot).keys.Sublist (c'.residents.insert token slot').keys
      rw [OrderedDict.keys_insert hmem, OrderedDict.keys_insert hmem']
      exact h.residents.append_right _
    · show free.length ≤ free'.length
      omega
    · show stats'.hits + (stats'.misses + 1) = stats.hits + (stats.misses + 1)
      omega
  · rw [hslots, hslots', List.length_append, List.length_singleton, List.length_nil] at hfree
    omega
  · refine ⟨⟨?_, hfree⟩, ⟨?_, ?_, ?_⟩⟩
    · show c.residents.keys.Sublist (c'.residents.moveToEnd token).keys
      rw [OrderedDict.keys_moveToEnd hmem']
      exact (hkeep hmem).trans (List.sublist_append_left _ _)
    · show stats'.hits + 1 + stats'.misses = stats.hits + (stats.misses + 1)
      omega
    · exact Nat.le_succ_of_le hhits
    · exact Nat.le_succ_of_le hshort
  · refine ⟨⟨?_, ?_⟩, ⟨?_, hhits, ?_⟩⟩
    · show c.residents.keys.Sublist (c'.residents.insert token slot').keys
      rw [OrderedDict.keys_insert hmem']
      exact h.residents.trans (List.sublist_append_left _ _)
    · show c.freeSlots.length ≤ free'.length
      rw [hslots]
      exact Nat.zero_le _
    · show stats'.hits + (stats'.misses + 1) = stats.hits + (stats.misses + 1)
      omega
    · exact Nat.le_succ_of_le hshort
  · refine ⟨h, ⟨?_, hhits, Nat.succ_le_succ hshort⟩⟩
    show stats'.hits + (stats'.misses + 1) = stats.hits + (stats.misses + 1)
    omega

/-- A query keeps the larger cache above the smaller, and counts no worse on it. -/
theorem Above.resolveQuery (h : Above c c') (tokens : List Token) :
    Above (c.resolveQuery tokens).1 (c'.resolveQuery tokens).1 ∧
      NoWorse (c.resolveQuery tokens).2 (c'.resolveQuery tokens).2 := by
  unfold LRUManagedCache.resolveQuery
  have hstats := NoWorse.refl .zero
  generalize QueryStats.zero = stats at hstats ⊢
  have key : ∀ s s' : LRUManagedCache Token × QueryStats, Above s.1 s'.1 → NoWorse s.2 s'.2 →
      Above (tokens.foldl LRUManagedCache.resolveToken s).1
          (tokens.foldl LRUManagedCache.resolveToken s').1 ∧
        NoWorse (tokens.foldl LRUManagedCache.resolveToken s).2
          (tokens.foldl LRUManagedCache.resolveToken s').2 := by
    induction tokens with
    | nil => exact fun _ _ h hstats => ⟨h, hstats⟩
    | cons token tokens ih =>
        intro s s' h hstats
        obtain ⟨h', hstats'⟩ := h.resolveToken hstats token
        exact ih _ _ h' hstats'
  exact key _ _ h hstats

/-- Eviction. The targets are the same unless the smaller one is all slots of its pool. -/
theorem Above.prepare {c c' : LRUManagedCache TokenKey} (h : Above c c') {total total' : ℕ} (hc : c.Conserves total)
    (hc' : c'.Conserves total')
    (htarget : c.freeSlotTarget = c'.freeSlotTarget ∨
      c.freeSlotTarget = total ∧ total ≤ c'.freeSlotTarget) :
    Above c.prepareFreeSlots.2 c'.prepareFreeSlots.2 := by
  obtain ⟨hn, hlen, _⟩ := hc.evicted
  obtain ⟨hn', hlen', _⟩ := hc'.evicted
  obtain ⟨n, _, hevicted, _, _, hentries⟩ := c.prepareFreeSlots_spec
  obtain ⟨n', _, hevicted', _, _, hentries'⟩ := c'.prepareFreeSlots_spec
  -- either pool loses its first keys
  have hkeys : c.prepareFreeSlots.2.residents.keys = c.residents.keys.drop n := by
    unfold OrderedDict.keys
    rw [hentries, List.map_drop]
  have hkeys' : c'.prepareFreeSlots.2.residents.keys = c'.residents.keys.drop n' := by
    unfold OrderedDict.keys
    rw [hentries', List.map_drop]
  have hfree := h.free
  refine ⟨?_, by omega⟩
  rw [hkeys, hkeys']
  rcases htarget with hsame | ⟨hall, hle⟩
  · -- what the larger pool evicts the smaller one has evicted too
    have hle : n' ≤ n := by omega
    have hfirst := List.drop_sublist (n - n') (c.residents.keys.drop n')
    rw [List.drop_drop, Nat.add_sub_cancel' hle] at hfirst
    exact hfirst.trans (h.residents.drop n')
  · -- the smaller pool has evicted everything
    have hcount := hc.count
    have hempty : c.residents.keys.drop n = [] := by
      rw [List.drop_eq_nil_iff, OrderedDict.length_keys]
      unfold LRUManagedCache.residentCount at hcount
      omega
    rw [hempty]
    exact List.nil_sublist _

end Pool

/-! ## The generators -/

section Generators

variable {F ρ : Type} (rng : RandomSource F ρ) [PyFloat F]

/-- The same generators with another number of slots. -/
def TopKWorkload.withSlots (w : TopKWorkload F) (slots : ℤ) : TopKWorkload F :=
  { w with config := w.config.withSlots slots }

variable (w : TopKWorkload F) (slots : ℤ)

omit [PyFloat F] in
/-- The number of slots has no part in the draws that fill up a set. -/
theorem fillUniqueTokens_withSlots (fuel : ℕ) (tokens : TokenSet) :
    (w.withSlots slots).fillUniqueTokens rng fuel tokens = w.fillUniqueTokens rng fuel tokens := by
  induction fuel generalizing tokens with
  | zero => rfl
  | succ fuel ih =>
      unfold TopKWorkload.fillUniqueTokens
      simp only [ih]
      rfl

/-- Nor in the attempts of a hot set. -/
theorem hotsetAttempts_withSlots (hotset : List ℕ) (attempts : ℕ) (tokens : TokenSet) :
    (w.withSlots slots).hotsetAttempts rng hotset attempts tokens =
      w.hotsetAttempts rng hotset attempts tokens := by
  induction attempts generalizing tokens with
  | zero => rfl
  | succ attempts ih =>
      unfold TopKWorkload.hotsetAttempts
      simp only [ih]
      rfl

theorem zipfAttempts_withSlots (totalWeight : F) (attempts : ℕ) (tokens : TokenSet) :
    (w.withSlots slots).zipfAttempts rng totalWeight attempts tokens =
      w.zipfAttempts rng totalWeight attempts tokens := by
  induction attempts generalizing tokens with
  | zero => rfl
  | succ attempts ih =>
      unfold TopKWorkload.zipfAttempts
      simp only [ih]
      rfl

/-- The queries do not depend on the number of slots. -/
theorem query_withSlots (fuel reqId step : ℕ) :
    (w.withSlots slots).query rng fuel reqId step = w.query rng fuel reqId step := by
  have hhotset : (w.withSlots slots).hotsetTokens rng fuel reqId = w.hotsetTokens rng fuel reqId := by
    unfold TopKWorkload.hotsetTokens
    simp only [hotsetAttempts_withSlots, fillUniqueTokens_withSlots]
    rfl
  have hzipf : (w.withSlots slots).zipfTokens rng fuel = w.zipfTokens rng fuel := by
    unfold TopKWorkload.zipfTokens
    simp only [zipfAttempts_withSlots, fillUniqueTokens_withSlots]
    rfl
  unfold TopKWorkload.query TopKWorkload.tokenIds
  rw [hhotset, hzipf]
  rfl

/-- The two workloads are made by the same draws. -/
theorem makeWorkload_mirrors (config : SimulationConfig F) :
    Mirrors (fun w w' => w' = w.withSlots slots) (makeWorkload rng config)
      (makeWorkload rng (config.withSlots slots)) := by
  unfold makeWorkload
  refine Mirrors.bind (mirrors_refl (R := Eq) (fun _ => rfl) _) fun _ _ _ => ?_
  refine Mirrors.bind (mirrors_refl (R := Eq) (fun _ => rfl) _) fun hotsets _ h => ?_
  obtain rfl := h
  refine Mirrors.bind (mirrors_refl (R := Eq) (fun _ => rfl) _) fun zipfCdf _ h => ?_
  obtain rfl := h
  exact mirrors_pure rfl

end Generators

/-! ## Simulations -/

/-- One step with the smaller pool and with the larger one. -/
structure StepNoWorse (run run' : StepRun) : Prop where
  stats : NoWorse run.stats.toQueryStats run'.stats.toQueryStats
  residents : run.after.residents.keys.Sublist run'.after.residents.keys

section Simulations

variable {F ρ : Type} (rng : RandomSource F ρ) [PyFloat F] {config : SimulationConfig F}
  {slots : ℤ} {w : TopKWorkload F}

/-- The pools of the two simulations. -/
structure Beside (config : SimulationConfig F) (slots : ℤ) (c c' : LRUManagedCache TokenKey) :
    Prop where
  above : Above c c'
  small : Belongs config c
  large : Belongs (config.withSlots slots) c'

omit [PyFloat F] in
/-- Preparing keeps the larger cache above the smaller. Its target is at least as high, but so
is its room. -/
theorem Beside.prepare {c c' : LRUManagedCache TokenKey} (h : Beside config slots c c')
    (hvalid : Valid config) (hle : config.hbmSlotsPerReq ≤ slots) :
    Above c.prepareFreeSlots.2 c'.prepareFreeSlots.2 := by
  refine h.above.prepare h.small.slots h.large.slots ?_
  have htarget : (c.freeSlotTarget : ℤ) = min config.totalSlots
      (config.reqNum * config.freeSlotsTargetPerReq.getD topkPerReq) := h.small.target
  have htarget' : (c'.freeSlotTarget : ℤ) = min (config.withSlots slots).totalSlots
      (config.reqNum * config.freeSlotsTargetPerReq.getD topkPerReq) := h.large.target
  have htotal := hvalid.totalSlots_nonneg
  have hmore : config.totalSlots ≤ (config.withSlots slots).totalSlots :=
    Int.mul_le_mul_of_nonneg_left hle hvalid.reqNum_pos.le
  omega

/-- The variables of the loop over the requests. -/
def LoopNoWorse (s s' : LRUManagedCache TokenKey × QueryStats) : Prop :=
  Above s.1 s'.1 ∧ NoWorse s.2 s'.2

/-- One request on both caches, with the same draws. -/
theorem resolveRequest_mirrors (w : TopKWorkload F) (slots : ℤ) (fuel stepId reqId : ℕ)
    {s s' : LRUManagedCache TokenKey × QueryStats} (h : LoopNoWorse s s') :
    Mirrors LoopNoWorse (resolveRequest rng w fuel stepId s reqId)
      (resolveRequest rng (w.withSlots slots) fuel stepId s' reqId) := by
  unfold resolveRequest
  rw [query_withSlots]
  refine Mirrors.bind (mirrors_refl (R := Eq) (fun _ => rfl) _) fun tokens _ htokens => ?_
  obtain rfl := htokens
  obtain ⟨habove, hstats⟩ := h.1.resolveQuery tokens
  exact mirrors_pure ⟨habove, h.2.add hstats⟩

/-- **One step.** -/
theorem simulateStep_mirrors (hw : Prepared w) (hw' : Prepared (w.withSlots slots))
    (hconfig : w.config = config) (hle : config.hbmSlotsPerReq ≤ slots) (fuel stepId : ℕ)
    {c c' : LRUManagedCache TokenKey} (h : Beside config slots c c') :
    Mirrors (fun run run' => StepNoWorse run run' ∧ Beside config slots run.after run'.after)
      (simulateStep rng config w fuel c stepId)
      (simulateStep rng (config.withSlots slots) (w.withSlots slots) fuel c' stepId) := by
  have hvalid : Valid config := hconfig ▸ hw.valid
  have hyields := simulateStep_yields rng (E := fun _ => True) hw hconfig fuel stepId h.small
  have hyields' := simulateStep_yields rng (E := fun _ => True) hw'
    (congrArg (SimulationConfig.withSlots · slots) hconfig) fuel stepId h.large
  have hrun : Mirrors (fun run run' => StepNoWorse run run' ∧ Above run.after run'.after)
      (simulateStep rng config w fuel c stepId)
      (simulateStep rng (config.withSlots slots) (w.withSlots slots) fuel c' stepId) := by
    unfold simulateStep
    have hstart : LoopNoWorse (c.prepareFreeSlots.2, .zero) (c'.prepareFreeSlots.2, .zero) :=
      ⟨h.prepare hvalid hle, .refl .zero⟩
    have hrequests := mirrors_foldlM
      (fun reqId s s' hs => resolveRequest_mirrors rng w slots fuel stepId reqId hs)
      (List.range config.reqNum.toNat) hstart
    refine hrequests.bind fun s s' hs => ?_
    exact mirrors_pure ⟨⟨hs.2, hs.1.residents⟩, hs.1⟩
  intro s run t hend
  obtain ⟨run', hend', ⟨hstep, habove⟩, hsmall, hlarge⟩ :=
    hrun.and_yields hyields hyields' s run t hend
  exact ⟨run', hend', hstep, habove, hsmall.2.1, hlarge.2.1⟩

/-- The two simulations after the same steps. -/
structure SimNoWorse (config : SimulationConfig F) (slots : ℤ) (sim sim' : Simulation) : Prop where
  pools : Beside config slots sim.cache sim'.cache
  steps : List.Forall₂ StepNoWorse sim.steps sim'.steps
  total : NoWorse sim.total.toQueryStats sim'.total.toQueryStats

/-- **One step** on both, with the same draws. -/
theorem simulateRound_mirrors (hw : Prepared w) (hw' : Prepared (w.withSlots slots))
    (hconfig : w.config = config) (hle : config.hbmSlotsPerReq ≤ slots) (fuel stepId : ℕ)
    {sim sim' : Simulation} (h : SimNoWorse config slots sim sim') :
    Mirrors (SimNoWorse config slots) (simulateRound rng config w fuel sim stepId)
      (simulateRound rng (config.withSlots slots) (w.withSlots slots) fuel sim' stepId) := by
  unfold simulateRound
  refine (simulateStep_mirrors rng hw hw' hconfig hle fuel stepId h.pools).bind fun run run' hrun => ?_
  refine mirrors_pure ⟨hrun.2, ?_, h.total.add hrun.1.stats⟩
  exact List.rel_append h.steps (.cons hrun.1 .nil)

theorem validateConfig_withSlots (hvalid : validateConfig config = .ok ())
    (hle : config.hbmSlotsPerReq ≤ slots) : validateConfig (config.withSlots slots) = .ok () := by
  have hpos := (valid_of_validateConfig hvalid).hbmSlots_pos
  unfold validateConfig at hvalid ⊢
  obtain ⟨_, hpositive, _⟩ := Folds.ok_of_bind hvalid
  -- the one field that differs passes its check, and no other check reads it
  have hpositive' : (positiveFields (config.withSlots slots)).forM (fun field =>
      raiseIf (field.2 ≤ 0) (field.1 ++ " must be positive")) = .ok () := by
    refine forM_ok fun field hfield => if_neg ?_
    simp only [positiveFields, SimulationConfig.withSlots, List.mem_cons, List.not_mem_nil,
      or_false] at hfield
    have hold : ∀ field ∈ positiveFields config, ¬ field.2 ≤ 0 := fun field hfield =>
      not_of_raiseIf (ok_of_forM hpositive hfield)
    unfold positiveFields at hold
    rcases hfield with rfl | rfl | rfl | rfl | rfl
    · exact hold _ (by simp)
    · exact hold _ (by simp)
    · exact hold _ (by simp)
    · dsimp only
      omega
    · exact hold _ (by simp)
  rw [hpositive] at hvalid
  rw [hpositive']
  exact hvalid

omit [PyFloat F] in
/-- The pools at the start: no residents, all slots free. -/
theorem beside_init (hvalid : Valid config) (hle : config.hbmSlotsPerReq ≤ slots)
    {c : LRUManagedCache TokenKey}
    (hc : LRUManagedCache.init config.totalSlots config.freeSlotTarget = .ok c) :
    ∃ c', LRUManagedCache.init (config.withSlots slots).totalSlots
        (config.withSlots slots).freeSlotTarget = .ok c' ∧ Beside config slots c c' := by
  have htotal := hvalid.totalSlots_nonneg
  have htarget := hvalid.freeSlotTarget_nonneg
  have hmore : config.totalSlots ≤ (config.withSlots slots).totalSlots :=
    Int.mul_le_mul_of_nonneg_left hle hvalid.reqNum_pos.le
  have htarget' : config.freeSlotTarget ≤ (config.withSlots slots).freeSlotTarget :=
    min_le_min_right _ hmore
  have hinit : (LRUManagedCache.init (config.withSlots slots).totalSlots
      (config.withSlots slots).freeSlotTarget : Except String (LRUManagedCache TokenKey)) = .ok _ :=
    (if_neg (by omega)).trans (if_neg (by omega))
  refine ⟨_, hinit, ⟨?_, init_belongs hc, init_belongs hinit⟩⟩
  obtain ⟨_, _, rfl⟩ := LRUManagedCache.init_eq hc
  refine ⟨List.Sublist.refl [], ?_⟩
  show (List.range _).reverse.length ≤ (List.range _).reverse.length
  rw [List.length_reverse, List.length_reverse, List.length_range, List.length_range]
  omega

/-- **More slots, no worse a simulation.** Whatever the generator draws, if a simulation ends, the
one with more HBM slots for each request and all else the same ends too, after the same draws; step
by step it has the same queries, no fewer hits and no more shortages, and leaves resident what the
other one leaves resident, and so it is in total. -/
theorem runSimulation_more_slots (hvalid : validateConfig config = .ok ())
    (hle : config.hbmSlotsPerReq ≤ slots) (fuel : ℕ) {s t : ρ} {result : SimulationResult F}
    (hrun : runFrom (runSimulation rng fuel config) s = some (.ok (result, t))) :
    ∃ result', runFrom (runSimulation rng fuel (config.withSlots slots)) s = some (.ok (result', t)) ∧
      List.Forall₂ StepNoWorse result.steps result'.steps ∧
      NoWorse result.total.toQueryStats result'.total.toQueryStats := by
  have hv := valid_of_validateConfig hvalid
  have hvalid' := validateConfig_withSlots hvalid hle
  have hmirrors : Mirrors (fun result result' : SimulationResult F =>
      List.Forall₂ StepNoWorse result.steps result'.steps ∧
        NoWorse result.total.toQueryStats result'.total.toQueryStats)
      (runSimulation rng fuel config) (runSimulation rng fuel (config.withSlots slots)) := by
    unfold runSimulation
    rw [hvalid, hvalid']
    -- the check, the pools, the workloads and the rounds, one after the other
    refine Mirrors.bind (mirrors_refl (R := Eq) (fun _ => rfl) _) fun _ _ _ => ?_
    refine Mirrors.bind (R := Beside config slots) (mirrors_attempt fun c hc => beside_init hv hle hc)
      fun c c' hpools => ?_
    have hmake := (makeWorkload_mirrors rng slots config).and_yields
      (makeWorkload_yields rng hv) (makeWorkload_yields rng (valid_of_validateConfig hvalid'))
    refine hmake.bind fun w w' hw => ?_
    obtain ⟨rfl, ⟨hconfig, hw⟩, _, hw'⟩ := hw
    have hstart : SimNoWorse config slots ⟨c, [], ⟨.zero, -1, 0, 0, 0⟩⟩
        ⟨c', [], ⟨.zero, -1, 0, 0, 0⟩⟩ := ⟨hpools, .nil, .refl .zero⟩
    have hloop := mirrors_foldlM
      (fun stepId sim sim' h => simulateRound_mirrors rng hw hw' hconfig hle fuel stepId h)
      (List.range config.steps.toNat) hstart
    refine hloop.bind fun sim sim' h => ?_
    exact mirrors_pure ⟨h.steps, h.total⟩
  exact hmirrors s result t hrun

end Simulations

/-- Another 4096 slots for each of two requests. -/
theorem runSimulation_more_slots_uniform : ∃ result t result',
    runFrom (runSimulation firstDraws 0 uniformConfig) () = some (.ok (result, t)) ∧
    runFrom (runSimulation firstDraws 0 (uniformConfig.withSlots 8192)) () = some (.ok (result', t)) ∧
    List.Forall₂ StepNoWorse result.steps result'.steps := by
  obtain ⟨r, hr⟩ := uniformConfig_ends
  have hyields := runSimulation_yields uniformConfig firstDraws validateConfig_uniformConfig 0 () r hr
  cases r with
  | error e =>
      have he : makeZipfCdf uniformConfig = .error e := hyields
      cases he
  | ok p =>
      obtain ⟨result', hrun', hsteps, _⟩ := runSimulation_more_slots firstDraws
        validateConfig_uniformConfig (by decide : uniformConfig.hbmSlotsPerReq ≤ 8192) 0 hr
      exact ⟨p.1, p.2, result', hr, hrun', hsteps⟩

end AsuAscend.Simu
