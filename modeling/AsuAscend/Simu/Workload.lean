/-
The token generators of the eviction simulator.

A `RandomSource` is Python's `random.Random`, with the order in which a set is
iterated: any functions that keep to what the library documents, so that a result
about all of them is one about every stream of draws. `query_yields`: a query that
ends has `TOPK_PER_REQ` distinct tokens, whatever the workload.

## What is relied on of Python's library

* `randrange(n)` gives a number below `n`, and `choice` an element of its argument;
* `sample(population, k)` gives `k` elements of the population at different positions;
* iterating a set gives each of its elements once, in an order that may depend on everything
  that was done to the set. `TokenSet` keeps the `add` calls for this reason, and the order is
  any function of these.

Nothing is relied on of floats: their comparison, sum, product, quotient and power are
parameters (`PyFloat`), of which the power may raise.
-/
import AsuAscend.Lib.Draws
import AsuAscend.Lib.Folds
import AsuAscend.Simu.ManagedCache
import Mathlib.Data.Finset.Card
import Mathlib.Data.Finset.Dedup
import Mathlib.Data.List.Perm.Subperm

set_option autoImplicit false

open Draws

namespace AsuAscend.Simu

def topkPerReq : ℕ := 2048

inductive WorkloadName
  | uniform
  | hotset
  | zipf
  | sliding
  | other (name : String)
deriving DecidableEq

/-- What the simulator does with floats. -/
class PyFloat (F : Type) extends LE F, LT F, Zero F, One F, Add F, Mul F, Div F where
  decidableLE : DecidableLE F
  decidableLT : DecidableLT F
  /-- An integer to the power of a float, which can overflow. -/
  pow : ℕ → F → Except String F

instance PyFloat.instDecidableLE {F : Type} [PyFloat F] : DecidableLE F := PyFloat.decidableLE

instance PyFloat.instDecidableLT {F : Type} [PyFloat F] : DecidableLT F := PyFloat.decidableLT

structure SimulationConfig (F : Type) where
  reqNum : ℤ
  steps : ℤ
  managedTokensPerReq : ℤ
  hbmSlotsPerReq : ℤ
  freeSlotsTargetPerReq : Option ℤ
  workload : WorkloadName
  hotsetSize : ℤ
  hotsetProb : F
  zipfExponent : F
  seed : ℤ

namespace SimulationConfig

variable {F : Type} (config : SimulationConfig F)

def totalSlots : ℤ := config.reqNum * config.hbmSlotsPerReq

def freeSlotTarget : ℤ :=
  let targetPerReq := config.freeSlotsTargetPerReq.getD topkPerReq
  min config.totalSlots (config.reqNum * targetPerReq)

end SimulationConfig

/-! ## Python's library -/

/-- A `set[int]` that is only added to, as the `add` calls made on it. -/
structure TokenSet where
  added : List ℕ

namespace TokenSet

/-- `set()` -/
def empty : TokenSet := ⟨[]⟩

/-- `tokens.add(token)` -/
def add (tokens : TokenSet) (token : ℕ) : TokenSet := ⟨tokens.added ++ [token]⟩

/-- `len(tokens)` -/
def card (tokens : TokenSet) : ℕ := tokens.added.toFinset.card

end TokenSet

/-- A random generator with states `ρ`, and the order in which a set is iterated. That order
hangs on how the set was filled, not only on what is in it. -/
structure RandomSource (F ρ : Type) where
  /-- `random.Random(seed)` -/
  seeded : ℤ → ρ
  random : ρ → F × ρ
  randrange : ℕ → ρ → ℕ × ρ
  choice : List ℕ → ρ → ℕ × ρ
  sample : List ℕ → ℕ → ρ → List ℕ × ρ
  /-- `list(tokens)` -/
  listOfSet : TokenSet → List ℕ
  randrange_lt : ∀ n s, 0 < n → (randrange n s).1 < n
  choice_mem : ∀ population s, population ≠ [] → (choice population s).1 ∈ population
  sample_length : ∀ population k s, k ≤ population.length → (sample population k s).1.length = k
  sample_subperm : ∀ population k s, k ≤ population.length →
    (sample population k s).1.Subperm population
  listOfSet_nodup : ∀ tokens, (listOfSet tokens).Nodup
  mem_listOfSet : ∀ tokens token, token ∈ listOfSet tokens ↔ token ∈ tokens.added

/-- `bisect.bisect_left` between `lo` and `hi`. -/
def bisectLeft {F : Type} [PyFloat F] (a : List F) (x : F) (lo hi : ℕ) : ℕ :=
  if h : lo < hi then
    let mid := (lo + hi) / 2
    if a.getD mid 0 < x then bisectLeft a x (mid + 1) hi else bisectLeft a x lo mid
  else
    lo
termination_by hi - lo
decreasing_by all_goals omega

/-! ## The generators

Each generator is the method of its name, with the draws in the order of the source. The two
loops over attempts have the bounds of the source; the loop that fills up the set has none
there and a fuel here. -/

structure TopKWorkload (F : Type) where
  config : SimulationConfig F
  hotsets : List (List ℕ)
  zipfCdf : List F

section Generators

variable {F ρ : Type} (rng : RandomSource F ρ)

def sampled (population : List ℕ) (k : ℕ) : Gen String ρ (List ℕ) :=
  if k ≤ population.length then
    draw (rng.sample population k)
  else
    throw "Sample larger than population or is negative"

def randranged (n : ℕ) : Gen String ρ ℕ :=
  if 0 < n then draw (rng.randrange n) else throw "empty range for randrange()"

def chosen (population : List ℕ) : Gen String ρ ℕ :=
  if population = [] then
    throw "Cannot choose from an empty sequence"
  else
    draw (rng.choice population)

def makeHotsets (config : SimulationConfig F) : Gen String ρ (List (List ℕ)) :=
  if config.workload ≠ .hotset then
    return []
  else
    let size := (min config.hotsetSize config.managedTokensPerReq).toNat
    (List.range config.reqNum.toNat).mapM fun _ =>
      sampled rng (List.range config.managedTokensPerReq.toNat) size

variable [PyFloat F]

def makeZipfCdf (config : SimulationConfig F) : Except String (List F) :=
  if config.workload ≠ .zipf then
    return []
  else do
    let (_, cdf) ← (List.range' 1 config.managedTokensPerReq.toNat).foldlM
      (fun ((cumulative, cdf) : F × List F) rank => do
        let power ← PyFloat.pow rank config.zipfExponent
        let cumulative := cumulative + 1 / power
        return (cumulative, cdf ++ [cumulative]))
      (0, [])
    return cdf

/-- `TopKWorkload(config)` -/
def makeWorkload (config : SimulationConfig F) : Gen String ρ (TopKWorkload F) := do
  set (rng.seeded config.seed)
  let hotsets ← makeHotsets rng config
  let zipfCdf ← attempt (makeZipfCdf config)
  return { config := config, hotsets := hotsets, zipfCdf := zipfCdf }

namespace TopKWorkload

variable (w : TopKWorkload F)

def uniformTokens : Gen String ρ (List ℕ) :=
  sampled rng (List.range w.config.managedTokensPerReq.toNat) topkPerReq

/-- The loop of `_fill_unique_tokens`; `fuel` bounds its rounds. -/
def fillUniqueTokens : ℕ → TokenSet → Gen String ρ TokenSet
  | 0, tokens => if tokens.card < topkPerReq then noEnd else return tokens
  | fuel + 1, tokens => do
      if tokens.card < topkPerReq then
        let token ← randranged rng w.config.managedTokensPerReq.toNat
        fillUniqueTokens fuel (tokens.add token)
      else
        return tokens

def hotsetToken (hotset : List ℕ) (r : F) : Gen String ρ ℕ :=
  if r < w.config.hotsetProb then
    chosen rng hotset
  else
    randranged rng w.config.managedTokensPerReq.toNat

def hotsetAttempts (hotset : List ℕ) : ℕ → TokenSet → Gen String ρ TokenSet
  | 0, tokens => return tokens
  | attempts + 1, tokens => do
      if tokens.card = topkPerReq then
        return tokens
      else
        let r ← draw rng.random
        let token ← w.hotsetToken rng hotset r
        hotsetAttempts hotset attempts (tokens.add token)

def hotsetTokens (fuel reqId : ℕ) : Gen String ρ (List ℕ) :=
  match w.hotsets[reqId]? with
  | none => throw "list index out of range"
  | some hotset =>
      if 1 ≤ w.config.hotsetProb ∧ topkPerReq ≤ hotset.length then
        sampled rng hotset topkPerReq
      else do
        let tokens ← w.hotsetAttempts rng hotset (topkPerReq * 100) .empty
        let tokens ← w.fillUniqueTokens rng fuel tokens
        return rng.listOfSet tokens

def zipfAttempts (totalWeight : F) : ℕ → TokenSet → Gen String ρ TokenSet
  | 0, tokens => return tokens
  | attempts + 1, tokens => do
      if tokens.card = topkPerReq then
        return tokens
      else
        let r ← draw rng.random
        let token := bisectLeft w.zipfCdf (r * totalWeight) 0 w.zipfCdf.length
        zipfAttempts totalWeight attempts (tokens.add token)

def zipfTokens (fuel : ℕ) : Gen String ρ (List ℕ) :=
  match w.zipfCdf.getLast? with
  | none => w.uniformTokens rng
  | some totalWeight => do
      let tokens ← w.zipfAttempts rng totalWeight (topkPerReq * 200) .empty
      let tokens ← w.fillUniqueTokens rng fuel tokens
      return rng.listOfSet tokens

/-- The window of `_sliding_tokens`; after validation the domain is positive. -/
def slidingWindow (reqId step : ℕ) : List ℕ :=
  let windowSize : ℤ := max topkPerReq (min w.config.hotsetSize w.config.managedTokensPerReq)
  let domain := w.config.managedTokensPerReq
  let base := (reqId * windowSize + step * topkPerReq) % domain
  (List.range windowSize.toNat).map fun offset : ℕ => ((base + offset) % domain).toNat

def slidingTokens (reqId step : ℕ) : Gen String ρ (List ℕ) :=
  sampled rng (w.slidingWindow reqId step) topkPerReq

def tokenIds (fuel reqId step : ℕ) : Gen String ρ (List ℕ) :=
  match w.config.workload with
  | .uniform => w.uniformTokens rng
  | .hotset => w.hotsetTokens rng fuel reqId
  | .zipf => w.zipfTokens rng fuel
  | .sliding => w.slidingTokens rng reqId step
  | .other name => throw ("unsupported workload: " ++ name)

def query (fuel reqId step : ℕ) : Gen String ρ (List TokenKey) := do
  let tokenIds ← w.tokenIds rng fuel reqId step
  return tokenIds.map fun tokenId => (reqId, tokenId)

end TopKWorkload

end Generators

/-! ## Validation -/

/-- `if bad: raise ValueError(message)` -/
def raiseIf (bad : Prop) [Decidable bad] (message : String) : Except String Unit :=
  if bad then throw message else return ()

section Validation

variable {F : Type} [PyFloat F] (config : SimulationConfig F)

def positiveFields : List (String × ℤ) :=
  [("req_num", config.reqNum), ("steps", config.steps),
    ("managed_tokens_per_req", config.managedTokensPerReq),
    ("hbm_slots_per_req", config.hbmSlotsPerReq), ("hotset_size", config.hotsetSize)]

def validateConfig : Except String Unit := do
  (positiveFields config).forM fun (name, value) => raiseIf (value ≤ 0) (name ++ " must be positive")
  raiseIf (config.managedTokensPerReq < topkPerReq)
    ("managed_tokens_per_req must be at least fixed topK " ++ toString topkPerReq)
  raiseIf (config.freeSlotsTargetPerReq.any fun target => target < 0)
    "free_slots_target_per_req must be non-negative"
  raiseIf (¬ (0 ≤ config.hotsetProb ∧ config.hotsetProb ≤ 1)) "hotset_prob must be in [0, 1]"
  raiseIf (config.zipfExponent ≤ 0) "zipf_exponent must be positive"
  raiseIf (config.workload ∉ [.uniform, .hotset, .zipf, .sliding])
    "workload must be one of: uniform, hotset, zipf, sliding"

end Validation

/-! ## What the generators yield -/

/-- A check that passes has found nothing bad. -/
theorem not_of_raiseIf {bad : Prop} [Decidable bad] {message : String} {u : Unit}
    (h : raiseIf bad message = .ok u) : ¬ bad := by
  intro hbad
  rw [raiseIf, if_pos hbad] at h
  cases h

/-- Checks that all pass pass one by one. -/
theorem ok_of_forM {α : Type} {f : α → Except String Unit} {l : List α} {u : Unit}
    (h : l.forM f = .ok u) {x : α} (hx : x ∈ l) : f x = .ok () := by
  induction l with
  | nil => exact absurd hx List.not_mem_nil
  | cons y l ih =>
      have h : (f y >>= fun _ => l.forM f) = .ok u := h
      obtain ⟨_, hy, hl⟩ := Folds.ok_of_bind h
      rcases List.mem_cons.mp hx with rfl | hx
      · exact hy
      · exact ih hl hx

theorem forM_ok {α : Type} {f : α → Except String Unit} {l : List α} (h : ∀ x ∈ l, f x = .ok ()) :
    l.forM f = .ok () := by
  induction l with
  | nil => rfl
  | cons x l ih =>
      show (f x >>= fun _ => l.forM f) = .ok ()
      rw [h x List.mem_cons_self]
      exact ih fun y hy => h y (List.mem_cons_of_mem x hy)

/-- What `validate_config` checks of the numbers and the workload. -/
structure Valid {F : Type} (config : SimulationConfig F) : Prop where
  reqNum_pos : 0 < config.reqNum
  steps_pos : 0 < config.steps
  topk_le : topkPerReq ≤ config.managedTokensPerReq
  hbmSlots_pos : 0 < config.hbmSlotsPerReq
  hotsetSize_pos : 0 < config.hotsetSize
  target_nonneg : ∀ target, config.freeSlotsTargetPerReq = some target → 0 ≤ target
  supported : ∀ name, config.workload ≠ .other name

/-- A configuration that passes is valid, in every field. -/
theorem valid_of_validateConfig {F : Type} [PyFloat F] {config : SimulationConfig F}
    (h : validateConfig config = .ok ()) : Valid config := by
  unfold validateConfig at h
  obtain ⟨_, hpositive, h⟩ := Folds.ok_of_bind h
  obtain ⟨_, htopk, h⟩ := Folds.ok_of_bind h
  obtain ⟨_, htarget, h⟩ := Folds.ok_of_bind h
  obtain ⟨_, _, h⟩ := Folds.ok_of_bind h
  obtain ⟨_, _, hworkload⟩ := Folds.ok_of_bind h
  -- each check that has not raised says that its condition fails
  have hpos : ∀ field ∈ positiveFields config, 0 < field.2 := fun field hfield =>
    Int.not_le.mp (not_of_raiseIf (ok_of_forM hpositive hfield))
  unfold positiveFields at hpos
  refine {
    reqNum_pos := hpos ("req_num", config.reqNum) (by simp)
    steps_pos := hpos ("steps", config.steps) (by simp)
    topk_le := Int.not_lt.mp (not_of_raiseIf htopk)
    hbmSlots_pos := hpos ("hbm_slots_per_req", config.hbmSlotsPerReq) (by simp)
    hotsetSize_pos := hpos ("hotset_size", config.hotsetSize) (by simp)
    target_nonneg := ?_
    supported := ?_ }
  · intro target htargetPerReq
    have hnone := not_of_raiseIf htarget
    rw [htargetPerReq, Option.any_some, decide_eq_true_iff] at hnone
    exact Int.not_lt.mp hnone
  · intro name hname
    apply not_of_raiseIf hworkload
    rw [hname]
    simp

/-! ## What the generators yield -/

/-- The tokens of a query: `TOPK_PER_REQ` distinct ones. -/
def Distinct {α : Type} (tokens : List α) : Prop := tokens.length = topkPerReq ∧ tokens.Nodup

section Yield

variable {F ρ : Type} (rng : RandomSource F ρ) {E : String → Prop}

/-- A sample has as many elements as asked for, and repeats nothing that the population does
not. -/
theorem sampled_yields {population : List ℕ} {k : ℕ} (hk : k ≤ population.length) :
    Yields (fun tokens => tokens.length = k ∧ (population.Nodup → tokens.Nodup)) E
      (sampled rng population k) := by
  unfold sampled
  rw [if_pos hk]
  apply yields_draw
  intro s
  refine ⟨rng.sample_length population k s hk, fun hnodup => ?_⟩
  obtain ⟨chosen, hperm, hsub⟩ := rng.sample_subperm population k s hk
  exact hperm.nodup_iff.mp (hsub.nodup hnodup)

theorem sampled_settles (population : List ℕ) (k : ℕ) : Settles (sampled rng population k) := by
  unfold sampled
  split_ifs
  · exact settles_draw _
  · exact settles_throw _

/-- A draw from a range is in it. -/
theorem randranged_yields {n : ℕ} (hn : 0 < n) : Yields (· < n) E (randranged rng n) := by
  unfold randranged
  rw [if_pos hn]
  exact yields_draw fun s => rng.randrange_lt n s hn

theorem chosen_yields {population : List ℕ} (h : population ≠ []) :
    Yields (· ∈ population) E (chosen rng population) := by
  unfold chosen
  rw [if_neg h]
  exact yields_draw fun s => rng.choice_mem population s h

/-- The list of a full set of tokens. -/
theorem distinct_listOfSet {tokens : TokenSet} (h : tokens.card = topkPerReq) :
    Distinct (rng.listOfSet tokens) := by
  have hnodup := rng.listOfSet_nodup tokens
  refine ⟨?_, hnodup⟩
  have hset : (rng.listOfSet tokens).toFinset = tokens.added.toFinset := by
    ext token
    rw [List.mem_toFinset, List.mem_toFinset, rng.mem_listOfSet]
  rw [← List.toFinset_card_of_nodup hnodup, hset]
  exact h

/-- One more token does not overfill a set that is not full. -/
theorem card_add_le_topk {tokens : TokenSet} (h : tokens.card < topkPerReq) (token : ℕ) :
    (tokens.add token).card ≤ topkPerReq := by
  have hset : (tokens.add token).added.toFinset = insert token tokens.added.toFinset := by
    ext x
    rw [TokenSet.add, List.mem_toFinset, List.mem_append, List.mem_singleton, Finset.mem_insert,
      List.mem_toFinset, or_comm]
  unfold TokenSet.card
  rw [hset]
  exact (Finset.card_insert_le token _).trans h

/-- A window that does not go round the whole domain has no position twice. -/
theorem nodup_residues {domain size : ℤ} (hdomain : 0 < domain) (hsize : size ≤ domain) (base : ℤ) :
    ((List.range size.toNat).map fun offset : ℕ => ((base + offset) % domain).toNat).Nodup := by
  refine List.Nodup.map_on ?_ List.nodup_range
  intro x hx y hy heq
  rw [List.mem_range] at hx hy
  have hsame : (base + x) % domain = (base + y) % domain := by
    have hx0 := Int.emod_nonneg (base + x) hdomain.ne'
    have hy0 := Int.emod_nonneg (base + y) hdomain.ne'
    omega
  -- the offsets differ by a multiple of the domain, and by less than the domain
  have hdvd : domain ∣ (x : ℤ) - y := by
    have h := Int.emod_eq_emod_iff_emod_sub_eq_zero.mp hsame
    have hdiff : base + x - (base + y) = x - y := by omega
    rw [hdiff] at h
    exact Int.dvd_of_emod_eq_zero h
  have hzero := Int.eq_zero_of_dvd_of_natAbs_lt_natAbs hdvd (by omega)
  omega

/-- What a workload of a valid configuration is made with. -/
structure Prepared (w : TopKWorkload F) : Prop where
  valid : Valid w.config
  hotsets_length : w.config.workload = .hotset → w.hotsets.length = w.config.reqNum.toNat
  hotset_nodup : ∀ hotset ∈ w.hotsets, hotset.Nodup ∧ hotset ≠ []

variable {w : TopKWorkload F} (hw : Prepared w)

include hw

/-- A valid configuration has enough tokens to query. -/
theorem domain_pos : topkPerReq ≤ w.config.managedTokensPerReq.toNat := by
  have := hw.valid.topk_le
  omega

/-- The uniform workload samples its tokens in one go. -/
theorem uniformTokens_yields : Yields Distinct E (w.uniformTokens rng) := by
  have hk : topkPerReq ≤ (List.range w.config.managedTokensPerReq.toNat).length := by
    rw [List.length_range]
    exact domain_pos hw
  exact (sampled_yields rng hk).mono fun _ h => ⟨h.1, h.2 List.nodup_range⟩

/-- The loop adds tokens until there are enough; it ends with exactly so many, as each turn adds
at most one. -/
theorem fillUniqueTokens_yields (fuel : ℕ) {tokens : TokenSet} (h : tokens.card ≤ topkPerReq) :
    Yields (fun filled => filled.card = topkPerReq) E (w.fillUniqueTokens rng fuel tokens) := by
  induction fuel generalizing tokens with
  | zero =>
      unfold TopKWorkload.fillUniqueTokens
      split_ifs with hlt
      · exact yields_noEnd
      · exact yields_pure (Nat.le_antisymm h (Nat.not_lt.mp hlt))
  | succ fuel ih =>
      unfold TopKWorkload.fillUniqueTokens
      split_ifs with hlt
      · have hdomain : 0 < w.config.managedTokensPerReq.toNat :=
          lt_of_lt_of_le (Nat.zero_lt_succ _) (domain_pos hw)
        refine (randranged_yields rng hdomain).bind fun token _ => ?_
        exact ih (card_add_le_topk hlt token)
      · exact yields_pure (Nat.le_antisymm h (Nat.not_lt.mp hlt))

/-- A token of the hot set or of all tokens; a hot set is not empty. -/
theorem hotsetToken_yields {hotset : List ℕ} (hhotset : hotset ≠ []) [PyFloat F] (r : F) :
    Yields (fun _ => True) E (w.hotsetToken rng hotset r) := by
  unfold TopKWorkload.hotsetToken
  split_ifs
  · exact (chosen_yields rng hhotset).mono fun _ _ => trivial
  · have hdomain : 0 < w.config.managedTokensPerReq.toNat :=
      lt_of_lt_of_le (Nat.zero_lt_succ _) (domain_pos hw)
    exact (randranged_yields rng hdomain).mono fun _ _ => trivial

variable [PyFloat F]

/-- The attempts stop when there are enough tokens, so that they never overfill the set. -/
theorem hotsetAttempts_yields {hotset : List ℕ} (hhotset : hotset ≠ []) (attempts : ℕ)
    {tokens : TokenSet} (h : tokens.card ≤ topkPerReq) :
    Yields (fun tokens => tokens.card ≤ topkPerReq) E
      (w.hotsetAttempts rng hotset attempts tokens) := by
  induction attempts generalizing tokens with
  | zero => exact yields_pure h
  | succ attempts ih =>
      unfold TopKWorkload.hotsetAttempts
      split_ifs with hfull
      · exact yields_pure h
      · have hlt : tokens.card < topkPerReq := lt_of_le_of_ne h hfull
        refine Yields.bind (P := fun _ => True) (yields_draw fun _ => trivial) fun r _ => ?_
        refine (hotsetToken_yields rng hw hhotset r).bind fun token _ => ?_
        exact ih (card_add_le_topk hlt token)

omit hw in
theorem zipfAttempts_yields (totalWeight : F) (attempts : ℕ) {tokens : TokenSet}
    (h : tokens.card ≤ topkPerReq) :
    Yields (fun tokens => tokens.card ≤ topkPerReq) E
      (w.zipfAttempts rng totalWeight attempts tokens) := by
  induction attempts generalizing tokens with
  | zero => exact yields_pure h
  | succ attempts ih =>
      unfold TopKWorkload.zipfAttempts
      split_ifs with hfull
      · exact yields_pure h
      · have hlt : tokens.card < topkPerReq := lt_of_le_of_ne h hfull
        refine Yields.bind (P := fun _ => True) (yields_draw fun _ => trivial) fun r _ => ?_
        exact ih (card_add_le_topk hlt _)

/-- **The hot-set workload**: a sample of the hot set, or attempts and then the fill. -/
theorem hotsetTokens_yields (hworkload : w.config.workload = .hotset) (fuel : ℕ) {reqId : ℕ}
    (hreq : reqId < w.config.reqNum.toNat) :
    Yields Distinct E (w.hotsetTokens rng fuel reqId) := by
  have hlt : reqId < w.hotsets.length := by
    rw [hw.hotsets_length hworkload]
    exact hreq
  obtain ⟨hnodup, hne⟩ := hw.hotset_nodup _ (List.getElem_mem hlt)
  unfold TopKWorkload.hotsetTokens
  rw [List.getElem?_eq_getElem hlt]
  dsimp only
  split_ifs with hsample
  · exact (sampled_yields rng hsample.2).mono fun _ h => ⟨h.1, h.2 hnodup⟩
  · refine (hotsetAttempts_yields rng hw hne _ (Nat.zero_le _)).bind fun tokens htokens => ?_
    refine (fillUniqueTokens_yields rng hw fuel htokens).bind fun filled hfilled => ?_
    exact yields_pure (distinct_listOfSet rng hfilled)

/-- **The Zipf workload**: attempts and then the fill. -/
theorem zipfTokens_yields (fuel : ℕ) : Yields Distinct E (w.zipfTokens rng fuel) := by
  unfold TopKWorkload.zipfTokens
  cases w.zipfCdf.getLast? with
  | none => exact uniformTokens_yields rng hw
  | some totalWeight =>
      refine (zipfAttempts_yields rng totalWeight _ (Nat.zero_le _)).bind fun tokens htokens => ?_
      refine (fillUniqueTokens_yields rng hw fuel htokens).bind fun filled hfilled => ?_
      exact yields_pure (distinct_listOfSet rng hfilled)

omit [PyFloat F] in
/-- The window has no token twice, since it is no longer than the domain. -/
theorem nodup_slidingWindow (reqId step : ℕ) : (w.slidingWindow reqId step).Nodup := by
  have htopk := hw.valid.topk_le
  have hpos : (0 : ℤ) < topkPerReq := by decide
  unfold TopKWorkload.slidingWindow
  apply nodup_residues
  · omega
  · omega

omit [PyFloat F] in
/-- **The sliding workload** samples its window. -/
theorem slidingTokens_yields (reqId step : ℕ) :
    Yields Distinct E (w.slidingTokens rng reqId step) := by
  have hk : topkPerReq ≤ (w.slidingWindow reqId step).length := by
    unfold TopKWorkload.slidingWindow
    rw [List.length_map, List.length_range]
    omega
  exact (sampled_yields rng hk).mono fun _ htokens =>
    ⟨htokens.1, htokens.2 (nodup_slidingWindow hw reqId step)⟩

/-- **Every workload** draws enough distinct tokens. -/
theorem tokenIds_yields (fuel : ℕ) {reqId : ℕ} (hreq : reqId < w.config.reqNum.toNat) (step : ℕ) :
    Yields Distinct E (w.tokenIds rng fuel reqId step) := by
  unfold TopKWorkload.tokenIds
  cases hworkload : w.config.workload with
  | uniform => exact uniformTokens_yields rng hw
  | hotset => exact hotsetTokens_yields rng hw hworkload fuel hreq
  | zipf => exact zipfTokens_yields rng hw fuel
  | sliding => exact slidingTokens_yields rng hw reqId step
  | other name => exact absurd hworkload (hw.valid.supported name)

/-- A query of a valid workload does not raise, and has the fixed number of tokens. -/
theorem query_yields (fuel : ℕ) {reqId : ℕ} (hreq : reqId < w.config.reqNum.toNat) (step : ℕ) :
    Yields Distinct E (w.query rng fuel reqId step) := by
  refine (tokenIds_yields rng hw fuel hreq step).bind fun tokenIds hdistinct => yields_pure ⟨?_, ?_⟩
  · rw [List.length_map]
    exact hdistinct.1
  · exact hdistinct.2.map fun _ _ heq => (Prod.mk.inj heq).2

end Yield

section Make

variable {F ρ : Type} (rng : RandomSource F ρ) {E : String → Prop} {config : SimulationConfig F}
  (hvalid : Valid config)

include hvalid

/-- One hot set for each request, each without repetitions and not empty. -/
theorem makeHotsets_yields :
    Yields (fun hotsets : List (List ℕ) =>
        (config.workload = .hotset → hotsets.length = config.reqNum.toNat) ∧
        ∀ hotset ∈ hotsets, hotset.Nodup ∧ hotset ≠ []) E (makeHotsets rng config) := by
  have hhotset := hvalid.hotsetSize_pos
  have htopk := hvalid.topk_le
  unfold makeHotsets
  split_ifs with hworkload
  · exact yields_pure ⟨fun h => absurd h hworkload, fun _ h => absurd h List.not_mem_nil⟩
  · have hk : (min config.hotsetSize config.managedTokensPerReq).toNat ≤
        (List.range config.managedTokensPerReq.toNat).length := by
      rw [List.length_range]
      omega
    have hsize : 0 < (min config.hotsetSize config.managedTokensPerReq).toNat := by
      unfold topkPerReq at htopk
      omega
    refine (yields_mapM (P := fun hotset => hotset.Nodup ∧ hotset ≠ []) _ fun _ _ => ?_).mono ?_
    · refine (sampled_yields rng hk).mono fun hotset h => ⟨h.2 List.nodup_range, ?_⟩
      rintro rfl
      exact hsize.ne h.1
    · intro hotsets h
      refine ⟨fun _ => ?_, h.2⟩
      rw [h.1, List.length_range]

/-- The only thing that can raise is a power of the Zipf distribution. -/
theorem makeWorkload_yields [PyFloat F] :
    Yields (fun w : TopKWorkload F => w.config = config ∧ Prepared w)
      (fun e => makeZipfCdf config = .error e) (makeWorkload rng config) := by
  refine Yields.bind (P := fun _ => True) (yields_set trivial _) fun _ _ => ?_
  refine (makeHotsets_yields rng hvalid).bind fun hotsets hhotsets => ?_
  have hzipf : Yields (fun _ : List F => True) (fun e => makeZipfCdf config = .error e)
      (attempt (makeZipfCdf config) : Gen String ρ (List F)) :=
    yields_attempt (fun _ _ => trivial) fun _ he => he
  exact hzipf.bind fun zipfCdf _ => yields_pure ⟨rfl, ⟨hvalid, hhotsets.1, hhotsets.2⟩⟩

end Make

end AsuAscend.Simu
