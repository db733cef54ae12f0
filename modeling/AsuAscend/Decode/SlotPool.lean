/-
The slot pool of a context over any run of its three operations.

`PoolRun` is a run from a new context on, with the tokens that have taken a slot since the
last reset. A token takes a slot when it becomes resident, and it stays resident until the
next reset, so that it takes one slot at most (`Ledger`); the slots that are left are the free
ones (`slot_pool`).

## Which calls a run is made of

Resets and marks that return, resolver calls that return, and the resolver calls that raise
without losing a slot: an entry outside the sequence, a state the resolver does not know, a
block table that is too short or an empty stack stops the call at that entry, with the entries
before it installed. The calls left out are those of `LosesSlot`, which come to an entry whose
row cannot be copied: `LostSlots` shows that such a call breaks the pool.
-/
import AsuAscend.Decode.LostSlots

set_option autoImplicit false

open SentinelTable StateExcept

namespace AsuAscend.Decode

variable {α β : Type}

/-! ## Runs -/

/-- The tokens of a call whose turns take a slot off the stack, turn by turn. -/
def spenders (src : Source α β) (n : ℤ) (block_size : ℕ) : List ℤ → Context α β → List ℕ
  | [], _ => []
  | t :: topk, c =>
      match resolveToken src n block_size t c with
      | .ok _ c' =>
          (if c'.free_slot_count < c.free_slot_count then [t.toNat] else []) ++
            spenders src n block_size topk c'
      | .error _ _ => []

/-- The same for a whole call; one that fails the checks of its arguments gives out none. -/
def callSpenders (src : Source α β) (topk : List ℤ) (n : ℤ) (block_size : ℕ) (c : Context α β) :
    List ℕ :=
  if 0 ≤ n ∧ 0 < block_size then spenders src n block_size topk c else []

/-- A run from a new context on, with the tokens that have taken a slot since the last reset,
one entry for each slot. -/
inductive PoolRun (max_seq_len block_size : ℕ) (rows_0 : List α) (rows_1 : List β) :
    List ℕ → Context α β → Prop
  | fresh : PoolRun max_seq_len block_size rows_0 rows_1 []
      (freshContext max_seq_len block_size rows_0 rows_1)
  | reset {spent : List ℕ} {c c' : Context α β} (req_id : String) (n pre : ℤ) (block_table : List ℤ)
      (h : PoolRun max_seq_len block_size rows_0 rows_1 spent c)
      (hok : resetState req_id n pre block_table c = .ok () c') :
      PoolRun max_seq_len block_size rows_0 rows_1 [] c'
  | resolve {spent : List ℕ} {c c' : Context α β} {slots : List ℤ} (src : Source α β)
      (topk : List ℤ) (n : ℤ) (bs : ℕ) (h : PoolRun max_seq_len block_size rows_0 rows_1 spent c)
      (htopk : ∀ t ∈ topk, t < c.actual_seq_len)
      (hok : asuResolveKvSlotsSingleReq src topk n bs c = .ok slots c') :
      PoolRun max_seq_len block_size rows_0 rows_1 (spent ++ spenders src n bs topk c) c'
  | raised {spent : List ℕ} {c c' : Context α β} {e : PyError} (src : Source α β)
      (topk : List ℤ) (n : ℤ) (bs : ℕ) (h : PoolRun max_seq_len block_size rows_0 rows_1 spent c)
      (htopk : ∀ t ∈ topk, t < c.actual_seq_len) (hkeeps : ¬ LosesSlot c src n bs topk)
      (hraised : asuResolveKvSlotsSingleReq src topk n bs c = .error e c') :
      PoolRun max_seq_len block_size rows_0 rows_1 (spent ++ callSpenders src topk n bs c) c'
  | mark {spent : List ℕ} {c c' : Context α β}
      (h : PoolRun max_seq_len block_size rows_0 rows_1 spent c)
      (hok : markDecodeToken c.actual_seq_len c = .ok () c') :
      PoolRun max_seq_len block_size rows_0 rows_1 spent c'

/-! ## The invariant -/

/-- The pool is in order, and each slot that is gone from the stack went to a token that has
been resident since. -/
structure Ledger (spent : List ℕ) (c : Context α β) : Prop where
  tabled : Tabled c
  pool : Pool c
  resident_lt : ∀ t, Resident c t → (t : ℤ) < c.actual_seq_len
  nodup : spent.Nodup
  mem : ∀ t, t ∈ spent ↔ Resident c t
  count : c.free_slot_count + spent.length = c.managed_slot_count

section

variable {c c' : Context α β} {spent : List ℕ} {src : Source α β}

/-- The token past the last entry takes a slot; nobody has given it one before. -/
theorem Ledger.installed (h : Ledger spent c) (src : Source α β) {t row slot : ℕ}
    (ht : t < c.max_seq_len) (hlen : (t : ℤ) < c.actual_seq_len) (hnew : ¬ Resident c t)
    (hpos : 0 < c.free_slot_count) (hslot : c.top = slot) :
    Ledger (spent ++ [t]) (c.installed src t row slot) := by
  -- the token is new to the ledger: `spent` lists the residents, and it was none of them
  have hres : ∀ u, Resident (c.installed src t row slot) u ↔ u = t ∨ Resident c u :=
    fun u => installed_resident h.tabled ht
  refine ⟨h.tabled.installed, h.pool.installed h.tabled ht hnew hpos hslot, ?_, ?_, ?_, ?_⟩
  · intro u hu
    rcases (hres u).mp hu with rfl | hu
    · exact hlen
    · exact h.resident_lt u hu
  · rw [List.nodup_append]
    refine ⟨h.nodup, List.nodup_singleton _, fun u hu v hv heq => hnew ?_⟩
    rw [← List.mem_singleton.mp hv, ← heq]
    exact (h.mem u).mp hu
  · intro u
    rw [hres, List.mem_append, List.mem_singleton, h.mem, or_comm]
  · have hcount := h.count
    show c.free_slot_count - 1 + ((spent ++ [t]).length : ℕ) = c.managed_slot_count
    rw [List.length_append, List.length_singleton]
    omega

/-- A turn that returns. -/
theorem Ledger.turn (h : Ledger spent c) {n t s : ℤ} {bs : ℕ} (ht : t < c.actual_seq_len)
    (hok : resolveToken src n bs t c = .ok s c') :
    Ledger (spent ++ if c'.free_slot_count < c.free_slot_count then [t.toNat] else []) c' ∧
      c'.actual_seq_len = c.actual_seq_len := by
  have hturn := resolveToken_turn h.tabled h.pool src n bs t
  rw [hok] at hturn
  cases hturn with
  | resident hin hres =>
      rw [if_neg (lt_irrefl _), List.append_nil]
      exact ⟨h, rfl⟩
  | @installed row slot hin hrow hpos hslot hcopies =>
      have hnonneg := hin.nonneg
      have hmax := hin.lt_max
      have hless : (c.installed src t.toNat row slot).free_slot_count < c.free_slot_count := by
        show c.free_slot_count - 1 < c.free_slot_count
        omega
      rw [if_pos hless]
      exact ⟨h.installed src (by omega) (by omega) (sourceSlot_not_resident hrow) hpos hslot, rfl⟩

/-- A call that returns. -/
theorem Ledger.resolve (h : Ledger spent c) {topk slots : List ℤ} {n : ℤ} {bs : ℕ}
    (htopk : ∀ t ∈ topk, t < c.actual_seq_len)
    (hok : topk.mapM (resolveToken src n bs) c = .ok slots c') :
    Ledger (spent ++ spenders src n bs topk c) c' := by
  induction topk generalizing c spent slots with
  | nil =>
      cases hok
      rw [spenders, List.append_nil]
      exact h
  | cons t topk ih =>
      -- the length of the sequence stays, so the rest of the call is still below it
      obtain ⟨s, c1, slots', hturn, hrest, -⟩ := mapM_cons_eq_ok hok
      obtain ⟨h1, hlen⟩ := h.turn (htopk t List.mem_cons_self) hturn
      rw [spenders, hturn, ← List.append_assoc]
      exact ih h1 (fun u hu => hlen ▸ htopk u (List.mem_cons_of_mem t hu)) hrest

/-- Past an entry that raises no slot is given out. -/
theorem spenders_append_error {pre post : List ℤ} {t : ℤ} {n : ℤ} {bs : ℕ} {slots : List ℤ}
    {e : PyError} {c1 : Context α β} (hpre : pre.mapM (resolveToken src n bs) c = .ok slots c1)
    (ht : resolveToken src n bs t c1 = .error e c') :
    spenders src n bs (pre ++ t :: post) c = spenders src n bs pre c := by
  induction pre generalizing c slots with
  | nil =>
      cases hpre
      rw [List.nil_append, spenders.eq_2, ht]
      rfl
  | cons u pre ih =>
      obtain ⟨s, c2, slots', hturn, hrest, -⟩ := mapM_cons_eq_ok hpre
      rw [List.cons_append, spenders, spenders, hturn]
      dsimp only
      rw [ih hrest]

/-- A call that raises and loses no slot. -/
theorem Ledger.raised (h : Ledger spent c) {topk : List ℤ} {n : ℤ} {bs : ℕ} {e : PyError}
    (htopk : ∀ t ∈ topk, t < c.actual_seq_len) (hkeeps : ¬ LosesSlot c src n bs topk)
    (hraised : asuResolveKvSlotsSingleReq src topk n bs c = .error e c') :
    Ledger (spent ++ callSpenders src topk n bs c) c' := by
  unfold asuResolveKvSlotsSingleReq at hraised
  unfold callSpenders
  split_ifs at hraised with hn hbs
  · rw [if_neg (by omega), List.append_nil]
    cases hraised
    exact h
  · rw [if_neg (by omega), List.append_nil]
    cases hraised
    exact h
  · have hargs : 0 ≤ n ∧ 0 < bs := by omega
    obtain ⟨pre, t, post, slots, rfl, hrun, ht, -⟩ := raises_at h.tabled h.pool hargs hkeeps hraised
    rw [if_pos hargs, spenders_append_error hrun ht]
    exact h.resolve (fun u hu => htopk u (List.mem_append_left _ hu)) hrun

/-- A cleared state table has no resident token. -/
theorem replicate_notResident (n t : ℕ) : read (List.replicate n INVALID) t ≠ HBM_RESIDENT := by
  by_cases hlt : t < n
  · rw [read_of_lt (by rwa [List.length_replicate]), List.getElem_replicate]
    decide
  · rw [read_of_ge (by rw [List.length_replicate]; omega)]
    decide

/-- Nobody is resident, so nobody has taken a slot. -/
theorem Ledger.full (htabled : Tabled c) (hnone : ∀ t, ¬ Resident c t)
    (hcount : c.free_slot_count = c.managed_slot_count)
    (hstack : c.free_slot_stack = (List.range c.managed_slot_count).map fun i : ℕ => (i : ℤ)) :
    Ledger [] c where
  tabled := htabled
  pool := Pool.full hnone hcount hstack
  resident_lt t ht := absurd ht (hnone t)
  nodup := List.nodup_nil
  mem t := ⟨fun ht => (nomatch ht), fun ht => absurd ht (hnone t)⟩
  count := by
    rw [hcount]
    exact Int.add_zero _

/-- A reset that has failed in the middle has emptied the context: nobody is resident, and all
slots are free. -/
theorem Ledger.emptied (h : Ledger spent c) (req_id : String) (n pre : ℤ) :
    Ledger [] (c.emptied req_id n pre) := by
  refine Ledger.full ?_ (replicate_notResident c.token_state.length) rfl rfl
  obtain ⟨h1, h2, h3, h4, -⟩ := h.tabled
  exact ⟨List.length_replicate.trans h1, List.length_replicate.trans h2,
    List.length_replicate.trans h3, List.length_replicate.trans h4, by simp [Context.emptied, Context.cleared]⟩

/-- A reset that goes through starts a new ledger. -/
theorem Ledger.afterReset (h : Ledger spent c) (req_id : String) (n pre : ℤ) (block_table : List ℤ) :
    Ledger [] (c.reset req_id n pre block_table) :=
  Ledger.full h.tabled.reset (reset_notResident h.tabled req_id n pre block_table) rfl rfl

/-- Whichever way a reset returns, it returns with a new ledger. -/
theorem Ledger.reset (h : Ledger spent c) {req_id : String} {n pre : ℤ} {block_table : List ℤ}
    (hok : resetState req_id n pre block_table c = .ok () c') : Ledger [] c' := by
  rcases resetState_cases c req_id n pre block_table with ⟨e, he, -⟩ | ⟨e, he, -⟩ | ⟨-, he⟩
  · rw [he] at hok
    cases hok
  · rw [he] at hok
    cases hok
  · rw [he] at hok
    cases hok
    exact h.afterReset req_id n pre block_table

/-- A mark of a token at or past the end; it was not resident. -/
theorem Ledger.mark (h : Ledger spent c) {t : ℤ} (ht : c.actual_seq_len ≤ t)
    (hok : markDecodeToken t c = .ok () c') : Ledger spent c' := by
  by_cases hrange : t < 0 ∨ t ≥ c.max_seq_len
  · obtain ⟨e, he⟩ := markDecodeToken_error hrange
    rw [he] at hok
    cases hok
  · rw [markDecodeToken_ok _ (by omega) (by omega)] at hok
    cases hok
    have hlt : t.toNat < c.token_state.length := by
      rw [h.tabled.state_length]
      omega
    -- the marked token lies past the end, where nobody is resident
    have hnew : ¬ Resident c t.toNat := by
      intro hr
      have := h.resident_lt _ hr
      omega
    have hres := mark_resident hlt hnew
    refine ⟨?_, h.pool.congr rfl rfl rfl rfl rfl hres, ?_, h.nodup,
      fun u => (h.mem u).trans (hres u).symm, h.count⟩
    · obtain ⟨h1, h2, h3, h4, h5⟩ := h.tabled
      exact ⟨List.length_set.trans h1, h2, h3, h4, h5⟩
    · intro u hu
      have := h.resident_lt u ((hres u).mp hu)
      show (u : ℤ) < max c.actual_seq_len (t + 1)
      omega

theorem ledger_fresh {max_seq_len block_size : ℕ} {rows_0 : List α} {rows_1 : List β} :
    Ledger [] (freshContext max_seq_len block_size rows_0 rows_1) :=
  Ledger.full freshContext_tabled (replicate_notResident max_seq_len) rfl rfl

/-- What a context of a run is like. -/
theorem PoolRun.ledger {max_seq_len block_size : ℕ} {rows_0 : List α} {rows_1 : List β}
    (h : PoolRun max_seq_len block_size rows_0 rows_1 spent c) : Ledger spent c := by
  induction h with
  | fresh => exact ledger_fresh
  | reset req_id n pre block_table _ hok ih => exact ih.reset hok
  | resolve src topk n bs _ htopk hok ih =>
      unfold asuResolveKvSlotsSingleReq at hok
      split_ifs at hok
      · cases hok
      · cases hok
      · exact ih.resolve htopk hok
  | raised src topk n bs _ htopk hkeeps hraised ih => exact ih.raised htopk hkeeps hraised
  | mark _ hok ih => exact ih.mark (le_refl _) hok

/-- A turn on a resident token leaves the context alone. -/
theorem resolveToken_resident (hc : Tabled c) (hp : Pool c) (src : Source α β) (n : ℤ) (bs : ℕ) {t : ℕ}
    (ht : Resident c t) :
    (∃ e, resolveToken src n bs t c = .error e c) ∨ ∃ s, resolveToken src n bs t c = .ok s c := by
  have hturn := resolveToken_turn hc hp src n bs t
  generalize hr : resolveToken src n bs t c = r at hturn
  cases hturn with
  | refused e h => exact Or.inl ⟨e, rfl⟩
  | resident hin h => exact Or.inr ⟨_, rfl⟩
  | lost e hin hrow hpos hcopies => exact absurd ht (sourceSlot_not_resident hrow)
  | installed hin hrow hpos hslot hcopies => exact absurd ht (sourceSlot_not_resident hrow)

/-- A call for resident tokens changes nothing, also where it raises. -/
theorem resolve_idle (hc : Tabled c) (hp : Pool c) {topk : List ℤ} (n : ℤ) (bs : ℕ)
    (htopk : ∀ t ∈ topk, ∃ u : ℕ, t = u ∧ Resident c u) :
    after (asuResolveKvSlotsSingleReq src topk n bs c) = c := by
  unfold asuResolveKvSlotsSingleReq
  split_ifs
  · rfl
  · rfl
  · induction topk with
    | nil => rfl
    | cons t topk ih =>
        have ih := ih fun u hu => htopk u (List.mem_cons_of_mem t hu)
        obtain ⟨u, rfl, hu⟩ := htopk t List.mem_cons_self
        rw [List.mapM_cons]
        rcases resolveToken_resident hc hp src n bs hu with ⟨e, he⟩ | ⟨s, hs⟩
        · rw [bind_error he]
          rfl
        · rw [bind_ok hs]
          cases hrest : topk.mapM (resolveToken src n bs) c with
          | ok slots c' =>
              rw [hrest] at ih
              rw [bind_ok hrest]
              exact ih
          | error e c' =>
              rw [hrest] at ih
              rw [bind_error hrest]
              exact ih

variable {γ δ : Type}

/-- The ledger says nothing of the caches. -/
theorem Ledger.recached (h : Ledger spent c) (cache_0 : List γ) (cache_1 : List δ) :
    Ledger spent { c with managed_kv_cache_0 := cache_0, managed_kv_cache_1 := cache_1 } := by
  obtain ⟨h1, h2, h3, h4, h5⟩ := h.tabled
  obtain ⟨p1, p2, p3, p4, p5, p6, p7⟩ := h.pool
  exact ⟨⟨h1, h2, h3, h4, h5⟩, ⟨p1, p2, p3, p4, p5, p6, p7⟩, h.resident_lt, h.nodup, h.mem, h.count⟩

end

/-! ## The pool of a run -/

/-- **The slot pool** of a context of any run: the free slots and those of resident tokens
share out the managed cache, two resident tokens never share a slot, each token has taken one
slot at most since the last reset, and those are all that the stack has lost. A call for
resident tokens alone changes nothing. -/
theorem slot_pool {max_seq_len block_size : ℕ} {rows_0 : List α} {rows_1 : List β}
    {spent : List ℕ} {c : Context α β} (h : PoolRun max_seq_len block_size rows_0 rows_1 spent c) :
    Pool c ∧
    (∀ t u, Resident c t → Resident c u →
      read c.hbm_slot_of_token t = read c.hbm_slot_of_token u → t = u) ∧
    (spent.Nodup ∧ (∀ t, t ∈ spent ↔ Resident c t) ∧
      c.free_slot_count + spent.length = c.managed_slot_count) ∧
    ∀ (src : Source α β) (topk : List ℤ) (n : ℤ) (bs : ℕ),
      (∀ t ∈ topk, ∃ u : ℕ, t = u ∧ Resident c u) →
        after (asuResolveKvSlotsSingleReq src topk n bs c) = c := by
  have hledger := h.ledger
  refine ⟨hledger.pool, ?_, ⟨hledger.nodup, hledger.mem, hledger.count⟩, ?_⟩
  · intro t u ht hu heq
    exact hledger.pool.slot_inj ht hu heq
  · intro src topk n bs htopk
    exact resolve_idle hledger.tabled hledger.pool n bs htopk

/-- A reset and a call that asks for one token twice. -/
theorem slot_pool_repeated :
    ∃ c : Context ℕ ℕ, PoolRun 3 1 [0, 0] [0, 0] [1] c ∧ Resident c 1 ∧ Pool c ∧
      after (asuResolveKvSlotsSingleReq ⟨[2, 1, 0], [7, 8, 9], [7, 8, 9]⟩ [1, 1] 2 1 c) = c := by
  have hreset : PoolRun 3 1 [0, 0] [0, 0] []
      ((freshContext 3 1 [0, 0] [0, 0] : Context ℕ ℕ).reset "req" 2 2 [2, 1, 0]) :=
    .reset "req" 2 2 [2, 1, 0] .fresh rfl
  have hrun : PoolRun 3 1 [0, 0] [0, 0] [1] _ :=
    .resolve ⟨[2, 1, 0], [7, 8, 9], [7, 8, 9]⟩ [1, 1] 2 1 hreset (by decide) rfl
  have hpool := slot_pool hrun
  refine ⟨_, hrun, rfl, hpool.1, hpool.2.2.2 _ _ _ _ ?_⟩
  intro t ht
  rcases List.mem_pair.mp ht with rfl | rfl
  · exact ⟨1, rfl, rfl⟩
  · exact ⟨1, rfl, rfl⟩

end AsuAscend.Decode
