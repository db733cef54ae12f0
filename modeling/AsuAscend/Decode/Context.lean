/-
The KV cache context of one layer: `ASULayerKVCacheContext` of
`vllm_ascend/attention/asu_kv_cache_manager.py`
(`patch/0003-9321d234-feat-wire-asu-kv-manager-into-decode-sfa.patch`).

A method mutates the context in place and can raise, so it runs in `EStateM`. The
tensors are lists: a cache row is a value of `α` (first cache) or `β` (second
cache), and an integer tensor is a list of integers. Storing into an `int32` tensor
wraps where the source casts to it (`asu_record_addr`); slot numbers and the free
count are below `managed_slot_count`, which an `int32` scalar tensor holds.

## A raise keeps what was written

`EStateM` has the state of the moment at which a method raised, which is what Python leaves: a
`reset_state` that finds the block table too short has replaced the request and emptied the tables
before it raises. `resetState_cases` says once what a reset can do, with the arguments it succeeds
on (`ResetArgs`) and the two contexts it can fail with, and what is proved about resets goes by it.

The methods are given their values one by one where the source fills a range of a tensor
(`fillSlice`, `copyPrefix`); a range of length zero changes nothing, as in the source.
-/
import AsuAscend.Lib.MachineWords
import AsuAscend.Lib.SentinelTable
import AsuAscend.Lib.StateExcept

set_option autoImplicit false

open MachineWords SentinelTable

namespace AsuAscend.Decode

/-! ## Exceptions and tensors -/

inductive PyError where
  | ValueError (message : String)
  | RuntimeError (message : String)
  | IndexError (message : String)
  | KeyError (key : String)
deriving DecidableEq

def INVALID : ℤ := -1

def ASU_ONLY : ℤ := 0

def HBM_RESIDENT : ℤ := 1

def TAIL_HBM : ℤ := 2

/-- `tensor[lo:hi].fill_(value)` -/
def fillSlice (tensor : List ℤ) (lo hi : ℕ) (value : ℤ) : List ℤ :=
  tensor.mapIdx fun i x => if lo ≤ i ∧ i < hi then value else x

/-- `tensor[:len(values)].copy_(values)` -/
def copyPrefix (tensor values : List ℤ) : List ℤ :=
  tensor.mapIdx fun i x => if i < values.length then read values i else x

/-- A slice assignment keeps the length of the tensor; Python's slices never grow it. -/
theorem fillSlice_length (tensor : List ℤ) (lo hi : ℕ) (value : ℤ) :
    (fillSlice tensor lo hi value).length = tensor.length := List.length_mapIdx

theorem copyPrefix_length (tensor values : List ℤ) :
    (copyPrefix tensor values).length = tensor.length := List.length_mapIdx

/-- A slice assignment, entry by entry. Slices of Python are half-open. -/
theorem read_fillSlice {tensor : List ℤ} {i : ℕ} (h : i < tensor.length) (lo hi : ℕ) (value : ℤ) :
    read (fillSlice tensor lo hi value) i = if lo ≤ i ∧ i < hi then value else read tensor i := by
  rw [read_of_lt (by rw [fillSlice_length]; exact h), read_of_lt h]
  exact List.getElem_mapIdx

/-- A copy into the front, entry by entry. -/
theorem read_copyPrefix {tensor : List ℤ} {i : ℕ} (h : i < tensor.length) (values : List ℤ) :
    read (copyPrefix tensor values) i =
      if i < values.length then read values i else read tensor i := by
  rw [read_of_lt (by rw [copyPrefix_length]; exact h), read_of_lt h]
  exact List.getElem_mapIdx

/-! ## The context -/

structure Context (α β : Type) where
  managed_kv_cache_0 : List α
  managed_kv_cache_1 : List β
  token_state : List ℤ
  asu_record_addr : List ℤ
  hbm_slot_of_token : List ℤ
  slot_owner_token : List ℤ
  free_slot_stack : List ℤ
  free_slot_count : ℤ
  max_seq_len : ℕ
  managed_slot_count : ℕ
  block_size : ℕ
  req_id : Option String
  actual_seq_len : ℤ
  managed_prefix_len : ℤ

variable {α β : Type}

/-- A method of the context, or code that works on its tensors. -/
abbrev Method (α β : Type) := EStateM PyError (Context α β)

/-- The shapes that `from_kv_caches` gives the tensors. -/
structure Shaped (c : Context α β) : Prop where
  block_pos : 0 < c.block_size
  state_length : c.token_state.length = c.max_seq_len
  addr_length : c.asu_record_addr.length = c.max_seq_len
  slot_length : c.hbm_slot_of_token.length = c.max_seq_len
  owner_length : c.slot_owner_token.length = c.managed_slot_count
  stack_length : c.free_slot_stack.length = c.managed_slot_count
  cache_0_length : c.managed_kv_cache_0.length = c.managed_slot_count
  cache_1_length : c.managed_kv_cache_1.length = c.managed_slot_count

/-- The shapes of the tables alone. -/
structure Tabled (c : Context α β) : Prop where
  state_length : c.token_state.length = c.max_seq_len
  addr_length : c.asu_record_addr.length = c.max_seq_len
  slot_length : c.hbm_slot_of_token.length = c.max_seq_len
  owner_length : c.slot_owner_token.length = c.managed_slot_count
  stack_length : c.free_slot_stack.length = c.managed_slot_count

/-- The tables are part of the shape; what `Shaped` has more is about the caches. -/
theorem Shaped.tabled {c : Context α β} (h : Shaped c) : Tabled c :=
  ⟨h.state_length, h.addr_length, h.slot_length, h.owner_length, h.stack_length⟩

/-- The row of the paged cache that a block table gives a token. -/
def sourceRow (block_table : List ℤ) (block_size t : ℕ) : ℤ :=
  read block_table (t / block_size) * block_size + (t % block_size : ℕ)

/-! ## `reset_state` -/

/-- The integer tensors and the free stack, emptied. -/
def Context.cleared (c : Context α β) : Context α β :=
  { c with
    token_state := List.replicate c.token_state.length INVALID
    asu_record_addr := List.replicate c.asu_record_addr.length INVALID
    hbm_slot_of_token := List.replicate c.hbm_slot_of_token.length INVALID
    slot_owner_token := List.replicate c.slot_owner_token.length INVALID
    free_slot_stack := (List.range c.managed_slot_count).map fun i : ℕ => (i : ℤ)
    free_slot_count := c.managed_slot_count }

/-- The prefix of the request: each token's row is written down now. -/
def Context.withPrefix (c : Context α β) (pre : ℕ) (block_table : List ℤ) : Context α β :=
  { c with
    token_state := fillSlice c.token_state 0 pre ASU_ONLY
    -- computed in `int64`, stored as `int32`
    asu_record_addr := copyPrefix c.asu_record_addr
      ((List.range pre).map fun t => i32 (sourceRow block_table c.block_size t)) }

def Context.withTail (c : Context α β) (pre len : ℕ) : Context α β :=
  { c with token_state := fillSlice c.token_state pre len TAIL_HBM }

def resetState (req_id : String) (actual_seq_len managed_prefix_len : ℤ)
    (original_block_table : List ℤ) : Method α β Unit := do
  let c ← get
  if actual_seq_len < 0 then
    throw (.ValueError "actual_seq_len must be non-negative")
  else if managed_prefix_len < 0 then
    throw (.ValueError "managed_prefix_len must be non-negative")
  else if managed_prefix_len > actual_seq_len then
    throw (.ValueError "managed_prefix_len must not exceed actual_seq_len")
  else if actual_seq_len > c.max_seq_len then
    throw (.RuntimeError "ASU max_seq_len does not cover actual_seq_len")
  else do
    modify fun c => { c with req_id := some req_id, actual_seq_len, managed_prefix_len }
    modify Context.cleared
    if managed_prefix_len > 0 then
      -- the block of the last prefix token
      if (managed_prefix_len.toNat - 1) / c.block_size ≥ original_block_table.length then
        throw (.RuntimeError "original_block_table does not cover ASU prefix")
      else
        modify fun c => c.withPrefix managed_prefix_len.toNat original_block_table
    else pure ()
    if managed_prefix_len < actual_seq_len then
      modify fun c => c.withTail managed_prefix_len.toNat actual_seq_len.toNat
    else pure ()

/-! ## `mark_decode_token` -/

def markDecodeToken (token_id : ℤ) : Method α β Unit := do
  let c ← get
  if token_id < 0 ∨ token_id ≥ c.max_seq_len then
    throw (.RuntimeError "decode token_id is outside ASU max_seq_len")
  else
    modify fun c => { c with
      actual_seq_len := max c.actual_seq_len (token_id + 1)
      token_state := c.token_state.set token_id.toNat TAIL_HBM }

/-! ## What they do -/

section

variable {c : Context α β}

/-- What a successful reset was given. -/
structure ResetArgs (c : Context α β) (n pre : ℤ) (block_table : List ℤ) : Prop where
  pre_nonneg : 0 ≤ pre
  pre_le : pre ≤ n
  len_le : n ≤ c.max_seq_len
  covers : 0 < pre → (pre.toNat - 1) / c.block_size < block_table.length

/-- The context when the block table turns out too short: the request written down, and the
tables empty. -/
def Context.emptied (c : Context α β) (req_id : String) (n pre : ℤ) : Context α β :=
  ({ c with req_id := some req_id, actual_seq_len := n, managed_prefix_len := pre } :
    Context α β).cleared

/-- The context after a successful reset. -/
def Context.reset (c : Context α β) (req_id : String) (n pre : ℤ) (block_table : List ℤ) :
    Context α β :=
  (({ c with req_id := some req_id, actual_seq_len := n, managed_prefix_len := pre } :
    Context α β).cleared.withPrefix pre.toNat block_table).withTail pre.toNat n.toNat

/-- An empty slice, as `reset_state` makes one when the prefix is the whole sequence. -/
theorem fillSlice_self (tensor : List ℤ) (lo : ℕ) (value : ℤ) :
    fillSlice tensor lo lo value = tensor := by
  refine List.ext_getElem (fillSlice_length _ _ _ _) fun i h1 h2 => ?_
  rw [← read_of_lt h1, ← read_of_lt h2, read_fillSlice h2, if_neg (by omega)]

/-- Copying no values, as `reset_state` does when there is no prefix in the store. -/
theorem copyPrefix_nil (tensor : List ℤ) : copyPrefix tensor [] = tensor := by
  refine List.ext_getElem (copyPrefix_length _ _) fun i h1 h2 => ?_
  rw [← read_of_lt h1, ← read_of_lt h2, read_copyPrefix h2, if_neg (by simp)]

/-- **A reset** raises before it touches the context, raises after emptying it when
the block table is too short for the prefix, or returns with the context reset. -/
theorem resetState_cases (c : Context α β) (req_id : String) (n pre : ℤ) (block_table : List ℤ) :
    (∃ e, resetState req_id n pre block_table c = .error e c ∧
      ¬ (0 ≤ pre ∧ pre ≤ n ∧ n ≤ c.max_seq_len)) ∨
    (∃ e, resetState req_id n pre block_table c = .error e (c.emptied req_id n pre) ∧
      (pre ≤ n ∧ n ≤ c.max_seq_len) ∧
      0 < pre ∧ block_table.length ≤ (pre.toNat - 1) / c.block_size) ∨
    (ResetArgs c n pre block_table ∧
      resetState req_id n pre block_table c = .ok () (c.reset req_id n pre block_table)) := by
  unfold resetState
  rw [StateExcept.get_bind]
  -- the four checks of the arguments, in their order: nothing has been written yet
  by_cases h1 : n < 0
  · rw [if_pos h1]
    exact Or.inl ⟨_, rfl, by omega⟩
  rw [if_neg h1]
  by_cases h2 : pre < 0
  · rw [if_pos h2]
    exact Or.inl ⟨_, rfl, by omega⟩
  rw [if_neg h2]
  by_cases h3 : pre > n
  · rw [if_pos h3]
    exact Or.inl ⟨_, rfl, by omega⟩
  rw [if_neg h3]
  by_cases h4 : n > c.max_seq_len
  · rw [if_pos h4]
    exact Or.inl ⟨_, rfl, by omega⟩
  -- past them the request and its length are written, and the tables are emptied
  rw [if_neg h4, StateExcept.modify_bind, StateExcept.modify_bind]
  by_cases h5 : pre > 0
  · rw [if_pos h5]
    -- the check of the block table comes after that
    by_cases h6 : (pre.toNat - 1) / c.block_size ≥ block_table.length
    · rw [if_pos h6]
      exact Or.inr (Or.inl ⟨_, StateExcept.bind_error (StateExcept.throw_run _ _),
        ⟨by omega, by omega⟩, h5, h6⟩)
    · rw [if_neg h6, StateExcept.modify_bind]
      refine Or.inr (Or.inr ⟨⟨by omega, by omega, by omega, fun _ => by omega⟩, ?_⟩)
      -- a prefix, and a tail behind it or none
      by_cases h7 : pre < n
      · rw [if_pos h7]
        rfl
      · have hpn : pre = n := by omega
        rw [if_neg h7]
        subst hpn
        simp only [StateExcept.pure_run, Context.reset, Context.withTail, fillSlice_self]
  -- no prefix: nothing is recorded, and all tokens are in the tail
  · have h0 : pre = 0 := by omega
    subst h0
    rw [if_neg h5]
    refine Or.inr (Or.inr ⟨⟨by omega, by omega, by omega, fun _ => by omega⟩, ?_⟩)
    have hprefix : ∀ c : Context α β, c.withPrefix (0 : ℤ).toNat block_table = c := by
      intro c
      simp only [Context.withPrefix, Int.toNat_zero, fillSlice_self, List.range_zero, List.map_nil,
        copyPrefix_nil]
    dsimp only
    by_cases h7 : (0 : ℤ) < n
    · rw [if_pos h7]
      simp only [StateExcept.modify_run, Context.reset, hprefix]
    · have hn : n = 0 := by omega
      subst hn
      rw [if_neg h7]
      simp only [StateExcept.pure_run, Context.reset, hprefix, Context.withTail, fillSlice_self]

/-- Inside the tables a mark returns: the sequence is as long as the token says, or longer, and
the token is in the tail. -/
theorem markDecodeToken_ok (token_id : ℤ) (h0 : 0 ≤ token_id) (h1 : token_id < c.max_seq_len) :
    markDecodeToken token_id c = .ok () { c with
      actual_seq_len := max c.actual_seq_len (token_id + 1)
      token_state := c.token_state.set token_id.toNat TAIL_HBM } := by
  unfold markDecodeToken
  rw [StateExcept.get_bind, if_neg (by omega)]
  rfl

/-- Outside the tables it raises before it has written anything. -/
theorem markDecodeToken_error {token_id : ℤ} (h : token_id < 0 ∨ token_id ≥ c.max_seq_len) :
    ∃ e, markDecodeToken token_id c = .error e c := by
  unfold markDecodeToken
  rw [StateExcept.get_bind, if_pos h]
  exact ⟨_, rfl⟩

/-! ## The context after a reset -/

variable {req_id : String} {n pre : ℤ} {block_table : List ℤ}

/-- A reset writes into tables that exist already, so that their lengths stay. -/
theorem Tabled.reset (hc : Tabled c) : Tabled (c.reset req_id n pre block_table) := by
  constructor
  · simp [Context.reset, Context.withTail, Context.withPrefix, Context.cleared, fillSlice_length,
      hc.state_length]
  · simp [Context.reset, Context.withTail, Context.withPrefix, Context.cleared, copyPrefix_length,
      hc.addr_length]
  · simp [Context.reset, Context.withTail, Context.withPrefix, Context.cleared, hc.slot_length]
  · simp [Context.reset, Context.withTail, Context.withPrefix, Context.cleared, hc.owner_length]
  · simp [Context.reset, Context.withTail, Context.withPrefix, Context.cleared]

/-- The caches and the block size are not the reset's to change. -/
theorem Shaped.reset (hc : Shaped c) : Shaped (c.reset req_id n pre block_table) := by
  obtain ⟨h1, h2, h3, h4, h5⟩ := (hc.tabled.reset : Tabled (c.reset req_id n pre block_table))
  exact ⟨hc.block_pos, h1, h2, h3, h4, h5, hc.cache_0_length, hc.cache_1_length⟩

/-- Prefix tokens are on record, the rest of the sequence is in the tail. -/
theorem reset_state (hc : Tabled c) {t : ℕ} (ht : t < c.max_seq_len) :
    read (c.reset req_id n pre block_table).token_state t =
      if (t : ℤ) < pre then ASU_ONLY else if (t : ℤ) < n then TAIL_HBM else INVALID := by
  have hlen := hc.state_length
  simp only [Context.reset, Context.withTail, Context.withPrefix, Context.cleared]
  rw [read_fillSlice (by rw [fillSlice_length, List.length_replicate]; omega),
    read_fillSlice (by rw [List.length_replicate]; omega),
    read_of_lt (by rw [List.length_replicate]; omega), List.getElem_replicate]
  split_ifs <;> first | rfl | omega

/-- What a reset records of a token of the prefix: its row in the paged cache, cut to 32 bits. -/
theorem reset_addr (hc : Tabled c) {t : ℕ} (ht : t < c.max_seq_len) (hpre : (t : ℤ) < pre) :
    read (c.reset req_id n pre block_table).asu_record_addr t =
      i32 (sourceRow block_table c.block_size t) := by
  have hlen := hc.addr_length
  simp only [Context.reset, Context.withTail, Context.withPrefix, Context.cleared]
  rw [read_copyPrefix (by rw [List.length_replicate]; omega), if_pos (by simp; omega),
    read_of_lt (by simp; omega)]
  simp

end

/-! ## A new context -/

/-- A context as `from_kv_caches` makes it, around newly allocated managed rows. -/
def freshContext (max_seq_len block_size : ℕ) (rows_0 : List α) (rows_1 : List β) :
    Context α β where
  managed_kv_cache_0 := rows_0
  managed_kv_cache_1 := rows_1
  token_state := List.replicate max_seq_len INVALID
  asu_record_addr := List.replicate max_seq_len INVALID
  hbm_slot_of_token := List.replicate max_seq_len INVALID
  slot_owner_token := List.replicate rows_0.length INVALID
  free_slot_stack := (List.range rows_0.length).map fun i : ℕ => (i : ℤ)
  free_slot_count := rows_0.length
  max_seq_len := max_seq_len
  managed_slot_count := rows_0.length
  block_size := block_size
  req_id := none
  actual_seq_len := 0
  managed_prefix_len := 0

/-- The tables of a new context all have the length of the longest sequence. -/
theorem freshContext_tabled {max_seq_len block_size : ℕ} {rows_0 : List α} {rows_1 : List β} :
    Tabled (freshContext max_seq_len block_size rows_0 rows_1) := by
  constructor <;> simp [freshContext]

/-- With a positive block size and caches of one length a new context has all of the shape. -/
theorem freshContext_shaped {max_seq_len block_size : ℕ} {rows_0 : List α} {rows_1 : List β}
    (hb : 0 < block_size) (hrows : rows_1.length = rows_0.length) :
    Shaped (freshContext max_seq_len block_size rows_0 rows_1) := by
  constructor <;> simp [freshContext, hb, hrows]

end AsuAscend.Decode
