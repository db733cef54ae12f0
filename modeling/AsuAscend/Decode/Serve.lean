/-
The decode path in service: `_execute_asu_sparse_flash_attention_process` of `sfa_v1.py`
(`patch/0003-9321d234-feat-wire-asu-kv-manager-into-decode-sfa.patch`), layer after layer, step
after step and request after request.

A layer's call brings the contexts of all layers up to the step, resolves its tokens and hands
the managed caches to the attention operator. The plain path reads a token's row out of the
paged cache, by the block table. Along a run in which each call goes on with the sequence or
starts another one (`Follows`), no call raises, and every slot that is handed over holds the
row that the plain path would read (`serve_reads_paged`).

## The plain path

`pagedRead` is what attention over the paged cache reads for a token: the block that the table of
this very call names, and the row within it. A `Sequence` gives the tokens' rows layer by layer,
independent of where they lie; a call presents it (`Presented`) if the paged caches of the layer
hold them where its block table says, if the rows have numbers that an `int32` can hold, and if the
blocks of the prefix are still the ones of the reset. The caches may change between calls
otherwise, and the blocks of other tokens may move, as long as their rows are found.

`Lasting` keeps a property of the contexts along a run beside the invariant; `ServeKernel` passes
the shapes of the caches through it.
-/
import AsuAscend.Decode.Gather
import AsuAscend.Decode.InStep
import AsuAscend.Lib.FlatMemory
import AsuAscend.Lib.Folds

set_option autoImplicit false

open SentinelTable StateExcept FlatMemory

namespace AsuAscend.Decode

variable {α β : Type}

/-! ## The attention of a layer -/

/-- `_flatten_pa_cache`, of a cache of blocks of rows. -/
def flattenPaCache {γ : Type} (cache : List (List γ)) : List γ := cache.flatten

/-- What `forward` has of one layer when it comes to the attention. -/
structure LayerCall (α β : Type) where
  enable_dsa_cp : Bool
  layer_name : String
  attn_metadata : DecodeMetadata
  kv_cache_0 : List (List α)
  kv_cache_1 : List (List β)
  topk_indices : List ℤ

/-- `original_kv_cache_views`, and the block table. -/
def LayerCall.source (call : LayerCall α β) : Source α β where
  original_block_table := call.attn_metadata.block_table
  original_kv_cache_0 := flattenPaCache call.kv_cache_0
  original_kv_cache_1 := flattenPaCache call.kv_cache_1

/-- A call that takes the path: the layer's context before and after the resolver, and the slots
that go to the attention operator with the context's managed caches. -/
structure Attended (α β : Type) where
  call : LayerCall α β
  before : Context α β
  resolved_kv_slots : List ℤ
  after : Context α β

/-- `_execute_asu_sparse_flash_attention_process`, up to the attention operator. -/
def executeAsuLayer (call : LayerCall α β) : ManagerMethod α β (Attended α β) := do
  let before ← prepareAsuLayerContext call.layer_name call.attn_metadata
  let resolved_kv_slots ← resolveLayer call.layer_name call.source call.topk_indices
  let after ← getLayerContext call.layer_name
  return ⟨call, before, resolved_kv_slots, after⟩

def LayerCall.takesPath (m : Manager α β) (call : LayerCall α β) : Bool :=
  useAsuKvCache call.enable_dsa_cp m call.layer_name call.attn_metadata

/-- The attention of `forward`; `none` is the plain path. -/
def attend (call : LayerCall α β) : ManagerMethod α β (Option (Attended α β)) := do
  let m ← get
  if call.takesPath m then
    let a ← executeAsuLayer call
    return some a
  else return none

def serve : List (LayerCall α β) → ManagerMethod α β (List (Attended α β))
  | [] => pure []
  | call :: rest => do
      let a ← attend call
      let as ← serve rest
      return a.toList ++ as

/-! ## Paged reads -/

/-- The row of a token in the paged cache, as the plain path reads it. -/
def pagedRead {γ : Type} (cache : List (List γ)) (block_table : List ℤ) (block_size t : ℕ) : Option γ :=
  (block_table[t / block_size]?).bind fun block =>
    if block < 0 then none
    else (cache[block.toNat]?).bind fun rows => rows[t % block_size]?

section

variable {γ : Type} {cache : List (List γ)} {block_table : List ℤ} {block_size t : ℕ}

/-- A row of the paged cache, by block and offset, in the flat view that the resolver takes. -/
theorem flatten_getElem? (hcache : ∀ rows ∈ cache, rows.length = block_size) {b o : ℕ}
    (hb : b < cache.length) (ho : o < block_size) :
    cache.flatten[b * block_size + o]? = cache[b][o]? := by
  have hlen : cache[b].length = block_size := hcache _ (List.getElem_mem hb)
  rw [flatten_split hb, List.append_assoc,
    List.getElem?_append_right (by rw [length_flatten_take hcache hb]; omega),
    length_flatten_take hcache hb, Nat.add_sub_cancel_left, List.getElem?_append_left (by omega)]

/-- A row that the plain path reads, in the flattened cache. -/
theorem flat_of_pagedRead (hcache : ∀ rows ∈ cache, rows.length = block_size) (hpos : 0 < block_size)
    {row : γ} (h : pagedRead cache block_table block_size t = some row) :
    t / block_size < block_table.length ∧ ∃ r : ℕ, sourceRow block_table block_size t = r ∧
      (flattenPaCache cache)[r]? = some row := by
  unfold pagedRead at h
  obtain ⟨block, hblock, h⟩ := Option.bind_eq_some_iff.mp h
  obtain ⟨hlt, hget⟩ := List.getElem?_eq_some_iff.mp hblock
  split_ifs at h with hneg
  obtain ⟨rows, hrows, h⟩ := Option.bind_eq_some_iff.mp h
  obtain ⟨hb, rfl⟩ := List.getElem?_eq_some_iff.mp hrows
  refine ⟨hlt, block.toNat * block_size + t % block_size, ?_, ?_⟩
  · unfold sourceRow
    rw [read_of_lt hlt, hget, Nat.cast_add, Nat.cast_mul, Int.toNat_of_nonneg (by omega)]
  · unfold flattenPaCache
    rw [flatten_getElem? hcache hb (Nat.mod_lt t hpos)]
    exact h

end

/-! ## The sequence behind the calls -/

/-- A sequence of tokens: what the contexts were given of it when it started, and the rows of its
tokens in each layer. -/
structure Sequence (α β : Type) where
  req_id : String
  len : ℕ
  block_table : List ℤ
  pre : ℕ
  kv_0 : String → ℕ → α
  kv_1 : String → ℕ → β

/-- A call goes on with the sequence, which has grown by one token at most, or it starts another
one: of another request, after an empty one, or a shorter one. -/
inductive Advances (s : Option (Sequence α β)) (call : LayerCall α β) : Sequence α β → Prop
  | goesOn {q : Sequence α β} {n : ℕ} (hs : s = some q) (hreq : q.req_id = call.attn_metadata.reqId)
      (hpos : 0 < q.len) (hn : n = q.len ∨ n = q.len + 1) : Advances s call { q with len := n }
  | afresh {q : Sequence α β}
      (hs : ∀ q0, s = some q0 → q0.req_id ≠ q.req_id ∨ q0.len = 0 ∨ q.len < q0.len)
      (hreq : q.req_id = call.attn_metadata.reqId)
      (htable : q.block_table = call.attn_metadata.block_table) (hpre : q.pre = q.len - 1) :
      Advances s call q

/-- The call is about that sequence: the paged caches hold its rows, of which an `int32_t` can
number all, the blocks of its prefix are where they were, and the tokens asked for exist. -/
structure Presented (max_seq_len block_size : ℕ) (q : Sequence α β) (call : LayerCall α β) : Prop where
  len : call.attn_metadata.seq_lens_cpu.head? = some (q.len : ℤ)
  len_le : q.len ≤ max_seq_len
  blocks_0 : ∀ rows ∈ call.kv_cache_0, rows.length = block_size
  blocks_1 : ∀ rows ∈ call.kv_cache_1, rows.length = block_size
  rows_le : call.kv_cache_0.length * block_size ≤ 2 ^ 31
  data : ∀ t < q.len,
    pagedRead call.kv_cache_0 call.attn_metadata.block_table block_size t =
      some (q.kv_0 call.layer_name t) ∧
    pagedRead call.kv_cache_1 call.attn_metadata.block_table block_size t =
      some (q.kv_1 call.layer_name t)
  table : ∀ t < q.pre, read call.attn_metadata.block_table (t / block_size) =
    read q.block_table (t / block_size)
  topk : ∀ t ∈ call.topk_indices, 0 ≤ t ∧ t < q.len

/-- A run of calls. Those that do not take the path may be about anything. -/
def Follows (m0 : Manager α β) : Option (Sequence α β) → List (LayerCall α β) → Prop
  | _, [] => True
  | s, call :: rest =>
      if call.takesPath m0 then
        ∃ q, Advances s call q ∧ Presented m0.max_seq_len m0.block_size q call ∧
          Follows m0 (some q) rest
      else Follows m0 s rest

/-- Every slot handed over holds the row that the plain path reads. -/
structure ReadsPaged (block_size : ℕ) (a : Attended α β) : Prop where
  resolved : asuResolveKvSlotsSingleReq a.call.source a.call.topk_indices a.before.actual_seq_len
    a.before.block_size a.before = .ok a.resolved_kv_slots a.after
  length : a.resolved_kv_slots.length = a.call.topk_indices.length
  rows : ∀ (p : ℕ) (t s : ℤ), a.call.topk_indices[p]? = some t → a.resolved_kv_slots[p]? = some s →
    0 ≤ s ∧ ∃ row_0 row_1,
      a.after.managed_kv_cache_0[s.toNat]? = some row_0 ∧
      pagedRead a.call.kv_cache_0 a.call.attn_metadata.block_table block_size t.toNat = some row_0 ∧
      a.after.managed_kv_cache_1[s.toNat]? = some row_1 ∧
      pagedRead a.call.kv_cache_1 a.call.attn_metadata.block_table block_size t.toNat = some row_1

/-! ## The contexts in between -/

/-- The sizes of a context, which no step changes. -/
structure Sized (m0 : Manager α β) (c : Context α β) : Prop where
  shaped : Shaped c
  max_seq_len : c.max_seq_len = m0.max_seq_len
  block_size : c.block_size = m0.block_size
  enough : c.max_seq_len ≤ c.managed_slot_count

/-- What a layer's context knows of the sequence. -/
def Holds : Option (Sequence α β) → String × Context α β → Prop
  | none, p => p.2.actual_seq_len = 0
  | some q, p => p.2.req_id = some q.req_id ∧
      Managed (q.kv_0 p.1) (q.kv_1 p.1) q.block_table q.pre q.len p.2

/-- A context that has been marked. -/
def Context.marked (c : Context α β) (token_id : ℕ) : Context α β :=
  { c with
    actual_seq_len := max c.actual_seq_len (token_id + 1)
    token_state := c.token_state.set token_id TAIL_HBM }

/-- A property of a layer's context that the steps of a run keep. -/
structure Lasting (Also : String × Context α β → Prop) (calls : List (LayerCall α β)) : Prop where
  reset : ∀ p req_id n pre block_table, Also p → Also (p.1, p.2.reset req_id n pre block_table)
  marked : ∀ p token_id, Also p → Also (p.1, p.2.marked token_id)
  resolved : ∀ call ∈ calls, ∀ c n block_size slots c', Also (call.layer_name, c) →
    asuResolveKvSlotsSingleReq call.source call.topk_indices n block_size c = .ok slots c' →
    Also (call.layer_name, c')

structure InService (Also : String × Context α β → Prop) (m0 m : Manager α β)
    (s : Option (Sequence α β)) : Prop where
  enabled : m.enabled = m0.enabled
  keys : m.contexts.map Prod.fst = m0.contexts.map Prod.fst
  sized : ∀ p ∈ m.contexts, Sized m0 p.2
  holds : ∀ p ∈ m.contexts, Holds s p
  also : ∀ p ∈ m.contexts, Also p
  bound : ∀ q, s = some q → ∀ t < q.pre, sourceRow q.block_table m0.block_size t < 2 ^ 31

section

variable {Also : String × Context α β → Prop} {m0 m : Manager α β} {s : Option (Sequence α β)}
  {call : LayerCall α β} {calls : List (LayerCall α β)} {q : Sequence α β} {c : Context α β}

/-- A request whose rows are presented block by block presents them in the flat view too. -/
theorem Presented.presents {n : ℕ} (hp : Presented n m0.block_size q call) (hpos : 0 < m0.block_size) :
    Presents (q.kv_0 call.layer_name) (q.kv_1 call.layer_name) m0.block_size q.len call.source := by
  intro t ht
  obtain ⟨h0, h1⟩ := hp.data t ht
  obtain ⟨hlt, r, hr, hrow_0⟩ := flat_of_pagedRead hp.blocks_0 hpos h0
  obtain ⟨_, r', hr', hrow_1⟩ := flat_of_pagedRead hp.blocks_1 hpos h1
  have hsame : r = r' := by exact_mod_cast hr.symm.trans hr'
  exact ⟨hlt, r, hr, hrow_0, hsame ▸ hrow_1⟩

/-- The rows of the sequence's tokens, as numbers. -/
theorem Presented.sourceRow_lt {n : ℕ} (hp : Presented n m0.block_size q call)
    (hpos : 0 < m0.block_size) {t : ℕ} (ht : t < q.len) :
    sourceRow call.attn_metadata.block_table m0.block_size t < 2 ^ 31 := by
  obtain ⟨_, r, hr, hrow, _⟩ := hp.presents hpos t ht
  have hlen : call.source.original_kv_cache_0.length = call.kv_cache_0.length * m0.block_size :=
    length_flatten_rows hp.blocks_0
  have hlt := (List.getElem?_eq_some_iff.mp hrow).1
  have hle := hp.rows_le
  have hr : sourceRow call.attn_metadata.block_table m0.block_size t = r := hr
  omega

/-- The context of a layer after an operation on all contexts. -/
theorem lookup_mapped {cs : List (String × Context α β)} {f : String × Context α β → Context α β}
    {layer_name : String} (h : cs.lookup layer_name = some c) :
    (cs.map fun p => (p.1, f p)).lookup layer_name = some (f (layer_name, c)) := by
  obtain ⟨before, rest, rfl, hbefore⟩ := List.lookup_eq_some_iff.mp h
  apply List.lookup_eq_some_iff.mpr
  refine ⟨before.map fun p => (p.1, f p), rest.map fun p => (p.1, f p), by simp, ?_⟩
  intro p hp
  obtain ⟨p', hp', rfl⟩ := List.mem_map.mp hp
  exact hbefore p' hp'

/-- A step that changes the contexts, each on its own. -/
theorem InService.mapped (h : InService Also m0 m s) {s' : Option (Sequence α β)}
    {f : String × Context α β → Context α β}
    (hf : ∀ p ∈ m.contexts, Sized m0 (f p) ∧ Holds s' (p.1, f p) ∧ Also (p.1, f p))
    (hbound : ∀ q, s' = some q → ∀ t < q.pre, sourceRow q.block_table m0.block_size t < 2 ^ 31) :
    InService Also m0 { m with contexts := m.contexts.map fun p => (p.1, f p) } s' := by
  refine ⟨h.enabled, ?_, fun p hp => ?_, fun p hp => ?_, fun p hp => ?_, hbound⟩
  · rw [← h.keys]
    simp [Function.comp_def]
  · obtain ⟨p', hp', rfl⟩ := List.mem_map.mp hp
    exact (hf p' hp').1
  · obtain ⟨p', hp', rfl⟩ := List.mem_map.mp hp
    exact (hf p' hp').2.1
  · obtain ⟨p', hp', rfl⟩ := List.mem_map.mp hp
    exact (hf p' hp').2.2

/-! ## A call -/

/-- The first layer of a step that starts afresh resets the contexts of all layers. -/
theorem prepare_afresh (hlast : Lasting Also calls) (h : InService Also m0 m s) (henabled : m0.enabled = true)
    (hl : m.contexts.lookup call.layer_name = some c) (hone : call.attn_metadata.num_actual_tokens = 1)
    (hs : ∀ q0, s = some q0 → q0.req_id ≠ q.req_id ∨ q0.len = 0 ∨ q.len < q0.len)
    (hreq : q.req_id = call.attn_metadata.reqId)
    (htable : q.block_table = call.attn_metadata.block_table) (hpre : q.pre = q.len - 1)
    (hp : Presented m0.max_seq_len m0.block_size q call) :
    ∃ c' m', prepareAsuLayerContext call.layer_name call.attn_metadata m = .ok c' m' ∧
      m'.contexts.lookup call.layer_name = some c' ∧ InService Also m0 m' (some q) := by
  have hlen := hp.len_le
  have hsize := fun p hp => h.sized p hp
  have hpos : 0 < m0.block_size := by
    rw [← (hsize _ (mem_of_lookup hl)).block_size]
    exact (hsize _ (mem_of_lookup hl)).shaped.block_pos
  -- another request, an empty context or a shorter sequence: each asks for a reset
  have hrestart : Restarts c call.attn_metadata.reqId (q.len : ℤ) := by
    have hholds := h.holds _ (mem_of_lookup hl)
    cases s with
    | none => exact Or.inr (Or.inl hholds)
    | some q0 =>
        obtain ⟨hid, hmanaged⟩ := hholds
        have hactual := hmanaged.len
        dsimp only at hid hactual
        rcases hs q0 rfl with hne | hzero | hlt
        · refine Or.inl fun heq => hne ?_
          rw [hreq, ← Option.some.injEq, ← heq, hid]
        · exact Or.inr (Or.inl (by omega))
        · exact Or.inr (Or.inr (by omega))
  have hprefix : call.attn_metadata.prefixLen (q.len : ℤ) = (q.pre : ℕ) := by
    unfold DecodeMetadata.prefixLen
    rw [hone, hpre]
    omega
  -- the arguments pass the checks of every layer's context, not only of this one's
  have hargs : ∀ p ∈ m.contexts, ResetArgs p.2 (q.len : ℤ) (q.pre : ℕ) q.block_table := by
    intro p hmem
    have hsized := hsize p hmem
    refine ⟨by omega, by omega, by rw [hsized.max_seq_len]; exact_mod_cast hlen, fun h0 => ?_⟩
    rw [hsized.block_size, htable, Int.toNat_natCast]
    exact (hp.presents hpos (q.pre - 1) (by omega)).1
  have hreset : resetSingleRequest call.attn_metadata.reqId (q.len : ℤ)
      (call.attn_metadata.prefixLen (q.len : ℤ)) call.attn_metadata.block_table m =
      .ok () { m with contexts := m.contexts.map fun p =>
        (p.1, p.2.reset q.req_id (q.len : ℤ) (q.pre : ℕ) q.block_table) } := by
    unfold resetSingleRequest
    rw [get_bind, if_neg (by rw [h.enabled, henabled]; decide), hprefix, ← hreq, ← htable]
    refine onContexts_ok (g := fun c => c.reset q.req_id (q.len : ℤ) (q.pre : ℕ) q.block_table)
      fun p hmem => ?_
    have ha := hargs p hmem
    -- so neither error of the reset is raised
    rcases resetState_cases p.2 q.req_id (q.len : ℤ) (q.pre : ℕ) q.block_table with
      ⟨_, _, hno⟩ | ⟨_, _, _, h0, hle⟩ | ⟨_, hok⟩
    · exact absurd ⟨ha.pre_nonneg, ha.pre_le, ha.len_le⟩ hno
    · exact absurd (ha.covers h0) (by omega)
    · exact hok
  have hagain := lookup_mapped (f := fun p : String × Context α β =>
    p.2.reset q.req_id (q.len : ℤ) (q.pre : ℕ) q.block_table) hl
  refine ⟨_, _, ?_, hagain, h.mapped (fun p hmem => ?_) fun q' hq' t ht => ?_⟩
  · rw [prepare_eq hl hp.len, if_pos hrestart, bind_ok hreset]
    exact getLayerContext_ok hagain
  · have hsized := hsize p hmem
    refine ⟨⟨hsized.shaped.reset, hsized.max_seq_len, hsized.block_size, hsized.enough⟩, ⟨rfl, ?_⟩, ?_⟩
    · exact reset_managed hsized.shaped hsized.enough q.req_id (hargs p hmem)
    · exact hlast.reset p _ _ _ _ (h.also p hmem)
  · cases hq'
    rw [htable]
    exact hp.sourceRow_lt hpos (by omega)

/-- The step of one token on a context, with the gather going on. -/
theorem marked_managed {kv_0 : ℕ → α} {kv_1 : ℕ → β} {block_table : List ℤ} {pre n : ℕ}
    (h : Managed kv_0 kv_1 block_table pre n c) (hn : n < c.max_seq_len) :
    markDecodeToken (n : ℤ) c = .ok () (c.marked n) ∧
      Managed kv_0 kv_1 block_table pre (n + 1) (c.marked n) ∧ Extends c (c.marked n) := by
  have hok : markDecodeToken (n : ℤ) c = .ok () (c.marked n) :=
    markDecodeToken_ok (n : ℤ) (by omega) (by omega)
  obtain ⟨c', hmark, hm, hext⟩ := mark_managed h hn
  rw [h.len, hok] at hmark
  cases hmark
  exact ⟨hok, hm, hext⟩

/-- A step that goes on marks its token in all contexts, or finds that another layer has. -/
theorem prepare_goesOn (hlast : Lasting Also calls) (h : InService Also m0 m (some q)) (henabled : m0.enabled = true)
    (hl : m.contexts.lookup call.layer_name = some c) (hreq : q.req_id = call.attn_metadata.reqId)
    (hpos : 0 < q.len) {n : ℕ} (hn : n = q.len ∨ n = q.len + 1)
    (hlen : call.attn_metadata.seq_lens_cpu.head? = some (n : ℤ)) (hle : n ≤ m0.max_seq_len) :
    ∃ c' m', prepareAsuLayerContext call.layer_name call.attn_metadata m = .ok c' m' ∧
      m'.contexts.lookup call.layer_name = some c' ∧
      InService Also m0 m' (some { q with len := n }) := by
  obtain ⟨hid, hmanaged⟩ := h.holds _ (mem_of_lookup hl)
  have hactual := hmanaged.len
  dsimp only at hid hactual
  -- the request and the length are those of the contexts, so nothing starts again
  have hkeep : ¬ Restarts c call.attn_metadata.reqId (n : ℤ) := by
    rintro (hne | hzero | hlt)
    · exact hne (by rw [hid, hreq])
    · omega
    · omega
  rw [prepare_eq hl hlen, if_neg hkeep]
  rcases hn with rfl | rfl
  · -- the first layer of this step has marked the token
    rw [if_neg (by omega)]
    exact ⟨c, m, getLayerContext_ok hl, hl, h⟩
  · -- this is the first layer of the step
    -- every context can be marked with the next token, and manages it from then on
    have hmark : ∀ p ∈ m.contexts, markDecodeToken (q.len : ℤ) p.2 = .ok () (p.2.marked q.len) ∧
        Sized m0 (p.2.marked q.len) ∧
        Managed (q.kv_0 p.1) (q.kv_1 p.1) q.block_table q.pre (q.len + 1) (p.2.marked q.len) := by
      intro p hmem
      have hsized := h.sized p hmem
      obtain ⟨hok, hm, hext⟩ := marked_managed (h.holds p hmem).2 (by rw [hsized.max_seq_len]; omega)
      exact ⟨hok, ⟨hm.shaped, hext.2.1.trans hsized.max_seq_len, hext.1.trans hsized.block_size,
        hm.enough⟩, hm⟩
    have htoken : ((q.len + 1 : ℕ) : ℤ) - 1 = (q.len : ℤ) := by omega
    -- the manager marks all of them
    have hmarks : Manager.markDecodeToken (((q.len + 1 : ℕ) : ℤ) - 1) m =
        .ok () { m with contexts := m.contexts.map fun p => (p.1, p.2.marked q.len) } := by
      unfold Manager.markDecodeToken
      rw [get_bind, if_neg (by rw [h.enabled, henabled]; decide), htoken]
      exact onContexts_ok (g := fun c => c.marked q.len) fun p hmem => (hmark p hmem).1
    have hagain := lookup_mapped (f := fun p : String × Context α β => p.2.marked q.len) hl
    -- afterwards the length is the one of the step, in every context
    refine ⟨_, _, ?_, hagain, h.mapped (fun p hmem => ?_) fun q' hq' t ht => ?_⟩
    · rw [if_pos (by omega), bind_ok hmarks]
      exact getLayerContext_ok hagain
    · exact ⟨(hmark p hmem).2.1, ⟨(h.holds p hmem).1, (hmark p hmem).2.2⟩,
        hlast.marked p _ (h.also p hmem)⟩
    · cases hq'
      exact h.bound q rfl t ht

/-- **Before the call.** Whatever a layer finds, after `_prepare_asu_layer_context` its context
is in service for the request and length of the call. -/
theorem prepare_inService (hlast : Lasting Also calls) (h : InService Also m0 m s) (hpath : call.takesPath m0 = true)
    (hl : m.contexts.lookup call.layer_name = some c) (hadv : Advances s call q)
    (hp : Presented m0.max_seq_len m0.block_size q call) :
    ∃ c' m', prepareAsuLayerContext call.layer_name call.attn_metadata m = .ok c' m' ∧
      m'.contexts.lookup call.layer_name = some c' ∧ InService Also m0 m' (some q) := by
  have henabled := (useAsuKvCache_iff hpath).1
  cases hadv with
  | goesOn hs hreq hpos hn =>
      rw [hs] at h
      exact prepare_goesOn hlast h henabled hl hreq hpos hn hp.len hp.len_le
  | afresh hs hreq htable hpre =>
      have hone : call.attn_metadata.num_actual_tokens = 1 := by
        unfold LayerCall.takesPath useAsuKvCache at hpath
        simp only [Bool.and_eq_true, beq_iff_eq] at hpath
        exact hpath.2
      exact prepare_afresh hlast h henabled hl hone hs hreq htable hpre hp

/-- The resolver's call of a layer, and the rows behind the slots that it returns. -/
theorem resolve_inService (hlast : Lasting Also calls) (hcall : call ∈ calls)
    (h : InService Also m0 m (some q)) (hl : m.contexts.lookup call.layer_name = some c)
    (hp : Presented m0.max_seq_len m0.block_size q call) :
    ∃ slots c' m', resolveLayer call.layer_name call.source call.topk_indices m = .ok slots m' ∧
      m'.contexts.lookup call.layer_name = some c' ∧ InService Also m0 m' (some q) ∧
      ReadsPaged m0.block_size ⟨call, c, slots, c'⟩ ∧ Also (call.layer_name, c) := by
  have hmem := mem_of_lookup hl
  have hsized := h.sized _ hmem
  obtain ⟨hid, hmanaged⟩ := h.holds _ hmem
  have hpos : 0 < m0.block_size := by
    rw [← hsized.block_size]
    exact hsized.shaped.block_pos
  have hbs : c.block_size = m0.block_size := hsized.block_size
  have hpresents := hp.presents hpos
  obtain ⟨slots, c', hrun, hm, hext, hres⟩ := resolve_managed hmanaged
    (by rw [hbs]; exact hpresents) (by rw [hbs]; exact hp.table)
    (by rw [hbs]; exact h.bound q rfl) hp.topk
  have hkept := asuResolve_kept call.source call.topk_indices c.actual_seq_len c.block_size c
  rw [hrun] at hkept
  -- only the layer's own context is another one
  let put : String × Context α β → Context α β := fun p => if p.1 = call.layer_name then c' else p.2
  have hput : (m.contexts.map fun p => if p.1 = call.layer_name then (p.1, c') else p) =
      m.contexts.map fun p => (p.1, put p) := by
    refine List.map_congr_left fun p _ => ?_
    by_cases hname : p.1 = call.layer_name
    · simp only [put, if_pos hname]
    · simp only [put, if_neg hname]
  have hresolve : resolveLayer call.layer_name call.source call.topk_indices m =
      .ok slots { m with contexts := m.contexts.map fun p => (p.1, put p) } := by
    unfold resolveLayer
    rw [hl]
    dsimp only
    rw [hrun, ← hput]
  refine ⟨slots, c', _, hresolve, ?_, h.mapped (fun p hp' => ?_) (h.bound),
    ⟨hrun, hres.1, fun i t x ht hx => ?_⟩, h.also _ hmem⟩
  · have hagain := lookup_mapped (f := put) hl
    simp only [put, if_true] at hagain
    exact hagain
  · by_cases hname : p.1 = call.layer_name
    · have hc : put p = c' := if_pos hname
      rw [hc]
      refine ⟨⟨hm.shaped, hext.2.1.trans hsized.max_seq_len, hext.1.trans hsized.block_size,
        hm.enough⟩, ⟨hkept.req_id.trans hid, ?_⟩, ?_⟩
      · rw [hname]
        exact hm
      · rw [hname]
        exact hlast.resolved call hcall _ _ _ _ _ (h.also _ hmem) hrun
    · have hc : put p = p.2 := if_neg hname
      rw [hc]
      exact ⟨h.sized p hp', h.holds p hp', h.also p hp'⟩
  · obtain ⟨h0, h1⟩ := hp.topk t (List.mem_of_getElem? ht)
    obtain ⟨hresident, hslot⟩ := hres.2 i t x ht hx
    obtain ⟨hrow_0, hrow_1⟩ := hm.data _ hresident
    obtain ⟨hread_0, hread_1⟩ := hp.data t.toNat (by omega)
    have hnonneg := (hm.pool.owned _ hresident).1
    rw [hslot] at hrow_0 hrow_1 hnonneg
    exact ⟨hnonneg, _, _, hrow_0, hread_0, hrow_1, hread_1⟩

/-- Which path a layer takes is a matter of the manager's layers, which stay. -/
theorem InService.takesPath (h : InService Also m0 m s) (call : LayerCall α β) :
    call.takesPath m = call.takesPath m0 := by
  have hkey : ∀ cs : List (String × Context α β), (cs.lookup call.layer_name).isSome =
      (cs.map Prod.fst).elem call.layer_name := by
    intro cs
    induction cs with
    | nil => rfl
    | cons p cs ih =>
        rw [List.lookup_cons, List.map_cons, List.elem_cons]
        cases hname : call.layer_name == p.1 with
        | true => rfl
        | false =>
            dsimp only
            exact ih
  unfold LayerCall.takesPath useAsuKvCache
  rw [h.enabled, hkey, hkey, h.keys]

/-- **One call**: it takes the plain path, or it returns, and the slots are good. -/
theorem attend_spec (hlast : Lasting Also calls) (hmem : call ∈ calls) (h : InService Also m0 m s)
    (hpath : call.takesPath m0 = true)
    (hadv : Advances s call q) (hp : Presented m0.max_seq_len m0.block_size q call) :
    ∃ a m', attend call m = .ok (some a) m' ∧ a.call = call ∧ InService Also m0 m' (some q) ∧
      ReadsPaged m0.block_size a ∧ Also (a.call.layer_name, a.before) := by
  have hpath' : call.takesPath m = true := (h.takesPath call).trans hpath
  obtain ⟨c, hl⟩ := (useAsuKvCache_iff hpath').2
  obtain ⟨c1, m1, hprepare, hl1, h1⟩ := prepare_inService hlast h hpath hl hadv hp
  obtain ⟨slots, c2, m2, hresolve, hl2, h2, hreads⟩ := resolve_inService hlast hmem h1 hl1 hp
  refine ⟨⟨call, c1, slots, c2⟩, m2, ?_, rfl, h2, hreads⟩
  unfold attend executeAsuLayer
  rw [get_bind, if_pos hpath']
  apply (bind_ok _).trans
  · rfl
  · rw [bind_ok hprepare, bind_ok hresolve, bind_ok (getLayerContext_ok hl2)]
    rfl

/-- A call off the path leaves the manager alone and resolves nothing. -/
theorem attend_plain (h : InService Also m0 m s) (hpath : ¬ call.takesPath m0 = true) :
    attend call m = .ok none m := by
  unfold attend
  rw [get_bind, if_neg (by rw [h.takesPath]; exact hpath)]
  rfl

/-! ## A run -/

/-- **A run of calls**: all return, and each one on the path reads the rows of its own sequence.
-/
theorem serve_spec (hlast : Lasting Also calls) (h : InService Also m0 m s)
    (hcalls : Follows m0 s calls) :
    ∃ as m', serve calls m = .ok as m' ∧
      as.map Attended.call = calls.filter (LayerCall.takesPath m0) ∧
      ∀ a ∈ as, ReadsPaged m0.block_size a ∧ Also (a.call.layer_name, a.before) := by
  induction calls generalizing s m with
  | nil => exact ⟨[], m, rfl, rfl, fun a ha => absurd ha List.not_mem_nil⟩
  | cons call calls ih =>
      rw [Follows] at hcalls
      have ih := fun {m s} => @ih m s ⟨hlast.reset, hlast.marked, fun call' hmem =>
        hlast.resolved call' (List.mem_cons_of_mem call hmem)⟩
      by_cases hpath : call.takesPath m0 = true
      · rw [if_pos hpath] at hcalls
        obtain ⟨q, hadv, hp, hrest⟩ := hcalls
        obtain ⟨a, m1, hattend, hcall, h1, hreads⟩ :=
          attend_spec hlast List.mem_cons_self h hpath hadv hp
        obtain ⟨as, m2, hserve, hmap, hall⟩ := ih h1 hrest
        refine ⟨a :: as, m2, ?_, ?_, fun a' ha' => ?_⟩
        · rw [serve, bind_ok hattend, bind_ok hserve]
          rfl
        · rw [List.map_cons, hcall, hmap, List.filter_cons_of_pos hpath]
        · rcases List.mem_cons.mp ha' with rfl | ha'
          · exact hreads
          · exact hall a' ha'
      · -- the call leaves the contexts as they are
        rw [if_neg hpath] at hcalls
        obtain ⟨as, m2, hserve, hmap, hall⟩ := ih h hcalls
        refine ⟨as, m2, ?_, ?_, hall⟩
        · rw [serve, bind_ok (attend_plain h hpath), bind_ok hserve]
          rfl
        · rw [hmap, List.filter_cons_of_neg hpath]

/-- The contexts of a new manager are new contexts. -/
theorem mem_contexts {enabled : Bool} {kv_caches : List String} {empty_0 : String → ℕ → α}
    {empty_1 : String → ℕ → β} {max_seq_len block_size : ℤ} {managed_slot_count : Option ℤ}
    {configured : Except PyError (Option ℤ)} {slot_count : ℤ}
    (hnew : fromKvCaches enabled kv_caches empty_0 empty_1 max_seq_len block_size managed_slot_count
      configured = .ok m0)
    (hcount : slotCount managed_slot_count configured max_seq_len = .ok slot_count)
    {p : String × Context α β} (hp : p ∈ m0.contexts) : ∃ layer_name ∈ kv_caches,
      p = (layer_name, freshContext max_seq_len.toNat block_size.toNat
        ((List.range slot_count.toNat).map (empty_0 layer_name))
        ((List.range slot_count.toNat).map (empty_1 layer_name))) := by
  unfold fromKvCaches at hnew
  split_ifs at hnew
  · cases hnew
    exact absurd hp List.not_mem_nil
  · rw [hcount] at hnew
    obtain ⟨_, hok, hnew⟩ := Folds.ok_of_bind hnew
    cases hok
    split_ifs at hnew
    cases hnew
    obtain ⟨layer_name, hmem, rfl⟩ := List.mem_map.mp hp
    exact ⟨layer_name, hmem, rfl⟩

/-- A new manager is in service for no sequence yet. -/
theorem fromKvCaches_inService {enabled : Bool} {kv_caches : List String} {empty_0 : String → ℕ → α}
    {empty_1 : String → ℕ → β} {max_seq_len block_size : ℤ} {managed_slot_count : Option ℤ}
    {configured : Except PyError (Option ℤ)} {slot_count : ℤ}
    (hnew : fromKvCaches enabled kv_caches empty_0 empty_1 max_seq_len block_size managed_slot_count
      configured = .ok m0)
    (hcount : slotCount managed_slot_count configured max_seq_len = .ok slot_count)
    (hslots : max_seq_len ≤ slot_count) (halso : ∀ p ∈ m0.contexts, Also p) :
    InService Also m0 m0 none := by
  have hstep := fromKvCaches_inStep hnew
  refine ⟨rfl, rfl, fun p hp => ?_, fun p hp => (hstep.synced p hp).actual_seq_len,
    halso, fun q hq => by cases hq⟩
  have hsync := hstep.synced p hp
  refine ⟨hsync.shaped, hsync.max_seq_len, hsync.block_size, ?_⟩
  obtain ⟨layer_name, _, rfl⟩ := mem_contexts hnew hcount hp
  show max_seq_len.toNat ≤ ((List.range slot_count.toNat).map (empty_0 layer_name)).length
  rw [List.length_map, List.length_range]
  omega

/-- **The managed caches in service.** From new contexts with a slot for every token, along every
run of calls that go on with the sequence or start another one, on any layers in any order: no call
raises, each call that takes the path is served, and each slot that it hands over holds, in both
caches, the row that the plain path reads out of the paged cache. -/
theorem serve_reads_paged (enabled : Bool) (kv_caches : List String) (empty_0 : String → ℕ → α)
    (empty_1 : String → ℕ → β) (max_seq_len block_size : ℤ) (managed_slot_count : Option ℤ)
    (configured : Except PyError (Option ℤ)) (slot_count : ℤ) (m0 : Manager α β)
    (hnew : fromKvCaches enabled kv_caches empty_0 empty_1 max_seq_len block_size managed_slot_count
      configured = .ok m0)
    (hcount : slotCount managed_slot_count configured max_seq_len = .ok slot_count)
    (hslots : max_seq_len ≤ slot_count) (calls : List (LayerCall α β))
    (hcalls : Follows m0 none calls) :
    ∃ as m, serve calls m0 = .ok as m ∧
      as.map Attended.call = calls.filter (LayerCall.takesPath m0) ∧
      ∀ a ∈ as, ReadsPaged m0.block_size a := by
  have hlast : Lasting (fun _ : String × Context α β => True) calls :=
    ⟨fun _ _ _ _ _ _ => trivial, fun _ _ _ => trivial, fun _ _ _ _ _ _ _ _ _ => trivial⟩
  obtain ⟨as, m, hserve, hmap, hall⟩ :=
    serve_spec hlast (fromKvCaches_inService hnew hcount hslots fun _ _ => trivial) hcalls
  exact ⟨as, m, hserve, hmap, fun a ha => (hall a ha).1⟩

end

/-! ## Two requests on two layers -/

/-- Two blocks of two rows: token `t` of the table `[1, 0]` holds `100 + t` and `200 + t`. -/
def blockCall (layer_name : String) (attn_metadata : DecodeMetadata) (topk : List ℤ) : LayerCall ℤ ℤ where
  enable_dsa_cp := false
  layer_name := layer_name
  attn_metadata := attn_metadata
  kv_cache_0 := [[102, 103], [100, 101]]
  kv_cache_1 := [[202, 203], [200, 201]]
  topk_indices := topk

/-- A request of three and then four tokens, a step without the path, and another request. -/
def twoRequests : List (LayerCall ℤ ℤ) :=
  [blockCall "layers.0" (singleStep "a" 3 [1, 0]) [2, 0, 2],
    blockCall "layers.1" (singleStep "a" 3 [1, 0]) [1],
    blockCall "layers.0" { singleStep "a" 9 [] with asu_num_reqs := 2 } [8],
    blockCall "layers.1" (singleStep "a" 4 [1, 0]) [3, 1],
    blockCall "layers.0" (singleStep "b" 2 [0]) [1, 0]]

def sequenceA (len : ℕ) : Sequence ℤ ℤ :=
  ⟨"a", len, [1, 0], 2, fun _ t => 100 + t, fun _ t => 200 + t⟩

def sequenceB : Sequence ℤ ℤ := ⟨"b", 2, [0], 1, fun _ t => 102 + t, fun _ t => 202 + t⟩

/-- Two new contexts of four slots. -/
def fourSlots : Manager ℤ ℤ where
  enabled := true
  max_seq_len := 4
  block_size := 2
  contexts := ["layers.0", "layers.1"].map fun layer_name =>
    (layer_name, freshContext 4 2 (List.replicate 4 0) (List.replicate 4 0))

/-- The calls of the example follow the protocol of a decode loop. -/
theorem twoRequests_follows : Follows fourSlots none twoRequests := by
  refine ⟨sequenceA 3, .afresh (fun q0 hq0 => by cases hq0) rfl rfl rfl,
    ⟨rfl, by decide, by decide, by decide, by decide, by decide, by decide, by decide⟩, ?_⟩
  refine ⟨sequenceA 3, .goesOn (q := sequenceA 3) rfl rfl (by decide) (Or.inl rfl),
    ⟨rfl, by decide, by decide, by decide, by decide, by decide, by decide, by decide⟩, ?_⟩
  refine ⟨sequenceA 4, .goesOn (q := sequenceA 3) rfl rfl (by decide) (Or.inr rfl),
    ⟨rfl, by decide, by decide, by decide, by decide, by decide, by decide, by decide⟩, ?_⟩
  refine ⟨sequenceB, .afresh (fun q0 hq0 => ?_) rfl rfl rfl,
    ⟨rfl, by decide, by decide, by decide, by decide, by decide, by decide, by decide⟩, trivial⟩
  cases hq0
  exact Or.inl (by decide)

/-- Two requests, one after the other, on a manager of four slots. -/
theorem serve_reads_paged_two :
    ∃ as m, serve twoRequests fourSlots = .ok as m ∧
      as.map Attended.call = twoRequests.filter (LayerCall.takesPath fourSlots) ∧
      ∀ a ∈ as, ReadsPaged 2 a :=
  serve_reads_paged true ["layers.0", "layers.1"] (fun _ _ => 0) (fun _ _ => 0) 4 2 none (.ok none) 4
    fourSlots rfl rfl (by decide) twoRequests twoRequests_follows

end AsuAscend.Decode
