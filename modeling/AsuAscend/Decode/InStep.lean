/-
The layer contexts and the decode steps of a request.

A context learns of the request's length only on steps that take the ASU path. When
such a step finds the length grown, one token is marked, the last one; a length that
has grown by more leaves the tokens in between without a state (`prepare_leaves_gap`).
As long as each call either starts afresh or grows the sequence by at most one, and
each fresh start finds its prefix covered by the block table, the contexts stay
together and every token of the sequence has a state (`contexts_in_step`).

## Runs

`Reaches` are the states of a manager after any steps: layers of decode steps, whether they take the
path or not, and resolver calls on any layer. A step may raise; what it leaves is then the state
that the run goes on with. A run has to be
`Fine` at each step that takes the path. The two conditions for that are on the step and on the
context of the layer that makes it, before the step: a restart finds its prefix in the block table,
and a step that goes on is at most one token longer.

Where the second fails the tokens in between have no state, and nothing later gives them one
(`prepare_leaves_gap`).
-/
import AsuAscend.Decode.Manager

set_option autoImplicit false

open SentinelTable StateExcept

namespace AsuAscend.Decode

variable {α β : Type}

/-- A token state that the resolver can handle. -/
def Supported (state : ℤ) : Prop := state = ASU_ONLY ∨ state = HBM_RESIDENT ∨ state = TAIL_HBM

instance (state : ℤ) : Decidable (Supported state) := inferInstanceAs (Decidable (_ ∨ _))

/-! ## What a resolver call can do to a context -/

/-- The tensors keep their shapes, the request stays, and a token's state stays or
goes from one that `P` allows to resident. -/
structure Frame (P : ℕ → Prop) (c c' : Context α β) : Prop where
  shaped : Shaped c → Shaped c'
  req_id : c'.req_id = c.req_id
  actual_seq_len : c'.actual_seq_len = c.actual_seq_len
  max_seq_len : c'.max_seq_len = c.max_seq_len
  block_size : c'.block_size = c.block_size
  state : ∀ t, read c'.token_state t = read c.token_state t ∨
    P t ∧ read c'.token_state t = HBM_RESIDENT

section

variable {P : ℕ → Prop}

/-- Doing nothing changes nothing outside `P`. -/
theorem Frame.refl (c : Context α β) : Frame P c c :=
  ⟨id, rfl, rfl, rfl, rfl, fun _ => Or.inl rfl⟩

/-- What two steps leave alone, one after the other. -/
theorem Frame.trans (a b c : Context α β) (h : Frame P a b) (h' : Frame P b c) : Frame P a c := by
  refine ⟨h'.shaped ∘ h.shaped, h'.req_id.trans h.req_id,
    h'.actual_seq_len.trans h.actual_seq_len, h'.max_seq_len.trans h.max_seq_len,
    h'.block_size.trans h.block_size, fun t => ?_⟩
  rcases h'.state t with h1 | h1
  · rw [h1]; exact h.state t
  · exact Or.inr h1

theorem checkIndex_moves (tensor : List ℤ) (i : ℕ) :
    Moves (Frame P) (checkIndex tensor i : Method α β Unit) := by
  apply Moves.of_state_eq Frame.refl
  intro c
  unfold checkIndex
  split_ifs <;> rfl

theorem tensorValue_moves (tensor : List ℤ) (i : ℕ) :
    Moves (Frame P) (tensorValue tensor i : Method α β ℤ) :=
  Moves.bind Frame.trans (checkIndex_moves tensor i) fun _ => Moves.of_state_eq Frame.refl fun _ => rfl

theorem get_moves : Moves (Frame P) (get : Method α β (Context α β)) :=
  Moves.of_state_eq Frame.refl fun _ => rfl

theorem throw_moves {γ : Type} (e : PyError) : Moves (Frame P) (throw e : Method α β γ) :=
  Moves.of_state_eq Frame.refl fun _ => rfl

/-- The pop moves the counter, which no frame is about. -/
theorem popFreeSlot_moves : Moves (Frame P) (popFreeSlot : Method α β ℤ) := by
  apply Moves.bind Frame.trans get_moves
  intro c
  dsimp only
  split_ifs
  · exact throw_moves _
  · apply Moves.bind Frame.trans (tensorValue_moves _ _)
    intro slot
    refine Moves.bind Frame.trans (Moves.modify fun c => ?_) fun _ =>
      Moves.of_state_eq Frame.refl fun _ => rfl
    exact ⟨fun h => ⟨h.1, h.2, h.3, h.4, h.5, h.6, h.7, h.8⟩, rfl, rfl, rfl, rfl, fun _ => Or.inl rfl⟩

theorem copyFullKvPair_moves (src : Source α β) (source_slot managed_slot : ℤ) :
    Moves (Frame P) (copyFullKvPair src source_slot managed_slot) := by
  apply Moves.bind Frame.trans get_moves
  intro c
  split_ifs
  · exact throw_moves _
  · exact throw_moves _
  · exact throw_moves _
  · exact throw_moves _
  · apply Moves.modify
    intro c
    refine ⟨fun h => ⟨h.1, h.2, h.3, h.4, h.5, h.6, ?_, ?_⟩, rfl, rfl, rfl, rfl, fun _ => Or.inl rfl⟩
    · exact (copyRow_length _ _ _ _).trans h.7
    · exact (copyRow_length _ _ _ _).trans h.8

/-- A store changes an entry to what it stores, or not at all. -/
theorem read_set_or (xs : List ℤ) (i : ℕ) (v : ℤ) (k : ℕ) :
    read (xs.set i v) k = read xs k ∨ k = i ∧ read (xs.set i v) k = v := by
  by_cases hi : i < xs.length
  · rw [read_set hi]
    split_ifs with hk
    · exact Or.inr ⟨hk, rfl⟩
    · exact Or.inl rfl
  · rw [List.set_eq_of_length_le (by omega)]
    exact Or.inl rfl

/-- An install writes the tables at its token. -/
theorem install_moves (src : Source α β) {token_id : ℕ} (hP : P token_id) (source_slot : ℤ) :
    Moves (Frame P) (installTokenToManagedCache src token_id source_slot) := by
  apply Moves.bind Frame.trans popFreeSlot_moves
  intro slot
  apply Moves.bind Frame.trans (copyFullKvPair_moves _ _ _)
  intro _
  apply Moves.bind Frame.trans get_moves
  intro c
  apply Moves.bind Frame.trans (checkIndex_moves _ _)
  intro _
  -- the three tables are written one after the other, and each write can raise
  refine Moves.bind Frame.trans (Moves.modify fun c => ?_) fun _ => ?_
  · refine ⟨fun h => ⟨h.1, List.length_set.trans h.2, h.3, h.4, h.5, h.6, h.7, h.8⟩, rfl, rfl, rfl, rfl,
      fun t => ?_⟩
    rcases read_set_or c.token_state token_id HBM_RESIDENT t with h | ⟨ht, h⟩
    · exact Or.inl h
    · exact Or.inr ⟨ht ▸ hP, h⟩
  apply Moves.bind Frame.trans (checkIndex_moves _ _)
  intro _
  refine Moves.bind Frame.trans (Moves.modify fun c => ?_) fun _ => ?_
  · exact ⟨fun h => ⟨h.1, h.2, h.3, List.length_set.trans h.4, h.5, h.6, h.7, h.8⟩, rfl, rfl, rfl, rfl,
      fun _ => Or.inl rfl⟩
  apply Moves.bind Frame.trans (checkIndex_moves _ _)
  intro _
  refine Moves.bind Frame.trans (Moves.modify fun c => ?_) fun _ =>
    Moves.of_state_eq Frame.refl fun _ => rfl
  exact ⟨fun h => ⟨h.1, h.2, h.3, h.4, List.length_set.trans h.5, h.6, h.7, h.8⟩, rfl, rfl, rfl, rfl,
    fun _ => Or.inl rfl⟩

/-- Looking up a row of the tail writes nothing. -/
theorem resolveTailSourceSlot_moves (src : Source α β) (token_id block_size : ℕ) :
    Moves (Frame P) (resolveTailSourceSlot src token_id block_size) := by
  unfold resolveTailSourceSlot
  dsimp only
  split_ifs
  · exact throw_moves _
  · exact Moves.bind Frame.trans (tensorValue_moves _ _) fun _ =>
      Moves.of_state_eq Frame.refl fun _ => rfl

end

/-- A token only becomes resident from a state that the resolver can handle. -/
def Kept (c c' : Context α β) : Prop := Frame (fun t => Supported (read c.token_state t)) c c'

theorem Kept.refl (c : Context α β) : Kept c c := Frame.refl c

/-- Two steps that leave the sequence alone, one after the other. -/
theorem Kept.trans (a b c : Context α β) (h : Kept a b) (h' : Kept b c) : Kept a c := by
  refine ⟨h'.shaped ∘ h.shaped, h'.req_id.trans h.req_id,
    h'.actual_seq_len.trans h.actual_seq_len, h'.max_seq_len.trans h.max_seq_len,
    h'.block_size.trans h.block_size, fun t => ?_⟩
  rcases h'.state t with h1 | ⟨hs, h1⟩
  · rw [h1]; exact h.state t
  · rcases h.state t with h2 | ⟨hs2, h2⟩
    · exact Or.inr ⟨h2 ▸ hs, h1⟩
    · exact Or.inr ⟨hs2, h1⟩

/-- An entry of a resolver call leaves the sequence alone: at most it makes its token resident. -/
theorem resolveToken_kept (src : Source α β) (actual_seq_len : ℤ) (block_size : ℕ) (token_id : ℤ) :
    Moves Kept (resolveToken src actual_seq_len block_size token_id) := by
  intro c
  unfold resolveToken
  by_cases hrange : token_id < 0 ∨ token_id ≥ actual_seq_len
  · rw [if_pos hrange]
    exact Kept.refl c
  rw [if_neg hrange, get_bind]
  -- outside `token_state` the first read raises, and nothing has been written
  by_cases hidx : token_id.toNat < c.token_state.length
  · rw [bind_ok (tensorValue_ok hidx)]
    split_ifs with h1 h2 h3
    · exact tensorValue_moves _ _ c
    · -- the state just read is the one that the install replaces
      refine (Moves.bind Frame.trans (tensorValue_moves _ _) fun _ => install_moves src ?_ _) c
      exact Or.inl h2
    · refine (Moves.bind Frame.trans (resolveTailSourceSlot_moves _ _ _) fun _ =>
        install_moves src ?_ _) c
      exact Or.inr (Or.inr h3)
    · exact Kept.refl c
  · have herr : ∃ e, (tensorValue c.token_state token_id.toNat : Method α β ℤ) c = .error e c := by
      unfold tensorValue checkIndex
      rw [if_neg hidx]
      exact ⟨_, rfl⟩
    obtain ⟨e, he⟩ := herr
    rw [bind_error he]
    exact Kept.refl c

/-- **A resolver call** leaves the sequence alone, whether it returns or raises. -/
theorem asuResolve_kept (src : Source α β) (topk : List ℤ) (actual_seq_len : ℤ) (block_size : ℕ) :
    Moves Kept (asuResolveKvSlotsSingleReq src topk actual_seq_len block_size) := by
  unfold asuResolveKvSlotsSingleReq
  split_ifs
  · exact fun c => Kept.refl c
  · exact fun c => Kept.refl c
  · exact Moves.mapM Kept.refl Kept.trans (resolveToken_kept src actual_seq_len block_size) topk

/-! ## Decode steps -/

/-- `forward` of one layer, up to the ASU context it works with; `none` is the path
without the managed cache. -/
def forwardLayer (enable_dsa_cp : Bool) (layer_name : String) (attn_metadata : DecodeMetadata) :
    ManagerMethod α β (Option (Context α β)) := do
  let m ← get
  if useAsuKvCache enable_dsa_cp m layer_name attn_metadata then
    let context ← prepareAsuLayerContext layer_name attn_metadata
    return some context
  else return none

/-- What happens to the contexts: a layer's forward pass, and the resolver call that it
makes on its context. -/
inductive ManagerStep (α β : Type) where
  | forward (enable_dsa_cp : Bool) (layer_name : String) (attn_metadata : DecodeMetadata)
  | resolve (layer_name : String) (src : Source α β) (topk : List ℤ)

/-- The contexts after a step, whether it has returned or raised. -/
def ManagerStep.after (m : Manager α β) : ManagerStep α β → Manager α β
  | .forward enable_dsa_cp layer_name attn_metadata =>
      StateExcept.after (forwardLayer enable_dsa_cp layer_name attn_metadata m)
  | .resolve layer_name src topk => StateExcept.after (resolveLayer layer_name src topk m)

/-- The prefix that a restart of length `n` puts on record. -/
def DecodeMetadata.prefixLen (attn_metadata : DecodeMetadata) (n : ℤ) : ℤ :=
  max 0 (n - attn_metadata.num_actual_tokens)

/-- A call restarts the contexts and its block table covers the prefix, or it grows the
sequence by at most one token. -/
def ManagerStep.Fine (m : Manager α β) : ManagerStep α β → Prop
  | .forward enable_dsa_cp layer_name attn_metadata => ∀ c n,
      useAsuKvCache enable_dsa_cp m layer_name attn_metadata = true →
      m.contexts.lookup layer_name = some c → attn_metadata.seq_lens_cpu.head? = some n →
      (Restarts c attn_metadata.reqId n → 0 < attn_metadata.prefixLen n →
        ((attn_metadata.prefixLen n).toNat - 1) / c.block_size < attn_metadata.block_table.length) ∧
      (¬ Restarts c attn_metadata.reqId n → n ≤ c.actual_seq_len + 1)
  | .resolve _ _ _ => True

/-- The states of the runs whose steps are all fine. -/
inductive Reaches (m0 : Manager α β) : Manager α β → Prop
  | start : Reaches m0 m0
  | step {m : Manager α β} {s : ManagerStep α β} : Reaches m0 m → s.Fine m → Reaches m0 (s.after m)

/-- All contexts are at length `n` of one request, and each of its tokens has a state
that the resolver can handle. -/
def Consistent (m : Manager α β) (req_id : String) (n : ℤ) : Prop :=
  ∀ p ∈ m.contexts, p.2.req_id = some req_id ∧ p.2.actual_seq_len = n ∧
    ∀ t : ℕ, t < n → Supported (read p.2.token_state t)

/-! ## The invariant -/

/-- A context of length `l`: states below, none above. -/
structure Synced (m : Manager α β) (r : Option String) (l : ℤ) (c : Context α β) : Prop where
  shaped : Shaped c
  block_size : c.block_size = m.block_size
  max_seq_len : c.max_seq_len = m.max_seq_len
  req_id : c.req_id = r
  actual_seq_len : c.actual_seq_len = l
  supported : ∀ t : ℕ, t < l → Supported (read c.token_state t)
  beyond : ∀ t : ℕ, l ≤ t → read c.token_state t = INVALID

/-- All contexts are at the same length of the same request. -/
structure InStep (m : Manager α β) (r : Option String) (l : ℤ) : Prop where
  len_nonneg : 0 ≤ l
  len_le : l ≤ m.max_seq_len
  synced : ∀ p ∈ m.contexts, Synced m r l p.2

/-- A manager in step is consistent about its request and length, which is all that a layer's
check asks for. -/
theorem InStep.consistent {m : Manager α β} {req_id : String} {n : ℤ}
    (h : InStep m (some req_id) n) : Consistent m req_id n := fun p hp =>
  ⟨(h.synced p hp).req_id, (h.synced p hp).actual_seq_len, (h.synced p hp).supported⟩

/-- A new manager is in step about no request, at length 0. -/
theorem fromKvCaches_inStep {enabled : Bool} {kv_caches : List String} {empty_0 : String → ℕ → α}
    {empty_1 : String → ℕ → β} {max_seq_len block_size : ℤ} {managed_slot_count : Option ℤ}
    {configured : Except PyError (Option ℤ)} {m : Manager α β}
    (h : fromKvCaches enabled kv_caches empty_0 empty_1 max_seq_len block_size managed_slot_count
      configured = .ok m) : InStep m none 0 := by
  unfold fromKvCaches at h
  split_ifs at h with h1 h2 h3
  · cases h
    exact ⟨le_rfl, Int.natCast_nonneg _, fun p hp => absurd hp (by simp)⟩
  · simp only [bind, Except.bind, pure, Except.pure] at h
    split at h
    · cases h
    · split_ifs at h
      cases h
      refine ⟨le_rfl, Int.natCast_nonneg _, fun p hp => ?_⟩
      obtain ⟨layer_name, _, rfl⟩ := List.mem_map.mp hp
      refine ⟨freshContext_shaped (by omega) (by simp), rfl, rfl, rfl, rfl, fun t ht => by omega,
        fun t _ => ?_⟩
      -- every state is `INVALID`, and so is what lies past the end
      by_cases ht : t < max_seq_len.toNat
      · show read (List.replicate max_seq_len.toNat INVALID) t = INVALID
        rw [read_of_lt (by simpa using ht), List.getElem_replicate]
      · exact read_of_ge (by simp [freshContext]; omega)

section

variable {m : Manager α β} {r : Option String} {l n : ℤ} {c : Context α β} {req_id : String}
  {bt : List ℤ}

/-- A reset puts a context in step with the new request, at the new length. -/
theorem Synced.reset (h : Synced m r l c) (req_id : String) {pre : ℤ}
    (hargs : ResetArgs c n pre bt) :
    Synced m (some req_id) n (c.reset req_id n pre bt) := by
  have h1 := hargs.pre_nonneg
  have h2 := hargs.pre_le
  have h3 := hargs.len_le
  refine ⟨h.shaped.reset, h.block_size, h.max_seq_len, rfl, rfl, fun t ht => ?_, fun t ht => ?_⟩
  · rw [reset_state h.shaped.tabled (by omega)]
    split_ifs
    · exact Or.inl rfl
    · exact Or.inr (Or.inr rfl)
  · by_cases htm : t < c.max_seq_len
    · rw [reset_state h.shaped.tabled htm, if_neg (by omega), if_neg (by omega)]
    · exact read_of_ge (by rw [h.shaped.reset.state_length]; show c.max_seq_len ≤ t; omega)

/-- A mark takes a context on by one token. -/
theorem Synced.mark (h : Synced m r l c) (h0 : 0 ≤ l) (hl : l < c.max_seq_len) :
    Synced m r (l + 1) { c with
      actual_seq_len := max c.actual_seq_len (l + 1)
      token_state := c.token_state.set l.toNat TAIL_HBM } := by
  have hlt : l.toNat < c.token_state.length := by rw [h.shaped.state_length]; omega
  have hstate : ∀ t, read (c.token_state.set l.toNat TAIL_HBM) t =
      if t = l.toNat then TAIL_HBM else read c.token_state t := fun t => read_set hlt _ _
  have hlen := h.actual_seq_len
  refine ⟨⟨h.shaped.1, List.length_set.trans h.shaped.2, h.shaped.3, h.shaped.4, h.shaped.5,
    h.shaped.6, h.shaped.7, h.shaped.8⟩, h.block_size, h.max_seq_len, h.req_id, ?_,
    fun t ht => ?_, fun t ht => ?_⟩
  · show max c.actual_seq_len (l + 1) = l + 1
    omega
  · show Supported (read (c.token_state.set l.toNat TAIL_HBM) t)
    rw [hstate]
    split_ifs with htl
    · exact Or.inr (Or.inr rfl)
    · exact h.supported t (by omega)
  · show read (c.token_state.set l.toNat TAIL_HBM) t = INVALID
    rw [hstate, if_neg (by omega)]
    exact h.beyond t (by omega)

/-- What leaves the sequence alone leaves the context in step. -/
theorem Synced.kept (h : Synced m r l c) {c' : Context α β} (hk : Kept c c') : Synced m r l c' := by
  refine ⟨hk.shaped h.shaped, hk.block_size.trans h.block_size,
    hk.max_seq_len.trans h.max_seq_len, hk.req_id.trans h.req_id,
    hk.actual_seq_len.trans h.actual_seq_len, fun t ht => ?_, fun t ht => ?_⟩
  · rcases hk.state t with h1 | ⟨_, h1⟩
    · rw [h1]; exact h.supported t ht
    · rw [h1]; exact Or.inr (Or.inl rfl)
  · rcases hk.state t with h1 | ⟨hs, _⟩
    · rw [h1]; exact h.beyond t ht
    · -- a token beyond the length is not one that the resolver can install
      rw [h.beyond t ht] at hs
      exact absurd hs (by decide)

/-! ## One call -/

/-- The loop of a reset: all contexts, or none of them. -/
theorem resetSingleRequest_cases (h : InStep m r l) (henabled : m.enabled = true)
    (hne : m.contexts ≠ []) {pre : ℤ}
    (hcovers : 0 < pre → (pre.toNat - 1) / m.block_size < bt.length) :
    (∃ e, resetSingleRequest req_id n pre bt m = .error e m) ∨
    (0 ≤ n ∧ n ≤ m.max_seq_len ∧ ∃ m', resetSingleRequest req_id n pre bt m = .ok () m' ∧
      m'.contexts.map Prod.fst = m.contexts.map Prod.fst ∧ InStep m' (some req_id) n) := by
  unfold resetSingleRequest
  rw [get_bind, if_neg (by rw [henabled]; decide)]
  -- the arguments are in range, and the prefix covered: every context is reset
  by_cases hargs : 0 ≤ pre ∧ pre ≤ n ∧ n ≤ m.max_seq_len
  · have hall : ∀ p ∈ m.contexts, ResetArgs p.2 n pre bt := by
      intro p hp
      have hs := h.synced p hp
      refine ⟨hargs.1, hargs.2.1, by rw [hs.max_seq_len]; exact hargs.2.2, fun hpos => ?_⟩
      rw [hs.block_size]
      exact hcovers hpos
    refine Or.inr ⟨by omega, hargs.2.2, _, onContexts_ok (g := fun c => c.reset req_id n pre bt)
      fun p hp => ?_, ?_, ?_⟩
    -- of the three outcomes of `reset_state` only the last is possible
    · have ha := hall p hp
      rcases resetState_cases p.2 req_id n pre bt with ⟨_, _, hno⟩ | ⟨_, _, _, hpos, hle⟩ | ⟨_, hok⟩
      · exact absurd ⟨ha.pre_nonneg, ha.pre_le, ha.len_le⟩ hno
      · exact absurd (ha.covers hpos) (by omega)
      · exact hok
    · simp [Function.comp_def]
    · refine ⟨by omega, hargs.2.2, fun p hp => ?_⟩
      obtain ⟨q, hq, rfl⟩ := List.mem_map.mp hp
      obtain ⟨h1, h2, h3, h4, h5, h6, h7⟩ := (h.synced q hq).reset req_id (hall q hq)
      exact ⟨h1, h2, h3, h4, h5, h6, h7⟩
  -- not in range: the first context raises on its arguments, before anything is written
  · refine Or.inl (onContexts_error hne fun p hp => ?_)
    have hs := h.synced p hp
    rcases resetState_cases p.2 req_id n pre bt with ⟨e, he, _⟩ | ⟨_, _, _, hpos, hle⟩ | ⟨ha, _⟩
    · exact ⟨e, he⟩
    · rw [hs.block_size] at hle
      exact absurd (hcovers hpos) (by omega)
    · refine absurd ⟨ha.pre_nonneg, ha.pre_le, ?_⟩ hargs
      rw [← hs.max_seq_len]
      exact ha.len_le

/-- The loop of a mark: all contexts, or none of them. -/
theorem markDecodeToken_cases (h : InStep m r l) (henabled : m.enabled = true)
    (hne : m.contexts ≠ []) :
    (∃ e, Manager.markDecodeToken l m = .error e m) ∨
    (l + 1 ≤ m.max_seq_len ∧ ∃ m', Manager.markDecodeToken l m = .ok () m' ∧
      m'.contexts.map Prod.fst = m.contexts.map Prod.fst ∧ InStep m' r (l + 1)) := by
  have h0 := h.len_nonneg
  unfold Manager.markDecodeToken
  rw [get_bind, if_neg (by rw [henabled]; decide)]
  by_cases hl : l < m.max_seq_len
  · refine Or.inr ⟨by omega, _, onContexts_ok (g := fun c => { c with
      actual_seq_len := max c.actual_seq_len (l + 1)
      token_state := c.token_state.set l.toNat TAIL_HBM }) fun p hp => ?_, ?_, ?_⟩
    · exact markDecodeToken_ok l h0 (by rw [(h.synced p hp).max_seq_len]; exact hl)
    · simp [Function.comp_def]
    · refine ⟨by omega, by show l + 1 ≤ (m.max_seq_len : ℤ); omega, fun p hp => ?_⟩
      obtain ⟨q, hq, rfl⟩ := List.mem_map.mp hp
      obtain ⟨h1, h2, h3, h4, h5, h6, h7⟩ := (h.synced q hq).mark h0
        (by rw [(h.synced q hq).max_seq_len]; exact hl)
      exact ⟨h1, h2, h3, h4, h5, h6, h7⟩
  · refine Or.inl (onContexts_error hne fun p hp => markDecodeToken_error (Or.inr ?_))
    rw [(h.synced p hp).max_seq_len]
    omega

/-- A layer that is there has its context. -/
theorem getLayerContext_ok {layer_name : String} (hl : m.contexts.lookup layer_name = some c) :
    getLayerContext layer_name m = .ok c m := by
  unfold getLayerContext
  rw [get_bind, hl]
  rfl

/-- The three ways through `_prepare_asu_layer_context`: a reset for a new sequence, a mark for
one token more, or nothing at all. -/
theorem prepare_eq {layer_name : String} {attn_metadata : DecodeMetadata}
    (hl : m.contexts.lookup layer_name = some c)
    (hn : attn_metadata.seq_lens_cpu.head? = some n) :
    prepareAsuLayerContext layer_name attn_metadata m =
      ((if Restarts c attn_metadata.reqId n then
          resetSingleRequest attn_metadata.reqId n (attn_metadata.prefixLen n)
            attn_metadata.block_table
        else if n > c.actual_seq_len then Manager.markDecodeToken (n - 1)
        else pure ()) >>= fun _ => getLayerContext layer_name) m := by
  have hlen : getAsuActualSeqLen attn_metadata m = .ok n m := by
    unfold getAsuActualSeqLen
    obtain ⟨rest, hrest⟩ := List.head?_eq_some_iff.mp hn
    rw [hrest]
    rfl
  unfold prepareAsuLayerContext
  rw [bind_ok (getLayerContext_ok hl), bind_ok hlen]
  dsimp only
  split_ifs <;> rfl

/-- The layers stay, so the context can be fetched again. -/
theorem getLayerContext_again (m' : Manager α β) {layer_name : String}
    (hl : m.contexts.lookup layer_name = some c)
    (hkeys : m'.contexts.map Prod.fst = m.contexts.map Prod.fst) :
    ∃ c', getLayerContext layer_name m' = .ok c' m' := by
  have hmem : layer_name ∈ m'.contexts.map Prod.fst := by
    rw [hkeys]
    exact List.mem_map.mpr ⟨_, mem_of_lookup hl, rfl⟩
  obtain ⟨p, hp, hname⟩ := List.mem_map.mp hmem
  have hsome : (m'.contexts.lookup layer_name).isSome := by
    rw [List.lookup_isSome_iff]
    exact ⟨p, hp, by rw [hname]; exact beq_self_eq_true _⟩
  obtain ⟨c', hc'⟩ := Option.isSome_iff_exists.mp hsome
  exact ⟨c', getLayerContext_ok hc'⟩

/-- **One call** raises and leaves the contexts as they were, or returns with all of
them at the step's length. -/
theorem prepare_spec (h : InStep m r l) (henabled : m.enabled = true) {layer_name : String}
    {attn_metadata : DecodeMetadata} (hl : m.contexts.lookup layer_name = some c)
    (hn : attn_metadata.seq_lens_cpu.head? = some n)
    (hcovers : Restarts c attn_metadata.reqId n → 0 < attn_metadata.prefixLen n →
      ((attn_metadata.prefixLen n).toNat - 1) / c.block_size < attn_metadata.block_table.length)
    (hgrows : ¬ Restarts c attn_metadata.reqId n → n ≤ c.actual_seq_len + 1) :
    (∃ e, prepareAsuLayerContext layer_name attn_metadata m = .error e m) ∨
    (∃ c' m', prepareAsuLayerContext layer_name attn_metadata m = .ok c' m' ∧
      InStep m' (some attn_metadata.reqId) n) := by
  have hmem := mem_of_lookup hl
  have hc : Synced m r l c := h.synced _ hmem
  have hne : m.contexts ≠ [] := List.ne_nil_of_mem hmem
  rw [prepare_eq hl hn]
  by_cases hrestart : Restarts c attn_metadata.reqId n
  · rw [if_pos hrestart]
    rcases resetSingleRequest_cases (n := n) (r := r) h henabled hne (by
      rw [← hc.block_size]; exact hcovers hrestart) with ⟨e, he⟩ | ⟨_, _, m', hok, hkeys, hm'⟩
    · exact Or.inl ⟨e, bind_error he⟩
    · obtain ⟨c', hc'⟩ := getLayerContext_again m' hl hkeys
      exact Or.inr ⟨c', m', by rw [bind_ok hok, hc'], hm'⟩
  · rw [if_neg hrestart]
    have hgrow := hgrows hrestart
    have hlen := hc.actual_seq_len
    -- the same request, at this length or one below it
    have hreq : r = some attn_metadata.reqId := by
      rw [← hc.req_id]
      by_contra hne
      exact hrestart (Or.inl hne)
    have hle : ¬ n < c.actual_seq_len := fun hlt => hrestart (Or.inr (Or.inr hlt))
    by_cases hgt : n > c.actual_seq_len
    · have hnl : n - 1 = l := by omega
      rw [if_pos hgt, hnl]
      rcases markDecodeToken_cases h henabled hne with ⟨e, he⟩ | ⟨_, m', hok, hkeys, hm'⟩
      · exact Or.inl ⟨e, bind_error he⟩
      · obtain ⟨c', hc'⟩ := getLayerContext_again m' hl hkeys
        refine Or.inr ⟨c', m', by rw [bind_ok hok, hc'], ?_⟩
        rw [show n = l + 1 by omega, ← hreq]
        exact hm'
    · rw [if_neg hgt]
      refine Or.inr ⟨c, m, getLayerContext_ok hl, ?_⟩
      rw [show n = l by omega, ← hreq]
      exact h

/-- The case that the path does not handle: a call that keeps the contexts and finds
the sequence grown by more than one token leaves a token without a state. -/
theorem prepare_leaves_gap (h : InStep m r l) (henabled : m.enabled = true) {layer_name : String}
    {attn_metadata : DecodeMetadata} (hl : m.contexts.lookup layer_name = some c)
    (hn : attn_metadata.seq_lens_cpu.head? = some n)
    (hkeep : ¬ Restarts c attn_metadata.reqId n) (hgap : c.actual_seq_len + 1 < n)
    {c' : Context α β} {m' : Manager α β}
    (hret : prepareAsuLayerContext layer_name attn_metadata m = .ok c' m') :
    ¬ Consistent m' attn_metadata.reqId n := by
  have hmem := mem_of_lookup hl
  have hc : Synced m r l c := h.synced _ hmem
  have hlen := hc.actual_seq_len
  have h0 := h.len_nonneg
  rw [prepare_eq hl hn, if_neg hkeep, if_pos (by omega)] at hret
  have hmark : Manager.markDecodeToken (n - 1) m =
      onContexts (markDecodeToken (n - 1)) m := by
    unfold Manager.markDecodeToken
    rw [get_bind, if_neg (by rw [henabled]; decide)]
  by_cases hmax : n - 1 < m.max_seq_len
  · have hok := onContexts_ok (m := m) (f := markDecodeToken (n - 1)) (g := fun c => { c with
        actual_seq_len := max c.actual_seq_len (n - 1 + 1)
        token_state := c.token_state.set (n - 1).toNat TAIL_HBM }) fun p hp =>
      markDecodeToken_ok (n - 1) (by omega) (by rw [(h.synced p hp).max_seq_len]; exact hmax)
    rw [bind_ok (hmark.trans hok)] at hret
    obtain ⟨c2, hc2⟩ := getLayerContext_again { m with
      contexts := m.contexts.map fun p => (p.1, { p.2 with
        actual_seq_len := max p.2.actual_seq_len (n - 1 + 1)
        token_state := p.2.token_state.set (n - 1).toNat TAIL_HBM }) } hl
      (by simp [Function.comp_def])
    rw [hc2] at hret
    cases hret
    intro hcons
    -- token `l` is below the new length, and its state is what it was
    have hstate := (hcons _ (List.mem_map.mpr ⟨_, hmem, rfl⟩)).2.2 l.toNat (by omega)
    have hlt : (n - 1).toNat < c.token_state.length := by
      rw [hc.shaped.state_length, hc.max_seq_len]; omega
    dsimp only at hstate
    rw [read_set hlt, if_neg (by omega), hc.beyond l.toNat (by omega)] at hstate
    exact absurd hstate (by decide)
  · obtain ⟨e, he⟩ := onContexts_error (f := markDecodeToken (n - 1)) (List.ne_nil_of_mem hmem)
      fun p hp => markDecodeToken_error (Or.inr (by rw [(h.synced p hp).max_seq_len]; omega))
    rw [bind_error (hmark.trans he)] at hret
    cases hret

/-- A layer takes the path only if the manager is enabled and has a context for it. -/
theorem useAsuKvCache_iff {enable_dsa_cp : Bool} {layer_name : String}
    {attn_metadata : DecodeMetadata}
    (h : useAsuKvCache enable_dsa_cp m layer_name attn_metadata = true) :
    m.enabled = true ∧ ∃ c, m.contexts.lookup layer_name = some c := by
  unfold useAsuKvCache at h
  simp only [Bool.and_eq_true] at h
  exact ⟨h.1.1.1.1.1, Option.isSome_iff_exists.mp h.1.1.1.1.2⟩

/-- **One forward pass.** -/
theorem forwardLayer_spec (h : InStep m r l) {enable_dsa_cp : Bool} {layer_name : String}
    {attn_metadata : DecodeMetadata}
    (hfine : ManagerStep.Fine m
      (.forward enable_dsa_cp layer_name attn_metadata : ManagerStep α β)) :
    (∃ e, forwardLayer enable_dsa_cp layer_name attn_metadata m = .error e m) ∨
    forwardLayer enable_dsa_cp layer_name attn_metadata m = .ok none m ∨
    (∃ n c' m', attn_metadata.seq_lens_cpu.head? = some n ∧
      forwardLayer enable_dsa_cp layer_name attn_metadata m = .ok (some c') m' ∧
      InStep m' (some attn_metadata.reqId) n) := by
  unfold forwardLayer
  rw [get_bind]
  by_cases huse : useAsuKvCache enable_dsa_cp m layer_name attn_metadata = true
  · rw [if_pos huse]
    obtain ⟨henabled, c, hl⟩ := useAsuKvCache_iff huse
    cases hn : attn_metadata.seq_lens_cpu.head? with
    -- the metadata have no length: the layer raises before it has looked at a context
    | none =>
        have hraise : prepareAsuLayerContext layer_name attn_metadata m =
            .error (.RuntimeError "ASU decode requires seq_lens_cpu") m := by
          unfold prepareAsuLayerContext
          rw [bind_ok (getLayerContext_ok hl)]
          apply bind_error
          unfold getAsuActualSeqLen
          rw [List.head?_eq_none_iff.mp hn]
          rfl
        exact Or.inl ⟨_, bind_error hraise⟩
    | some n =>
        obtain ⟨hcovers, hgrows⟩ := hfine c n huse hl hn
        rcases prepare_spec h henabled hl hn hcovers hgrows with ⟨e, he⟩ | ⟨c', m', hok, hm'⟩
        · exact Or.inl ⟨e, bind_error he⟩
        · exact Or.inr (Or.inr ⟨n, c', m', rfl, by rw [bind_ok hok]; rfl, hm'⟩)
  -- off the path a layer does nothing
  · rw [if_neg huse]
    exact Or.inr (Or.inl rfl)

/-- Resolving leaves all contexts in step, also where it raises. -/
theorem resolveLayer_inStep (h : InStep m r l) (layer_name : String) (src : Source α β)
    (topk : List ℤ) : InStep (StateExcept.after (resolveLayer layer_name src topk m)) r l := by
  unfold resolveLayer
  cases hl : m.contexts.lookup layer_name with
  | none => exact h
  | some c =>
      have hkept := asuResolve_kept src topk c.actual_seq_len c.block_size c
      have hput : ∀ c', Kept c c' → InStep { m with
          contexts := m.contexts.map fun p => if p.1 = layer_name then (p.1, c') else p } r l := by
        intro c' hk
        refine ⟨h.len_nonneg, h.len_le, fun p hp => ?_⟩
        obtain ⟨q, hq, rfl⟩ := List.mem_map.mp hp
        have hsync : Synced m r l (if q.1 = layer_name then (q.1, c') else q).2 := by
          split_ifs
          · exact (h.synced _ (mem_of_lookup hl)).kept hk
          · exact h.synced q hq
        obtain ⟨h1, h2, h3, h4, h5, h6, h7⟩ := hsync
        exact ⟨h1, h2, h3, h4, h5, h6, h7⟩
      dsimp only
      cases hres : asuResolveKvSlotsSingleReq src topk c.actual_seq_len c.block_size c with
      | ok slots c' => rw [hres] at hkept; exact hput c' hkept
      | error e c' => rw [hres] at hkept; exact hput c' hkept

/-! ## Runs -/

/-- **Any run of a manager** stays in step, about some request and some length. -/
theorem reaches_inStep {m0 : Manager α β} (h0 : InStep m0 r l) (h : Reaches m0 m) :
    ∃ r' l', InStep m r' l' := by
  induction h with
  | start => exact ⟨r, l, h0⟩
  | @step m s _ hfine ih =>
      obtain ⟨r', l', hm⟩ := ih
      cases s with
      | forward enable_dsa_cp layer_name attn_metadata =>
          show ∃ r' l', InStep
            (StateExcept.after (forwardLayer enable_dsa_cp layer_name attn_metadata m)) r' l'
          rcases forwardLayer_spec hm hfine with ⟨e, he⟩ | hnone | ⟨n, c', m', _, hok, hm'⟩
          · rw [he]; exact ⟨r', l', hm⟩
          · rw [hnone]; exact ⟨r', l', hm⟩
          · rw [hok]; exact ⟨_, n, hm'⟩
      | resolve layer_name src topk => exact ⟨r', l', resolveLayer_inStep hm layer_name src topk⟩

/-- **Contexts in step.** In a run of a new manager in which every call either starts
afresh with a block table that covers its prefix, or grows the sequence by at most one
token, every call that returns leaves all contexts at the step's request and length,
with a state for every token. -/
theorem contexts_in_step (enabled : Bool) (kv_caches : List String) (empty_0 : String → ℕ → α)
    (empty_1 : String → ℕ → β) (max_seq_len block_size : ℤ) (managed_slot_count : Option ℤ)
    (configured : Except PyError (Option ℤ)) (m0 m m' : Manager α β) (c : Context α β)
    (hnew : fromKvCaches enabled kv_caches empty_0 empty_1 max_seq_len block_size
      managed_slot_count configured = .ok m0)
    (hrun : Reaches m0 m) (enable_dsa_cp : Bool) (layer_name : String)
    (attn_metadata : DecodeMetadata)
    (hfine : ManagerStep.Fine m
      (.forward enable_dsa_cp layer_name attn_metadata : ManagerStep α β))
    (hret : forwardLayer enable_dsa_cp layer_name attn_metadata m = .ok (some c) m') :
    ∃ n, attn_metadata.seq_lens_cpu.head? = some n ∧ Consistent m' attn_metadata.reqId n := by
  obtain ⟨r, l, hm⟩ := reaches_inStep (fromKvCaches_inStep hnew) hrun
  rcases forwardLayer_spec hm hfine with ⟨e, he⟩ | hnone | ⟨n, c', m'', hn, hok, hm''⟩
  · rw [he] at hret; cases hret
  · rw [hnone] at hret; cases hret
  · rw [hok] at hret
    cases hret
    exact ⟨n, hn, hm''.consistent⟩

end

/-! ## Concrete runs -/

/-- A decode step of a single request. -/
def singleStep (req_id : String) (len : ℤ) (block_table : List ℤ) : DecodeMetadata where
  decode_only := true
  asu_num_reqs := 1
  num_actual_tokens := 1
  seq_lens_cpu := [len]
  asu_req_id := some req_id
  block_table := block_table

/-- Two layers, at most eight tokens in blocks of four. -/
def twoLayers : Manager Unit Unit where
  enabled := true
  max_seq_len := 8
  block_size := 4
  contexts := ["layers.0", "layers.1"].map fun layer_name =>
    (layer_name, freshContext 8 4 (List.replicate 8 ()) (List.replicate 8 ()))

/-- A request of length 3, its first layer's pass done. -/
def twoLayersAt3 : Manager Unit Unit :=
  { twoLayers with contexts := twoLayers.contexts.map fun p => (p.1, p.2.reset "req" 3 2 [1, 0]) }

/-- The step of the example, as the next step finds its contexts. -/
theorem twoLayers_step :
    ManagerStep.after twoLayers (.forward false "layers.0" (singleStep "req" 3 [1, 0])) =
      twoLayersAt3 := rfl

/-- The second layer finds nothing to do; then the sequence grows by one token. -/
theorem contexts_in_step_grow :
    ∃ n, (singleStep "req" 4 [1, 0]).seq_lens_cpu.head? = some n ∧
      Consistent { twoLayersAt3 with
        contexts := twoLayersAt3.contexts.map fun p => (p.1, { p.2 with
          actual_seq_len := max p.2.actual_seq_len 4
          token_state := p.2.token_state.set 3 TAIL_HBM }) }
        (singleStep "req" 4 [1, 0]).reqId n := by
  have h1 : Reaches twoLayers twoLayersAt3 := by
    rw [← twoLayers_step]
    refine Reaches.step Reaches.start fun c n _ hc hn => ?_
    cases hc
    cases hn
    exact ⟨fun _ _ => by decide, fun hkeep => absurd hkeep (by decide)⟩
  refine contexts_in_step true ["layers.0", "layers.1"] (fun _ _ => ()) (fun _ _ => ()) 8 4 none
    (.ok none) twoLayers twoLayersAt3 _ _ rfl h1 false "layers.1" (singleStep "req" 4 [1, 0])
    (fun c n _ hc hn => ?_) rfl
  cases hc
  cases hn
  exact ⟨fun hrestart => absurd hrestart (by decide), fun _ => by decide⟩

/-- One decode step of the request is served together with another request, so the path
sees lengths 3 and 5: token 3 has no state, and resolving it raises. -/
theorem skipped_step_leaves_gap :
    forwardLayer false "layers.0" (singleStep "req" 3 [1, 0]) twoLayers =
      .ok (twoLayersAt3.contexts.lookup "layers.0") twoLayersAt3 ∧
    ∃ c m', forwardLayer false "layers.0" (singleStep "req" 5 [1, 0]) twoLayersAt3 =
        .ok (some c) m' ∧
      c.actual_seq_len = 5 ∧ read c.token_state 3 = INVALID ∧
      ¬ Consistent m' (singleStep "req" 5 [1, 0]).reqId 5 ∧
      resolveLayer "layers.0" ⟨[1, 0], List.replicate 8 (), List.replicate 8 ()⟩ [3] m' =
        .error (.ValueError "unsupported token_state -1 for token_id 3") m' := by
  refine ⟨rfl, _, _, rfl, by decide, by decide, fun h => ?_, rfl⟩
  have hstate := (h _ List.mem_cons_self).2.2 3 (by decide)
  exact absurd hstate (by decide)

end AsuAscend.Decode
