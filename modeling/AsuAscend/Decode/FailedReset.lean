/-
What a `reset_single_request` that raises leaves behind, and what the next step makes of it.

`reset_state` checks its arguments first, but it writes the request and its length and
empties the tables before it finds the block table too short, and the manager resets one
layer after the other. The next step goes by the request and the length alone, and works
with the emptied tables (`prepare_takes_emptied`). So the contexts stay as they were only if
the first one to raise does so on its arguments, with no other reset before it, or if there
was nothing left for the writes to change (`reset_fails_cleanly_iff`).

## The context that is spoilt

A context that `reset_state` has emptied carries the new request and the new length, and no token of
it has a state. The next step compares exactly these two with its own and goes on with the context,
without another reset. So a reset that fails on its block table is not made up for by the next
step, as one that fails on its arguments is.

`Spoils` is a condition on the arguments and on the contexts before the call. It asks which layer
is the first to refuse the arguments, whether a layer before it has been reset, and whether it
fails on its arguments or on the block table; nothing in it runs the loop.
-/
import AsuAscend.Decode.InStep

set_option autoImplicit false

open MachineWords SentinelTable StateExcept

namespace AsuAscend.Decode

variable {α β : Type}

/-! ## What should be left -/

/-- A reset that raises changes nothing, and a later step of the same request at the same
length resets every context that has needed it. -/
def FailsCleanly (m : Manager α β) (req_id : String) (n pre : ℤ) (block_table : List ℤ) : Prop :=
  ∀ e m', resetSingleRequest req_id n pre block_table m = .error e m' →
    m' = m ∧ ∀ layer_name c attn_metadata, m.contexts.lookup layer_name = some c →
      attn_metadata.reqId = req_id → attn_metadata.seq_lens_cpu.head? = some n →
      Restarts c req_id n →
        prepareAsuLayerContext layer_name attn_metadata m' =
          (resetSingleRequest req_id n (attn_metadata.prefixLen n) attn_metadata.block_table >>=
            fun _ => getLayerContext layer_name) m'

/-! ## When it is not -/

/-- A context in which emptying has nothing to change. -/
structure IsEmptied (c : Context α β) (req_id : String) (n pre : ℤ) : Prop where
  req_id : c.req_id = some req_id
  actual_seq_len : c.actual_seq_len = n
  managed_prefix_len : c.managed_prefix_len = pre
  token_state : ∀ x ∈ c.token_state, x = INVALID
  asu_record_addr : ∀ x ∈ c.asu_record_addr, x = INVALID
  hbm_slot_of_token : ∀ x ∈ c.hbm_slot_of_token, x = INVALID
  slot_owner_token : ∀ x ∈ c.slot_owner_token, x = INVALID
  free_slot_stack : c.free_slot_stack = (List.range c.managed_slot_count).map fun i : ℕ => (i : ℤ)
  free_slot_count : c.free_slot_count = c.managed_slot_count

/-- A context in which the whole reset has nothing to change. -/
structure IsReset (c : Context α β) (req_id : String) (n pre : ℤ) (block_table : List ℤ) :
    Prop where
  req_id : c.req_id = some req_id
  actual_seq_len : c.actual_seq_len = n
  managed_prefix_len : c.managed_prefix_len = pre
  token_state : ∀ t < c.token_state.length, read c.token_state t =
    if t < pre.toNat then ASU_ONLY else if t < n.toNat then TAIL_HBM else INVALID
  asu_record_addr : ∀ t < c.asu_record_addr.length, read c.asu_record_addr t =
    if t < pre.toNat then i32 (sourceRow block_table c.block_size t) else INVALID
  hbm_slot_of_token : ∀ x ∈ c.hbm_slot_of_token, x = INVALID
  slot_owner_token : ∀ x ∈ c.slot_owner_token, x = INVALID
  free_slot_stack : c.free_slot_stack = (List.range c.managed_slot_count).map fun i : ℕ => (i : ℤ)
  free_slot_count : c.free_slot_count = c.managed_slot_count

/-- The reset comes to a layer that cannot be reset, after one that the reset has changed, or
on finding the block table too short for tables that have had something in them. -/
def Spoils (m : Manager α β) (req_id : String) (n pre : ℤ) (block_table : List ℤ) : Prop :=
  m.enabled = true ∧ ∃ before layer_name c after, m.contexts = before ++ (layer_name, c) :: after ∧
    (∀ p ∈ before, ResetArgs p.2 n pre block_table) ∧ ¬ ResetArgs c n pre block_table ∧
    ((∃ p ∈ before, ¬ IsReset p.2 req_id n pre block_table) ∨
      (0 ≤ pre ∧ pre ≤ n ∧ n ≤ c.max_seq_len) ∧ ¬ IsEmptied c req_id n pre)

section

variable {c : Context α β} {req_id : String} {n pre : ℤ} {block_table : List ℤ}

/-- A table that is all one value stays when it is filled with that value. -/
theorem replicate_eq_self {xs : List ℤ} {v : ℤ} :
    List.replicate xs.length v = xs ↔ ∀ x ∈ xs, x = v := by
  rw [eq_comm, List.eq_replicate_iff]
  exact and_iff_right rfl

/-- Emptying changes nothing of a context exactly if that is empty already, field by field. -/
theorem emptied_eq_self : c.emptied req_id n pre = c ↔ IsEmptied c req_id n pre := by
  have hfields : c.emptied req_id n pre = c ↔
      List.replicate c.token_state.length INVALID = c.token_state ∧
      List.replicate c.asu_record_addr.length INVALID = c.asu_record_addr ∧
      List.replicate c.hbm_slot_of_token.length INVALID = c.hbm_slot_of_token ∧
      List.replicate c.slot_owner_token.length INVALID = c.slot_owner_token ∧
      ((List.range c.managed_slot_count).map fun i : ℕ => (i : ℤ)) = c.free_slot_stack ∧
      (c.managed_slot_count : ℤ) = c.free_slot_count ∧
      some req_id = c.req_id ∧ n = c.actual_seq_len ∧ pre = c.managed_prefix_len := by
    obtain ⟨⟩ := c
    simp [Context.emptied, Context.cleared]
  rw [hfields]
  simp only [replicate_eq_self]
  constructor
  · rintro ⟨h1, h2, h3, h4, h5, h6, h7, h8, h9⟩
    exact ⟨h7.symm, h8.symm, h9.symm, h1, h2, h3, h4, h5.symm, h6.symm⟩
  · rintro ⟨h7, h8, h9, h1, h2, h3, h4, h5, h6⟩
    exact ⟨h1, h2, h3, h4, h5.symm, h6.symm, h7.symm, h8.symm, h9.symm⟩

/-- Two tables of one length are the same if they are the same entry by entry. -/
theorem eq_iff_read {xs ys : List ℤ} (hlen : xs.length = ys.length) :
    xs = ys ↔ ∀ i < ys.length, read ys i = read xs i := by
  constructor
  · rintro rfl i -
    rfl
  · intro h
    refine List.ext_getElem hlen fun i h1 h2 => ?_
    rw [← read_of_lt h1, ← read_of_lt h2]
    exact (h i h2).symm

/-- The state table that a reset writes: the prefix in the store, then the tail, then nothing. -/
theorem resetState_table {len i : ℕ} (h : i < len) (pre n : ℕ) :
    read (fillSlice (fillSlice (List.replicate len INVALID) 0 pre ASU_ONLY) pre n TAIL_HBM) i =
      if i < pre then ASU_ONLY else if i < n then TAIL_HBM else INVALID := by
  rw [read_fillSlice (by rw [fillSlice_length, List.length_replicate]; exact h),
    read_fillSlice (by rw [List.length_replicate]; exact h),
    read_of_lt (by rw [List.length_replicate]; exact h), List.getElem_replicate]
  split_ifs <;> first | rfl | omega

/-- The address table that a reset writes: rows for the prefix, nothing after it. -/
theorem resetAddr_table {len i : ℕ} (h : i < len) (pre : ℕ) (f : ℕ → ℤ) :
    read (copyPrefix (List.replicate len INVALID) ((List.range pre).map f)) i =
      if i < pre then f i else INVALID := by
  rw [read_copyPrefix (by rw [List.length_replicate]; exact h), List.length_map, List.length_range]
  split_ifs with hi
  · rw [read_of_lt (by simpa using hi), List.getElem_map, List.getElem_range]
  · rw [read_of_lt (by rw [List.length_replicate]; exact h), List.getElem_replicate]

/-- A reset changes nothing of a context exactly if that is what the reset makes, field by
field. -/
theorem reset_eq_self :
    c.reset req_id n pre block_table = c ↔ IsReset c req_id n pre block_table := by
  have hfields : c.reset req_id n pre block_table = c ↔
      fillSlice (fillSlice (List.replicate c.token_state.length INVALID) 0 pre.toNat ASU_ONLY)
        pre.toNat n.toNat TAIL_HBM = c.token_state ∧
      copyPrefix (List.replicate c.asu_record_addr.length INVALID)
        ((List.range pre.toNat).map fun t => i32 (sourceRow block_table c.block_size t)) =
          c.asu_record_addr ∧
      List.replicate c.hbm_slot_of_token.length INVALID = c.hbm_slot_of_token ∧
      List.replicate c.slot_owner_token.length INVALID = c.slot_owner_token ∧
      ((List.range c.managed_slot_count).map fun i : ℕ => (i : ℤ)) = c.free_slot_stack ∧
      (c.managed_slot_count : ℤ) = c.free_slot_count ∧
      some req_id = c.req_id ∧ n = c.actual_seq_len ∧ pre = c.managed_prefix_len := by
    obtain ⟨⟩ := c
    simp [Context.reset, Context.withTail, Context.withPrefix, Context.cleared]
  rw [hfields, eq_iff_read (by rw [fillSlice_length, fillSlice_length, List.length_replicate]),
    eq_iff_read (by rw [copyPrefix_length, List.length_replicate])]
  simp only [replicate_eq_self]
  constructor
  · rintro ⟨h1, h2, h3, h4, h5, h6, h7, h8, h9⟩
    refine ⟨h7.symm, h8.symm, h9.symm, fun t ht => ?_, fun t ht => ?_, h3, h4, h5.symm, h6.symm⟩
    · rw [h1 t ht, resetState_table ht]
    · rw [h2 t ht, resetAddr_table ht]
  · rintro ⟨h7, h8, h9, h1, h2, h3, h4, h5, h6⟩
    refine ⟨fun t ht => ?_, fun t ht => ?_, h3, h4, h5.symm, h6.symm, h7.symm, h8.symm, h9.symm⟩
    · rw [h1 t ht, resetState_table ht]
    · rw [h2 t ht, resetAddr_table ht]

end

/-! ## The loop over the layers -/

section

variable {f : Method α β Unit} {g : Context α β → Context α β}

/-- A loop that raises at a layer has been through the layers before it. -/
theorem eachContext_raises {before : List (String × Context α β)} (layer_name : String)
    (after : List (String × Context α β)) {c c' : Context α β} {e : PyError} (hbefore : ∀ p ∈ before, f p.2 = .ok () (g p.2))
    (hc : f c = .error e c') :
    eachContext f (before ++ (layer_name, c) :: after) =
      .error e (before.map (fun p => (p.1, g p.2)) ++ (layer_name, c') :: after) := by
  induction before with
  | nil =>
      rw [List.nil_append, eachContext, hc]
      rfl
  | cons p before ih =>
      have hp := hbefore p List.mem_cons_self
      have ih := ih fun q hq => hbefore q (List.mem_cons_of_mem p hq)
      obtain ⟨name, c0⟩ := p
      rw [List.cons_append, eachContext, hp]
      dsimp only
      rw [ih]
      rfl

/-- All layers, or the first one without the property. -/
theorem layers_cases (P : Context α β → Prop) (cs : List (String × Context α β)) :
    (∀ p ∈ cs, P p.2) ∨ ∃ before layer_name c after, cs = before ++ (layer_name, c) :: after ∧
      (∀ p ∈ before, P p.2) ∧ ¬ P c := by
  classical
  cases hfind : cs.find? fun p => decide (¬ P p.2) with
  | none =>
      refine Or.inl fun p hp => ?_
      simpa using List.find?_eq_none.mp hfind p hp
  | some p =>
      obtain ⟨hp, before, after, heq, hbefore⟩ := List.find?_eq_some_iff_append.mp hfind
      refine Or.inr ⟨before, p.1, p.2, after, heq, fun q hq => ?_, of_decide_eq_true hp⟩
      simpa using hbefore q hq

end

section

variable {m : Manager α β} {req_id : String} {n pre : ℤ} {block_table : List ℤ} {c : Context α β}

/-- With arguments in range no check of `reset_state` raises. -/
theorem resetState_ok (h : ResetArgs c n pre block_table) :
    resetState req_id n pre block_table c = .ok () (c.reset req_id n pre block_table) := by
  rcases resetState_cases c req_id n pre block_table with
    ⟨e, -, hno⟩ | ⟨e, -, -, hpos, hshort⟩ | ⟨-, hok⟩
  · exact absurd ⟨h.pre_nonneg, h.pre_le, h.len_le⟩ hno
  · exact absurd (h.covers hpos) (by omega)
  · exact hok

/-- A reset that raises, by the state that it leaves. -/
theorem resetState_error (req_id : String) (h : ¬ ResetArgs c n pre block_table) :
    ∃ e c', resetState req_id n pre block_table c = .error e c' ∧
      (¬ (0 ≤ pre ∧ pre ≤ n ∧ n ≤ c.max_seq_len) ∧ c' = c ∨
        (0 ≤ pre ∧ pre ≤ n ∧ n ≤ c.max_seq_len) ∧ c' = c.emptied req_id n pre) := by
  rcases resetState_cases c req_id n pre block_table with
    ⟨e, he, hno⟩ | ⟨e, he, hle, hpos, -⟩ | ⟨hargs, -⟩
  · exact ⟨e, c, he, Or.inl ⟨hno, rfl⟩⟩
  · exact ⟨e, _, he, Or.inr ⟨⟨by omega, hle.1, hle.2⟩, rfl⟩⟩
  · exact absurd hargs h

/-- Where the loop raises, and which contexts it leaves. -/
theorem resetSingleRequest_raises {before after : List (String × Context α β)} {layer_name : String}
    {c' : Context α β} {e : PyError} (henabled : m.enabled = true)
    (hcs : m.contexts = before ++ (layer_name, c) :: after)
    (hbefore : ∀ p ∈ before, ResetArgs p.2 n pre block_table)
    (hc : resetState req_id n pre block_table c = .error e c') :
    resetSingleRequest req_id n pre block_table m = .error e { m with
      contexts := before.map (fun p => (p.1, p.2.reset req_id n pre block_table)) ++
        (layer_name, c') :: after } := by
  have hloop := eachContext_raises layer_name after
    (g := fun c => c.reset req_id n pre block_table) (fun p hp => resetState_ok (hbefore p hp)) hc
  unfold resetSingleRequest
  rw [get_bind, if_neg (by rw [henabled]; decide)]
  unfold onContexts
  rw [hcs, hloop]

/-- The contexts that are left are the ones there were if the resets on the way had nothing to
change. -/
theorem contexts_unchanged_iff {before after : List (String × Context α β)} {layer_name : String}
    {c' : Context α β} :
    before.map (fun p => (p.1, p.2.reset req_id n pre block_table)) ++ (layer_name, c') :: after =
      before ++ (layer_name, c) :: after ↔
    (∀ p ∈ before, IsReset p.2 req_id n pre block_table) ∧ c' = c := by
  have hmap : before.map (fun p => (p.1, p.2.reset req_id n pre block_table)) = before ↔
      ∀ p ∈ before, IsReset p.2 req_id n pre block_table := by
    conv_lhs => rhs; rw [← List.map_id before]
    rw [List.map_inj_left]
    refine forall₂_congr fun p _ => ?_
    rw [← reset_eq_self, id, Prod.ext_iff]
    exact and_iff_right rfl
  rw [← hmap]
  constructor
  · intro heq
    obtain ⟨hbefore, hrest⟩ := List.append_inj heq (List.length_map _)
    injection hrest with hp
    exact ⟨hbefore, congrArg Prod.snd hp⟩
  · rintro ⟨hbefore, rfl⟩
    rw [hbefore]

/-- **The next step** goes by the request and the length: it takes the emptied context for one
that has been reset. -/
theorem prepare_takes_emptied {layer_name : String} {attn_metadata : DecodeMetadata}
    (hl : m.contexts.lookup layer_name = some (c.emptied attn_metadata.reqId n pre))
    (hn : attn_metadata.seq_lens_cpu.head? = some n) (hpos : 0 < n) :
    prepareAsuLayerContext layer_name attn_metadata m =
      .ok (c.emptied attn_metadata.reqId n pre) m := by
  -- the two fields that the step looks at were written before the reset raised
  have hno : ¬ Restarts (c.emptied attn_metadata.reqId n pre) attn_metadata.reqId n := by
    rintro (hreq | hzero | hless)
    · exact hreq rfl
    · have hzero : n = 0 := hzero
      omega
    · exact lt_irrefl n hless
  have hlen : ¬ n > (c.emptied attn_metadata.reqId n pre).actual_seq_len := lt_irrefl n
  rw [prepare_eq hl hn, if_neg hno, if_neg hlen, bind_ok (StateExcept.pure_run _ _)]
  exact getLayerContext_ok hl

/-! ## Resets that raise -/

/-- **A reset that raises** leaves every context as it was, and due for the reset if it was
due, unless one before it has been reset or it has emptied its own tables. -/
theorem reset_fails_cleanly_iff (m : Manager α β) (req_id : String) (n pre : ℤ)
    (block_table : List ℤ) :
    FailsCleanly m req_id n pre block_table ↔ ¬ Spoils m req_id n pre block_table := by
  constructor
  · rintro hclean ⟨henabled, before, layer_name, c, after, hcs, hbefore, hc, hspoilt⟩
    obtain ⟨e, c', he, hleft⟩ := resetState_error req_id hc
    obtain ⟨hm, -⟩ := hclean _ _ (resetSingleRequest_raises henabled hcs hbefore he)
    -- the contexts that are left are those of `m`, so no reset on the way has changed any
    obtain ⟨hreset, hsame⟩ := contexts_unchanged_iff.mp ((congrArg Manager.contexts hm).trans hcs)
    rcases hspoilt with ⟨p, hp, hchanged⟩ | ⟨hle, hchanged⟩
    · exact hchanged (hreset p hp)
    · rcases hleft with ⟨hno, -⟩ | ⟨-, hemptied⟩
      · exact hno hle
      · exact hchanged (emptied_eq_self.mp (hemptied.symm.trans hsame))
  · intro hspoils e m' herr
    have hsame : m' = m := by
      by_cases henabled : m.enabled = true
      · rcases layers_cases (fun c => ResetArgs c n pre block_table) m.contexts with
          hall | ⟨before, layer_name, c, after, hcs, hbefore, hc⟩
        · unfold resetSingleRequest at herr
          rw [get_bind, if_neg (by rw [henabled]; decide),
            onContexts_ok (g := fun c => c.reset req_id n pre block_table)
              fun p hp => resetState_ok (hall p hp)] at herr
          cases herr
        · obtain ⟨e', c', he, hleft⟩ := resetState_error req_id hc
          -- neither this context nor one before it had anything to change
          have hreset : ∀ p ∈ before, IsReset p.2 req_id n pre block_table := by
            intro p hp
            by_contra hchanged
            exact hspoils ⟨henabled, before, layer_name, c, after, hcs, hbefore, hc,
              Or.inl ⟨p, hp, hchanged⟩⟩
          have hc' : c' = c := by
            rcases hleft with ⟨-, hc'⟩ | ⟨hle, rfl⟩
            · exact hc'
            · rw [emptied_eq_self]
              by_contra hchanged
              exact hspoils ⟨henabled, before, layer_name, c, after, hcs, hbefore, hc,
                Or.inr ⟨hle, hchanged⟩⟩
          rw [resetSingleRequest_raises henabled hcs hbefore he] at herr
          cases herr
          rw [contexts_unchanged_iff.mpr ⟨hreset, hc'⟩, ← hcs]
      · -- a manager that is off returns
        unfold resetSingleRequest at herr
        rw [get_bind, if_pos (by simpa using henabled)] at herr
        cases herr
    subst hsame
    refine ⟨rfl, fun layer_name c attn_metadata hl hreq hn hrestart => ?_⟩
    subst hreq
    rw [prepare_eq hl hn, if_pos hrestart]

/-- Another request comes along with five tokens to take over and a block table for four: the
reset raises with the tables of the first layer empty, and the next step of the request takes
that layer as it is. -/
theorem reset_spoils :
    ∃ e m', resetSingleRequest "next" 6 5 [0] twoLayersAt3 = .error e m' ∧ m' ≠ twoLayersAt3 ∧
      ∃ c, prepareAsuLayerContext "layers.0" (singleStep "next" 6 [0]) m' = .ok c m' ∧
        ∀ x ∈ c.token_state, x = INVALID := by
  refine ⟨_, _, rfl, fun heq => ?_, _, rfl, by decide⟩
  have hreq := congrArg (fun m => m.contexts.map fun p => p.2.req_id) heq
  exact absurd hreq (by decide)

/-- Where the layers have one length and one block size, as `from_kv_caches` makes them, the
first one raises if any does. -/
theorem spoils_iff_of_alike {m : Manager α β}
    (halike : ∀ p ∈ m.contexts, p.2.max_seq_len = m.max_seq_len ∧ p.2.block_size = m.block_size)
    {req_id : String} {n pre : ℤ} {block_table : List ℤ} :
    Spoils m req_id n pre block_table ↔ m.enabled = true ∧ 0 < pre ∧ pre ≤ n ∧ n ≤ m.max_seq_len ∧
      block_table.length ≤ (pre.toNat - 1) / m.block_size ∧
      ∃ p rest, m.contexts = p :: rest ∧ ¬ IsEmptied p.2 req_id n pre := by
  constructor
  · rintro ⟨henabled, before, layer_name, c, after, hcs, hbefore, hc, hspoilt⟩
    obtain ⟨hmax, hblock⟩ := halike (layer_name, c) (by rw [hcs]; simp)
    -- a layer that can be reset is like this one, which cannot
    have hnil : before = [] := by
      rw [List.eq_nil_iff_forall_not_mem]
      intro p hp
      obtain ⟨hmax', hblock'⟩ := halike p (by rw [hcs]; exact List.mem_append_left _ hp)
      obtain ⟨h1, h2, h3, h4⟩ := hbefore p hp
      rw [hmax', ← hmax] at h3
      rw [hblock', ← hblock] at h4
      exact hc ⟨h1, h2, h3, h4⟩
    subst hnil
    obtain ⟨hle, hchanged⟩ := hspoilt.resolve_left fun ⟨p, hp, _⟩ => (nomatch hp)
    have hshort : 0 < pre ∧ block_table.length ≤ (pre.toNat - 1) / c.block_size := by
      by_contra hcovers
      exact hc ⟨hle.1, hle.2.1, hle.2.2, fun hpos => by
        by_contra hlt
        exact hcovers ⟨hpos, by omega⟩⟩
    have hmax : c.max_seq_len = m.max_seq_len := hmax
    have hblock : c.block_size = m.block_size := hblock
    rw [hmax] at hle
    rw [hblock] at hshort
    exact ⟨henabled, hshort.1, hle.2.1, hle.2.2, hshort.2, _, after, hcs, hchanged⟩
  · rintro ⟨henabled, hpos, hle, hmax, hshort, p, rest, hcs, hchanged⟩
    obtain ⟨hmax', hblock'⟩ := halike p (by rw [hcs]; exact List.mem_cons_self)
    refine ⟨henabled, [], p.1, p.2, rest, hcs, fun q hq => (nomatch hq), fun hargs => ?_,
      Or.inr ⟨⟨by omega, hle, by omega⟩, hchanged⟩⟩
    have hcovers := hargs.covers hpos
    rw [hblock'] at hcovers
    omega

end

end AsuAscend.Decode
