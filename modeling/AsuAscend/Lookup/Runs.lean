/-
Runs of `lookup_allocate_evict` calls, and runs with the payload transfers that
the operator leaves to its caller.

`runCalls` threads the state through a list of query rows and stops at the first
raise. `ServeRun` adds the caller's side of the IO boundary: after each call the
caller copies the data of every position with `miss_mask` set into that
position's slot, in any order, before the next call. Attention reads the payload
array at `slot_ids`; `payload_transparent` says that it always reads the right
token's data.

## What is proved

* `lookup_run_consistent`: after every call of a run that returns, the tables are inverse to
  each other and the order is a permutation, each token in range has the slot that the call
  returned for it, and the miss mask marks one position for each token that had to be loaded.
* `payload_transparent`: whatever the payloads and the order of the transfers, attention reads
  at every position the data of the token that is asked for there. The induction carries
  `Coherent`: every resident token's slot holds its data.

A slot that is loaded is never one that the same call has hit (`missPosition_inj`), so that
no order of the transfers can overwrite data that are still to be read.
-/
import AsuAscend.Lookup.Call

set_option autoImplicit false

open SentinelTable InverseTables

namespace AsuAscend.Lookup

/-! ## Runs -/

/-- One call of a run: its row, what it returned and the state it left. -/
structure LookupCall where
  query : List ℤ
  out : Outputs
  after : LookupState
deriving DecidableEq

/-- Call after call, until one raises. -/
def runCalls (s : LookupState) : List (List ℤ) → Except Raised (List LookupCall)
  | [] => .ok []
  | query :: rows => do
      let (out, s') ← lookup_allocate_evict query s
      let rest ← runCalls s' rows
      return ⟨query, out, s'⟩ :: rest

/-- A run that returns has returned at its first call, and on the others after it. -/
theorem runCalls_cons {s : LookupState} {query : List ℤ} {rows : List (List ℤ)}
    {calls : List LookupCall} (h : runCalls s (query :: rows) = .ok calls) :
    ∃ out s' rest, lookup_allocate_evict query s = .ok (out, s') ∧
      runCalls s' rows = .ok rest ∧ calls = ⟨query, out, s'⟩ :: rest := by
  rw [runCalls] at h
  rcases hq : lookup_allocate_evict query s with e | ⟨out, s'⟩
  · rw [hq] at h; cases h
  · rw [hq] at h
    rcases hr : runCalls s' rows with e | rest
    · simp only [Except.bind, bind, hr] at h; cases h
    · simp only [Except.bind, bind, hr, pure, Except.pure] at h
      exact ⟨out, s', rest, rfl, hr, (Except.ok.inj h).symm⟩

/-- The returned slots agree with the state the call leaves. -/
structure CallConsistent (c : LookupCall) : Prop where
  perm : c.after.lru_slots.Perm ((List.range c.after.slot_to_token.length).map Int.ofNat)
  inverse : MutuallyInverse c.after.token_to_slot c.after.slot_to_token
  bound : ∀ p t, c.query[p]? = some t → InRange c.after t →
    0 ≤ read c.out.slot_ids p ∧
    read c.out.slot_ids p = read c.after.token_to_slot t.toNat ∧
    read c.after.slot_to_token (read c.out.slot_ids p).toNat = t
  padding : ∀ p t, c.query[p]? = some t → ¬ InRange c.after t →
    read c.out.slot_ids p = -1 ∧ c.out.miss_mask.getD p true = false

/-- **What a call is like**, from a state in order. -/
theorem CallSpec.consistent {s s' : LookupState} {query : List ℤ} {c : Scan} {out : Outputs}
    (h : CallSpec s query c out s') (hwf : Wf s) (hc : ScanSpec s query query.length c) :
    CallConsistent ⟨query, out, s'⟩ := by
  have hwf' := h.wf hwf hc
  refine ⟨hwf'.perm, hwf'.inverse, fun p t hp hr => ?_, fun p t hp hr => ?_⟩
  · have hr0 := h.inRange_iff.mp hr
    have hid := h.ids p t hp
    rw [if_pos hr0] at hid
    have hres := h.resident hwf hc (List.mem_of_getElem? hp) hr0
    refine ⟨?_, hid, ?_⟩
    · rw [hid]; exact hres.2
    · rw [hid]; exact hwf'.slot_holds hres
  · have hr0 : ¬ InRange s t := fun h0 => hr (h.inRange_iff.mpr h0)
    have hid := h.ids p t hp
    rw [if_neg hr0] at hid
    refine ⟨hid, ?_⟩
    have hlt : p < out.miss_mask.length := by
      rw [h.mask, hc.mask_length]; exact lt_of_getElem?_eq_some hp
    -- a set mask bit would make the padding token a missing one
    have hfalse : out.miss_mask.getD p false ≠ true := by
      intro htrue
      obtain ⟨u, hu⟩ := (h.mask_iff hc).mp htrue
      have hpu := hc.miss_pos _ hu
      rw [hp] at hpu
      have hmem : u ∈ c.unique_misses.map Prod.snd := List.mem_map.mpr ⟨_, hu, rfl⟩
      have := ((hc.miss_iff u).mp hmem).2.1
      exact hr0 (Option.some.inj hpu ▸ this)
    dsimp only
    rw [List.getD_eq_getElem _ _ hlt] at hfalse ⊢
    exact Bool.not_eq_true _ ▸ hfalse

/-- **Every call of a run leaves consistent tables.** The run starts from a state
meeting the README invariants and lasts as long as no call raises; rows, slot
count and token capacity are arbitrary. -/
theorem lookup_run_consistent (s : LookupState) (hwf : Wf s) (rows : List (List ℤ))
    (calls : List LookupCall) (hrun : runCalls s rows = .ok calls) :
    ∀ c ∈ calls, CallConsistent c ∧
      c.after.token_to_slot.length = s.token_to_slot.length ∧
      c.after.slot_to_token.length = s.slot_to_token.length := by
  induction rows generalizing s calls with
  | nil =>
      rw [← Except.ok.inj hrun]
      intro c hc
      cases hc
  | cons query rows ih =>
      obtain ⟨out, s', rest, hcall, hrest, rfl⟩ := runCalls_cons hrun
      obtain ⟨c, hspec, _, h⟩ := lookup_ok hwf hcall
      intro d hd
      rcases List.mem_cons.mp hd with rfl | hd
      · exact ⟨h.consistent hwf hspec, h.fwd_length, h.bwd_length⟩
      · have := ih s' (h.wf hwf hspec) rest hrest d hd
        exact ⟨this.1, this.2.1.trans h.fwd_length, this.2.2.trans h.bwd_length⟩

/-- Two calls: the first has a padding entry and a repeated miss, the second an entry out of
range. -/
theorem lookup_run_consistent_two_calls :
    ∃ calls, runCalls ⟨[0, 1, 2, 3, -1, -1], [0, 1, 2, 3], [0, 1, 2, 3]⟩
        [[4, 4, -1, 1], [5, 4, 9]] = .ok calls ∧ calls.length = 2 ∧
      ∀ c ∈ calls, CallConsistent c ∧ c.after.token_to_slot.length = 6 ∧
        c.after.slot_to_token.length = 4 := by
  refine ⟨[⟨[4, 4, -1, 1], ⟨[0, 0, -1, 1], [true, false, false, false]⟩,
      ⟨[-1, 1, 2, 3, 0, -1], [4, 1, 2, 3], [2, 3, 0, 1]⟩⟩,
    ⟨[5, 4, 9], ⟨[2, 0, -1], [true, false, false]⟩,
      ⟨[-1, 1, -1, 3, 0, 2], [4, 1, 5, 3], [3, 1, 2, 0]⟩⟩], by decide, rfl, ?_⟩
  exact lookup_run_consistent ⟨[0, 1, 2, 3, -1, -1], [0, 1, 2, 3], [0, 1, 2, 3]⟩ (by decide)
    [[4, 4, -1, 1], [5, 4, 9]] _ (by decide)

/-! ## Payload -/

section Payload

variable {α : Type*} (kv : ℤ → α)

/-- Every occupied slot's payload is its token's data. -/
def Coherent (s : LookupState) (P : ℕ → α) : Prop :=
  ∀ slot < s.slot_to_token.length, 0 ≤ read s.slot_to_token slot →
    P slot = kv (read s.slot_to_token slot)

/-- The positions that owe one IO. -/
def missPositions (out : Outputs) : List ℕ :=
  (List.range out.miss_mask.length).filter fun p => out.miss_mask.getD p false

/-- One transfer: the data of position `p`'s token goes to position `p`'s slot. -/
def loadPayload (query : List ℤ) (out : Outputs) (P : ℕ → α) (p : ℕ) : ℕ → α :=
  Function.update P (read out.slot_ids p).toNat (kv (query.getD p (-1)))

/-- One served batch: the call, the order of its transfers, and the states around
it. -/
structure Batch (α : Type*) where
  query : List ℤ
  out : Outputs
  order : List ℕ
  before : LookupState
  after : LookupState
  payload : ℕ → α

/-- Batches served one after another, each with its transfers done in some order. -/
inductive ServeRun : LookupState → (ℕ → α) → List (Batch α) → Prop
  | done (s : LookupState) (P : ℕ → α) : ServeRun s P []
  | batch {s s' : LookupState} {P : ℕ → α} {query : List ℤ} {out : Outputs} {order : List ℕ}
      {rest : List (Batch α)} (hcall : lookup_allocate_evict query s = .ok (out, s'))
      (horder : order.Perm (missPositions out))
      (hrest : ServeRun s' (order.foldl (loadPayload kv query out) P) rest) :
      ServeRun s P (⟨query, out, order, s, s',
        order.foldl (loadPayload kv query out) P⟩ :: rest)

/-- What attention relies on after one batch. -/
structure BatchTransparent (b : Batch α) : Prop where
  coherent : Coherent kv b.after b.payload
  reads : ∀ p t, b.query[p]? = some t → InRange b.after t →
    b.payload (read b.out.slot_ids p).toNat = kv t
  one_io : ∀ p ∈ missPositions b.out, ∀ p' ∈ missPositions b.out,
    b.query[p]? = b.query[p']? → p = p'
  io_iff : ∀ t, (∃ p ∈ missPositions b.out, b.query[p]? = some t) ↔
    t ∈ b.query ∧ Missing b.before t
  slots_distinct : ∀ p ∈ missPositions b.out, ∀ p' ∈ missPositions b.out,
    read b.out.slot_ids p = read b.out.slot_ids p' → p = p'
  slots_not_hit : ∀ p ∈ missPositions b.out, ∀ p' t, b.query[p']? = some t →
    Resident b.before t → read b.out.slot_ids p ≠ read b.out.slot_ids p'

/-- The positions with a miss are those of the unique misses. -/
theorem mem_missPositions {s s' : LookupState} {query : List ℤ} {c : Scan} {out : Outputs}
    (h : CallSpec s query c out s') (hc : ScanSpec s query query.length c) {p : ℕ} :
    p ∈ missPositions out ↔ ∃ t, (p, t) ∈ c.unique_misses := by
  unfold missPositions
  rw [List.mem_filter, List.mem_range, h.mask_iff hc, h.mask, hc.mask_length]
  constructor
  · exact And.right
  · rintro ⟨t, ht⟩
    exact ⟨lt_of_getElem?_eq_some (hc.miss_pos _ ht), t, ht⟩

/-- A miss position's token is missing before the call, and its slot is a victim. -/
theorem missPosition_spec {s s' : LookupState} (hwf : Wf s) {query : List ℤ} {c : Scan}
    {out : Outputs} (h : CallSpec s query c out s') (hc : ScanSpec s query query.length c) {p : ℕ}
    {t : ℤ} (ht : (p, t) ∈ c.unique_misses) :
    query[p]? = some t ∧ Missing s t ∧ read out.slot_ids p = read s'.token_to_slot t.toNat ∧
      read out.slot_ids p ∈ victimSlots s c := by
  have hp := hc.miss_pos _ ht
  have hmem : t ∈ c.unique_misses.map Prod.snd := List.mem_map.mpr ⟨_, ht, rfl⟩
  obtain ⟨htq, hm⟩ := (hc.miss_iff t).mp hmem
  have hid := h.ids p t hp
  rw [if_pos hm.1] at hid
  refine ⟨hp, hm, hid, ?_⟩
  rw [hid]
  exact h.installed hwf hc htq hm

theorem missPosition_inj {s s' : LookupState} (hwf : Wf s) {query : List ℤ} {c : Scan}
    {out : Outputs} (h : CallSpec s query c out s') (hc : ScanSpec s query query.length c)
    {p p' : ℕ} {t t' : ℤ} (ht : (p, t) ∈ c.unique_misses) (ht' : (p', t') ∈ c.unique_misses)
    (heq : read out.slot_ids p = read out.slot_ids p') : p = p' := by
  obtain ⟨hp, hm, hid, _⟩ := missPosition_spec hwf h hc ht
  obtain ⟨hp', hm', hid', _⟩ := missPosition_spec hwf h hc ht'
  rw [hid, hid'] at heq
  have htt := (h.wf hwf hc).slot_inj (h.resident hwf hc (List.mem_of_getElem? hp) hm.1)
    (h.resident hwf hc (List.mem_of_getElem? hp') hm'.1) heq
  exact congrArg Prod.fst (hc.miss_inj ht ht' htt)

/-- The transfers of a batch, at one slot. Each miss slot is written once, with its
token's data; every other slot keeps its payload. -/
theorem foldl_loadPayload (query : List ℤ) (out : Outputs) (order : List ℕ) (P : ℕ → α)
    (hinj : ∀ p ∈ order, ∀ p' ∈ order,
      (read out.slot_ids p).toNat = (read out.slot_ids p').toNat → p = p') (slot : ℕ) :
    (∀ p ∈ order, (read out.slot_ids p).toNat = slot →
      order.foldl (loadPayload kv query out) P slot = kv (query.getD p (-1))) ∧
    ((∀ p ∈ order, (read out.slot_ids p).toNat ≠ slot) →
      order.foldl (loadPayload kv query out) P slot = P slot) := by
  induction order using List.reverseRecOn with
  | nil => exact ⟨fun p hp => absurd hp (by simp), fun _ => rfl⟩
  | append_singleton order q ih =>
      have ih := ih fun p hp p' hp' =>
        hinj p (List.mem_append_left _ hp) p' (List.mem_append_left _ hp')
      rw [List.foldl_append, List.foldl_cons, List.foldl_nil]
      by_cases hq : (read out.slot_ids q).toNat = slot
      · -- the last transfer lands here, and no other one does
        have hval : loadPayload kv query out (order.foldl (loadPayload kv query out) P) q slot
            = kv (query.getD q (-1)) := by
          unfold loadPayload; rw [hq, Function.update_self]
        refine ⟨fun p hp hps => ?_, fun hno => absurd hq (hno q (by simp))⟩
        rw [hinj p hp q (by simp) (hps.trans hq.symm)]
        exact hval
      · have hval : loadPayload kv query out (order.foldl (loadPayload kv query out) P) q slot
            = order.foldl (loadPayload kv query out) P slot := by
          unfold loadPayload; rw [Function.update_of_ne (fun h => hq h.symm)]
        rw [hval]
        refine ⟨fun p hp hps => ?_, fun hno => ih.2 fun p hp => hno p (List.mem_append_left _ hp)⟩
        rcases List.mem_append.mp hp with hp | hp
        · exact ih.1 p hp hps
        · rw [List.mem_singleton.mp hp] at hps
          exact absurd hps hq

/-- The transfers of a batch go to slots of its own, one each. -/
theorem transfers_inj {s s' : LookupState} (hwf : Wf s) {query : List ℤ} {c : Scan} {out : Outputs}
    (h : CallSpec s query c out s') (hc : ScanSpec s query query.length c) {order : List ℕ}
    (horder : order.Perm (missPositions out)) :
    ∀ p ∈ order, ∀ p' ∈ order,
      (read out.slot_ids p).toNat = (read out.slot_ids p').toNat → p = p' := by
  have hpos : ∀ {p : ℕ} {t : ℤ}, (p, t) ∈ c.unique_misses → 0 ≤ read out.slot_ids p :=
    fun ht => ((mem_evictableSlots hwf).mp
      (victimSlots_subset (missPosition_spec hwf h hc ht).2.2.2)).1.1
  intro p hp p' hp' heq
  obtain ⟨t, ht⟩ := (mem_missPositions h hc).mp (horder.mem_iff.mp hp)
  obtain ⟨t', ht'⟩ := (mem_missPositions h hc).mp (horder.mem_iff.mp hp')
  have h0 := hpos ht
  have h0' := hpos ht'
  exact missPosition_inj hwf h hc ht ht' (by omega)

/-- After the transfers every occupied slot has its token's data again. -/
theorem coherent_after {s s' : LookupState} (hwf : Wf s) {P : ℕ → α} (hP : Coherent kv s P)
    {query : List ℤ} {c : Scan} {out : Outputs} (h : CallSpec s query c out s')
    (hc : ScanSpec s query query.length c) {order : List ℕ}
    (horder : order.Perm (missPositions out)) :
    Coherent kv s' (order.foldl (loadPayload kv query out) P) := by
  have hload := foldl_loadPayload kv query out order P (transfers_inj hwf h hc horder)
  intro slot hslot hocc
  rw [h.bwd_length] at hslot
  by_cases hv : (slot : ℤ) ∈ victimSlots s c
  · -- a victim slot was loaded by the position that reported its token
    obtain ⟨t, htq, hm, hts⟩ := h.victim_holds hwf hc hv
    obtain ⟨⟨p, u⟩, hpu, rfl⟩ := List.mem_map.mp ((hc.miss_iff t).mpr ⟨htq, hm⟩)
    obtain ⟨hp, _, hid, _⟩ := missPosition_spec hwf h hc hpu
    have hmem : p ∈ order := horder.mem_iff.mpr ((mem_missPositions h hc).mpr ⟨_, hpu⟩)
    have hval := (hload slot).1 p hmem (by rw [hid, hts]; simp)
    rw [hval, List.getD_eq_getElem?_getD, hp]
    have := (h.wf hwf hc).slot_holds (h.resident hwf hc htq hm.1)
    rw [hts, Int.toNat_natCast] at this
    rw [this]; rfl
  · -- no transfer goes to any other slot, and its token is the one it had
    have hnone : ∀ p ∈ order, (read out.slot_ids p).toNat ≠ slot := by
      intro p hp heq
      obtain ⟨t, ht⟩ := (mem_missPositions h hc).mp (horder.mem_iff.mp hp)
      have hvict := (missPosition_spec hwf h hc ht).2.2.2
      have h0 := ((mem_evictableSlots hwf).mp (victimSlots_subset hvict)).1.1
      rw [show read out.slot_ids p = slot by omega] at hvict
      exact hv hvict
    have hsame : read s'.slot_to_token slot = read s.slot_to_token slot := h.bwd_kept hwf hv
    rw [(hload slot).2 hnone, hsame]
    exact hP slot hslot (by rw [← hsame]; exact hocc)

/-- From a coherent payload, attention reads each position's own token. -/
theorem coherent_reads {s s' : LookupState} (hwf : Wf s) {P : ℕ → α} (hP : Coherent kv s' P)
    {query : List ℤ} {c : Scan} {out : Outputs} (h : CallSpec s query c out s')
    (hc : ScanSpec s query query.length c) {p : ℕ} {t : ℤ} (hp : query[p]? = some t)
    (hr : InRange s' t) : P (read out.slot_ids p).toNat = kv t := by
  have hwf' := h.wf hwf hc
  have hr0 := h.inRange_iff.mp hr
  have hres := h.resident hwf hc (List.mem_of_getElem? hp) hr0
  have hid := h.ids p t hp
  rw [if_pos hr0] at hid
  have hholds := hwf'.slot_holds hres
  have hpos := hres.2
  have hlt := hwf'.slot_lt hpos
  rw [hid, hP _ (by omega) (by rw [hholds]; exact hr.1), hholds]

/-- **One batch.** -/
theorem batch_transparent {s s' : LookupState} (hwf : Wf s) {P : ℕ → α} (hP : Coherent kv s P)
    {query : List ℤ} {out : Outputs} {order : List ℕ}
    (hcall : lookup_allocate_evict query s = .ok (out, s'))
    (horder : order.Perm (missPositions out)) :
    Wf s' ∧ BatchTransparent kv
      ⟨query, out, order, s, s', order.foldl (loadPayload kv query out) P⟩ := by
  obtain ⟨c, hc, _, h⟩ := lookup_ok hwf hcall
  have hcoh := coherent_after kv hwf hP h hc horder
  refine ⟨h.wf hwf hc, hcoh, fun p t hp hr => coherent_reads kv hwf hcoh h hc hp hr, ?_, ?_, ?_, ?_⟩
  -- two positions with a miss are of different tokens
  · intro p hp p' hp' heq
    obtain ⟨t, ht⟩ := (mem_missPositions h hc).mp hp
    obtain ⟨t', ht'⟩ := (mem_missPositions h hc).mp hp'
    dsimp only at heq
    rw [(missPosition_spec hwf h hc ht).1, (missPosition_spec hwf h hc ht').1] at heq
    exact congrArg Prod.fst (hc.miss_inj ht ht' (Option.some.inj heq))
  -- the tokens transferred are the missing ones
  · intro t
    dsimp only
    rw [← hc.miss_iff t, List.mem_map]
    constructor
    · rintro ⟨p, hp, hpt⟩
      obtain ⟨u, hu⟩ := (mem_missPositions h hc).mp hp
      rw [(missPosition_spec hwf h hc hu).1] at hpt
      exact ⟨(p, u), hu, Option.some.inj hpt⟩
    · rintro ⟨⟨p, u⟩, hu, rfl⟩
      exact ⟨p, (mem_missPositions h hc).mpr ⟨u, hu⟩, (missPosition_spec hwf h hc hu).1⟩
  -- their slots are different
  · intro p hp p' hp' heq
    obtain ⟨t, ht⟩ := (mem_missPositions h hc).mp hp
    obtain ⟨t', ht'⟩ := (mem_missPositions h hc).mp hp'
    exact missPosition_inj hwf h hc ht ht' heq
  · -- a miss has a victim slot, and a hit's slot is none
    intro p hp p' t hp' hres heq
    obtain ⟨u, hu⟩ := (mem_missPositions h hc).mp hp
    have hv := (missPosition_spec hwf h hc hu).2.2.2
    have hmemq := List.mem_of_getElem? hp'
    have hid := h.ids p' t hp'
    rw [if_pos hres.1, h.kept hwf hc hres hmemq] at hid
    dsimp only at heq
    rw [heq, hid] at hv
    exact hit_notVictim hwf hc hres hmemq hv

/-- **Cache transparency.** Along every run of served batches, from a coherent
state meeting the README invariants, each batch leaves the payload coherent, each
in-range position reads its own token's data, and the transfers are one per
distinct missing token, into pairwise distinct slots that no hit was given. -/
theorem payload_transparent (s : LookupState) (hwf : Wf s) (P : ℕ → α) (hP : Coherent kv s P)
    (batches : List (Batch α)) (hrun : ServeRun kv s P batches) :
    ∀ b ∈ batches, BatchTransparent kv b := by
  induction hrun with
  | done s P => intro b hb; cases hb
  | batch hcall horder hrest ih =>
      obtain ⟨hwf', hb⟩ := batch_transparent kv hwf hP hcall horder
      intro d hd
      rcases List.mem_cons.mp hd with rfl | hd
      · exact hb
      · exact ih hwf' hb.coherent d hd

end Payload

/-- A batch with a hit, two misses and a token that comes up twice. -/
theorem payload_transparent_one_batch :
    BatchTransparent (fun t => t + 100) (⟨[4, 6, 7, 6], ⟨[1, 0, 2, 0], [false, true, true, false]⟩,
      [2, 1], ⟨[-1, 0, 2, -1, 1, 3, -1, -1], [1, 4, 2, 5], [0, 1, 2, 3]⟩,
      ⟨[-1, -1, -1, -1, 1, 3, 0, 2], [6, 4, 7, 5], [3, 0, 2, 1]⟩,
      [2, 1].foldl (loadPayload (fun t => t + 100) [4, 6, 7, 6]
        ⟨[1, 0, 2, 0], [false, true, true, false]⟩)
        fun slot => read [1, 4, 2, 5] slot + 100⟩ : Batch ℤ) :=
  payload_transparent (fun t => t + 100)
    ⟨[-1, 0, 2, -1, 1, 3, -1, -1], [1, 4, 2, 5], [0, 1, 2, 3]⟩ (by decide)
    (fun slot => read [1, 4, 2, 5] slot + 100) (fun _ _ _ => rfl) [_]
    (.batch (by decide) (by decide) (.done _ _)) _ List.mem_cons_self

end AsuAscend.Lookup
