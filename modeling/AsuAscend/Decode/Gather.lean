/-
Attention over the managed cache reads what attention over the paged cache reads.

A token's source row comes from two places: `reset_state` writes the rows of the
prefix down once, and the resolver works the rows of later tokens out when it
installs them. Either way an installed token's slot holds the token's data from
then on (`Managed`), so the slots that any call of a run has returned stay good
until the next reset (`managed_gather`).

## What the theorem asks for

The rows of the prefix fit into an `int32`, and every call presents the sequence as it is at that
point: a block table that covers it, paged caches with the tokens' rows in the places the table
names (`Presents`). `gather_lost` shows that neither can be left out. With a row at `2 ^ 31` the
recorded address wraps and the call raises, and where a later table moves a token of the tail the
slot keeps the row that it was first copied from.

Which slots a call returns is left open: what is claimed of them is only that they hold the rows,
and go on holding them while the sequence grows.
-/
import AsuAscend.Decode.Pool
import Mathlib.Tactic.IntervalCases

set_option autoImplicit false

open MachineWords SentinelTable StateExcept

namespace AsuAscend.Decode

variable {α β : Type}

/-! ## Decode runs -/

/-- What happens to a context between two resets. -/
inductive DecodeStep (α β : Type) where
  | mark
  | resolve (src : Source α β) (topk : List ℤ)

def DecodeStep.isCall : DecodeStep α β → Bool
  | .mark => false
  | .resolve _ _ => true

/-- A resolver call that has returned. -/
structure Call (α β : Type) where
  src : Source α β
  topk : List ℤ
  slots : List ℤ

def runDecode : List (DecodeStep α β) → Method α β (List (Call α β))
  | [] => pure []
  | .mark :: rest => do
      let c ← get
      markDecodeToken c.actual_seq_len
      runDecode rest
  | .resolve src topk :: rest => do
      let c ← get
      let slots ← asuResolveKvSlotsSingleReq src topk c.actual_seq_len c.block_size
      let calls ← runDecode rest
      return ⟨src, topk, slots⟩ :: calls

/-- The block table covers the first `n` tokens, and their rows hold their data. -/
def Presents (kv_0 : ℕ → α) (kv_1 : ℕ → β) (block_size n : ℕ) (src : Source α β) : Prop :=
  ∀ t < n, t / block_size < src.original_block_table.length ∧
    ∃ row : ℕ, sourceRow src.original_block_table block_size t = row ∧
      src.original_kv_cache_0[row]? = some (kv_0 t) ∧ src.original_kv_cache_1[row]? = some (kv_1 t)

/-- What a decode run is given, from length `n` on: marks stay below `max_seq_len`,
calls ask for existing tokens, their block tables agree with the table of the reset
on the prefix, and the data of existing tokens is not touched. -/
def Served (kv_0 : ℕ → α) (kv_1 : ℕ → β) (block_table : List ℤ) (block_size pre max_seq_len : ℕ) :
    ℕ → List (DecodeStep α β) → Prop
  | _, [] => True
  | n, .mark :: rest =>
      n < max_seq_len ∧ Served kv_0 kv_1 block_table block_size pre max_seq_len (n + 1) rest
  | n, .resolve src topk :: rest =>
      (∀ t ∈ topk, 0 ≤ t ∧ t < n) ∧ Presents kv_0 kv_1 block_size n src ∧
      (∀ t < pre, read src.original_block_table (t / block_size) =
        read block_table (t / block_size)) ∧
      Served kv_0 kv_1 block_table block_size pre max_seq_len n rest

/-- Slot `s` of the managed caches holds the row that the block table gives `t`. -/
def Gathered (c : Context α β) (src : Source α β) (t s : ℤ) : Prop :=
  ∃ row slot : ℕ, sourceRow src.original_block_table c.block_size t.toNat = row ∧ s = slot ∧
    row < src.original_kv_cache_0.length ∧ row < src.original_kv_cache_1.length ∧
    c.managed_kv_cache_0[slot]? = src.original_kv_cache_0[row]? ∧
    c.managed_kv_cache_1[slot]? = src.original_kv_cache_1[row]?

/-! ## The invariant -/

section

variable {kv_0 : ℕ → α} {kv_1 : ℕ → β} {block_table : List ℤ} {pre n : ℕ} {c c' : Context α β}
  {src : Source α β}

/-- A context whose first `n` tokens are the sequence. -/
structure Managed (kv_0 : ℕ → α) (kv_1 : ℕ → β) (block_table : List ℤ) (pre n : ℕ)
    (c : Context α β) : Prop where
  shaped : Shaped c
  pool : Pool c
  len : c.actual_seq_len = n
  len_le : n ≤ c.max_seq_len
  enough : c.max_seq_len ≤ c.managed_slot_count
  supported : ∀ t < n, read c.token_state t = ASU_ONLY ∨ Resident c t ∨
    read c.token_state t = TAIL_HBM
  on_record : ∀ t < n, read c.token_state t = ASU_ONLY →
    t < pre ∧ read c.asu_record_addr t = i32 (sourceRow block_table c.block_size t)
  resident_lt : ∀ t, Resident c t → t < n
  data : ∀ t, Resident c t →
    c.managed_kv_cache_0[(read c.hbm_slot_of_token t).toNat]? = some (kv_0 t) ∧
    c.managed_kv_cache_1[(read c.hbm_slot_of_token t).toNat]? = some (kv_1 t)

/-- Resident tokens stay where they are. -/
def Extends (c c' : Context α β) : Prop :=
  c'.block_size = c.block_size ∧ c'.max_seq_len = c.max_seq_len ∧
    ∀ t, Resident c t → Resident c' t ∧ read c'.hbm_slot_of_token t = read c.hbm_slot_of_token t

theorem Extends.refl (c : Context α β) : Extends c c := ⟨rfl, rfl, fun _ h => ⟨h, rfl⟩⟩

/-- Later contexts extend earlier ones, over any number of calls. -/
theorem Extends.trans {c'' : Context α β} (h : Extends c c') (h' : Extends c' c'') :
    Extends c c'' := by
  refine ⟨h'.1.trans h.1, h'.2.1.trans h.2.1, fun t ht => ?_⟩
  obtain ⟨h1, h2⟩ := h.2.2 t ht
  obtain ⟨h3, h4⟩ := h'.2.2 t h1
  exact ⟨h3, h4.trans h2⟩

/-- A reset starts the gather: nobody is resident, the prefix is recorded and the rest is in the
tail. -/
theorem reset_managed (hc : Shaped c) (hM : c.max_seq_len ≤ c.managed_slot_count)
    (req_id : String) {m p : ℤ} (h : ResetArgs c m p block_table) :
    Managed kv_0 kv_1 block_table p.toNat m.toNat (c.reset req_id m p block_table) := by
  have hnone := reset_notResident hc.tabled req_id m p block_table
  have h1 := h.pre_nonneg
  have h2 := h.pre_le
  have h3 := h.len_le
  have hstate : ∀ t < m.toNat, read (c.reset req_id m p block_table).token_state t =
      if (t : ℤ) < p then ASU_ONLY else TAIL_HBM := by
    intro t ht
    rw [reset_state hc.tabled (by omega)]
    split_ifs <;> first | rfl | omega
  refine ⟨hc.reset, Pool.reset hc.tabled, ?_, ?_, hM, fun t ht => ?_, fun t ht hasu => ?_,
    fun t ht => absurd ht (hnone t), fun t ht => absurd ht (hnone t)⟩
  · show m = (m.toNat : ℤ)
    omega
  · show m.toNat ≤ c.max_seq_len
    omega
  · rw [hstate t ht]
    split_ifs
    · exact Or.inl rfl
    · exact Or.inr (Or.inr rfl)
  · rw [hstate t ht] at hasu
    split_ifs at hasu with hp
    · exact ⟨by omega, reset_addr hc.tabled (by omega) hp⟩
    · exact absurd hasu (by decide)

/-! ## Marking a token -/

/-- One token more in the sequence. It is in the tail, where the paged cache has it. -/
theorem mark_managed (h : Managed kv_0 kv_1 block_table pre n c) (hn : n < c.max_seq_len) :
    ∃ c', markDecodeToken c.actual_seq_len c = .ok () c' ∧
      Managed kv_0 kv_1 block_table pre (n + 1) c' ∧ Extends c c' := by
  have hlen := h.len
  have hnlt : n < c.token_state.length := by rw [h.shaped.state_length]; exact hn
  -- the new token was not resident, so the resident tokens are the same
  have hstate : ∀ t, read (c.token_state.set n TAIL_HBM) t =
      if t = n then TAIL_HBM else read c.token_state t := fun t => read_set hnlt _ _
  have hnew : ¬ Resident c n := fun hres => absurd (h.resident_lt n hres) (lt_irrefl n)
  have hres := mark_resident hnlt hnew
  have hmark := markDecodeToken_ok (c := c) c.actual_seq_len (by omega) (by omega)
  refine ⟨_, hmark, ?_, rfl, rfl, fun t ht => ⟨?_, rfl⟩⟩
  · rw [hlen, Int.toNat_natCast]
    constructor
    · exact ⟨h.shaped.block_pos, by rw [List.length_set]; exact h.shaped.state_length,
        h.shaped.addr_length, h.shaped.slot_length, h.shaped.owner_length, h.shaped.stack_length,
        h.shaped.cache_0_length, h.shaped.cache_1_length⟩
    · exact h.pool.congr rfl rfl rfl rfl rfl hres
    · show max (n : ℤ) (n + 1) = ((n + 1 : ℕ) : ℤ)
      omega
    · exact hn
    · exact h.enough
    · intro t ht
      by_cases htn : t = n
      · exact Or.inr (Or.inr (by rw [htn]; exact (hstate n).trans (if_pos rfl)))
      · have hold := h.supported t (by omega)
        show read (c.token_state.set n TAIL_HBM) t = ASU_ONLY ∨
          read (c.token_state.set n TAIL_HBM) t = HBM_RESIDENT ∨
          read (c.token_state.set n TAIL_HBM) t = TAIL_HBM
        rw [hstate, if_neg htn]
        exact hold
    · intro t ht hasu
      have hasu : read (c.token_state.set n TAIL_HBM) t = ASU_ONLY := hasu
      rw [hstate] at hasu
      split_ifs at hasu with htn
      · exact absurd hasu (by decide)
      · exact h.on_record t (by omega) hasu
    · intro t ht
      have := h.resident_lt t ((hres t).mp ht)
      omega
    · exact fun t ht => h.data t ((hres t).mp ht)
  · rw [hlen, Int.toNat_natCast]
    exact (hres t).mpr ht

/-! ## Resolving a token -/

/-- One token more in the managed cache, with the rows of its own position. -/
theorem install_managed (h : Managed kv_0 kv_1 block_table pre n c) {t row : ℕ} (ht : t < n)
    (hn : ¬ Resident c t) (h0 : src.original_kv_cache_0[row]? = some (kv_0 t))
    (h1 : src.original_kv_cache_1[row]? = some (kv_1 t)) :
    ∃ (slot : ℕ) (c' : Context α β),
      installTokenToManagedCache src t row c = .ok (slot : ℤ) c' ∧
      Managed kv_0 kv_1 block_table pre n c' ∧ Extends c c' ∧ Resident c' t ∧
      read c'.hbm_slot_of_token t = slot := by
  have hle := h.len_le
  have htmax : t < c.max_seq_len := by omega
  have hpos := h.pool.free_pos h.shaped h.enough htmax hn
  obtain ⟨slot, hslot, hslotlt⟩ := h.pool.top_slot h.shaped.tabled hpos
  have hrow_0 := (List.getElem?_eq_some_iff.mp h0).1
  have hrow_1 := (List.getElem?_eq_some_iff.mp h1).1
  have hlen_0 : slot < c.managed_kv_cache_0.length := by
    rw [h.shaped.cache_0_length]; exact hslotlt
  have hlen_1 : slot < c.managed_kv_cache_1.length := by
    rw [h.shaped.cache_1_length]; exact hslotlt
  have hcopies : Copies c src row slot :=
    ⟨by omega, by omega, by omega, by omega, by omega, by omega⟩
  -- the popped slot is free, so no token that has been resident is in it
  have hkept : ∀ u, Resident c u → _ := fun u hu =>
    installed_kept h.shaped.tabled h.pool src htmax hpos hslot hcopies hu fun heq => hn (heq ▸ hu)
  refine ⟨slot, c.installed src t row slot,
    install_ok h.shaped.tabled htmax hpos h.pool.count_le hslot hslotlt hcopies, ?_, ?_, ?_, ?_⟩
  · refine ⟨h.shaped.installed, h.pool.installed h.shaped.tabled htmax hn hpos hslot, h.len, h.len_le,
      h.enough, fun u hu => ?_, fun u hu hasu => ?_, fun u hu => ?_, fun u hu => ?_⟩
    · rw [installed_resident h.shaped.tabled htmax, installed_state h.shaped.tabled htmax]
      split_ifs with hut
      · exact Or.inr (Or.inl (Or.inl hut))
      · exact (h.supported u hu).imp_right fun hs => hs.imp_left Or.inr
    · rw [installed_state h.shaped.tabled htmax] at hasu
      split_ifs at hasu with hut
      · exact absurd hasu (by decide)
      · exact h.on_record u hu hasu
    · rcases (installed_resident h.shaped.tabled htmax).mp hu with rfl | hu
      · exact ht
      · exact h.resident_lt u hu
    · rcases (installed_resident h.shaped.tabled htmax).mp hu with rfl | hu
      · -- the new token's slot has the row that was copied
        obtain ⟨x, y, hx, hy, hx', hy'⟩ := installed_holds (u := u) hcopies
        rw [h0] at hx
        rw [h1] at hy
        cases hx
        cases hy
        rw [installed_slot h.shaped.tabled htmax, if_pos rfl, Int.toNat_natCast]
        exact ⟨hx', hy'⟩
      · obtain ⟨-, hsame, hrow_0, hrow_1⟩ := hkept u hu
        rw [hsame, hrow_0, hrow_1]
        exact h.data u hu
  · exact ⟨rfl, rfl, fun u hu => ⟨(hkept u hu).1, (hkept u hu).2.1⟩⟩
  · exact (installed_resident h.shaped.tabled htmax).mpr (Or.inl rfl)
  · rw [installed_slot h.shaped.tabled htmax, if_pos rfl]

/-- **One entry of a call.** A resident token has its slot, any other is installed from the row
that its state names. -/
theorem resolveToken_managed (h : Managed kv_0 kv_1 block_table pre n c)
    (hsrc : Presents kv_0 kv_1 c.block_size n src)
    (hagree : ∀ t < pre, read src.original_block_table (t / c.block_size) =
      read block_table (t / c.block_size))
    (hbound : ∀ t < pre, sourceRow block_table c.block_size t < 2 ^ 31)
    {z : ℤ} (hz : 0 ≤ z ∧ z < n) :
    ∃ s c', resolveToken src c.actual_seq_len c.block_size z c = .ok s c' ∧
      Managed kv_0 kv_1 block_table pre n c' ∧ Extends c c' ∧ Resident c' z.toNat ∧
      read c'.hbm_slot_of_token z.toNat = s := by
  obtain ⟨t, rfl⟩ := Int.eq_ofNat_of_zero_le hz.1
  have htn : t < n := by omega
  have hlen := h.len
  have hle := h.len_le
  have hstate : t < c.token_state.length := by rw [h.shaped.state_length]; omega
  obtain ⟨hblock, row, hrow, h0, h1⟩ := hsrc t htn
  unfold resolveToken
  rw [if_neg (by omega), get_bind, bind_ok (tensorValue_ok (by simpa using hstate))]
  rw [Int.toNat_natCast]
  -- a token of the sequence is on record, resident, or in the tail
  rcases h.supported t htn with hasu | hres | htail
  · -- the row written down at the reset is the row of the call's block table
    obtain ⟨hpre, haddr⟩ := h.on_record t htn hasu
    have hsame : sourceRow block_table c.block_size t = row := by
      rw [← hrow, sourceRow, sourceRow, hagree t hpre]
    have hlt := hbound t hpre
    rw [hsame] at haddr hlt
    rw [i32_of_lt (by omega) hlt] at haddr
    have hn : ¬ Resident c t := not_resident_of_state hasu (by decide)
    obtain ⟨slot, c', hinst, hm, hext, hres, hs⟩ := install_managed h htn hn h0 h1
    refine ⟨slot, c', ?_, hm, hext, hres, hs⟩
    rw [hasu, if_neg (by decide), if_pos rfl,
      bind_ok (tensorValue_ok (by rw [h.shaped.addr_length]; omega)), haddr]
    exact hinst
  -- a resident token is answered from the tables
  · refine ⟨read c.hbm_slot_of_token t, c, ?_, h, Extends.refl c, hres, rfl⟩
    rw [if_pos (show read c.token_state t = HBM_RESIDENT from hres)]
    exact tensorValue_ok (by rw [h.shaped.slot_length]; omega)
  -- a token of the tail: its row is the one that the call's block table names
  · have hn : ¬ Resident c t := not_resident_of_state htail (by decide)
    obtain ⟨slot, c', hinst, hm, hext, hres, hs⟩ := install_managed h htn hn h0 h1
    refine ⟨slot, c', ?_, hm, hext, hres, hs⟩
    rw [htail, if_neg (by decide), if_neg (by decide), if_pos rfl,
      bind_ok (resolveTailSourceSlot_ok hblock), hrow]
    exact hinst

/-! ## A call -/

/-- The slots returned for `topk` are the resident tokens' slots. -/
def Resolved (c : Context α β) (topk slots : List ℤ) : Prop :=
  slots.length = topk.length ∧ ∀ (p : ℕ) (t s : ℤ), topk[p]? = some t → slots[p]? = some s →
    Resident c t.toNat ∧ read c.hbm_slot_of_token t.toNat = s

/-- Slots that have been handed out stay right as the context goes on. -/
theorem Resolved.extend {topk slots : List ℤ} (h : Resolved c topk slots) (hext : Extends c c') :
    Resolved c' topk slots := by
  refine ⟨h.1, fun p t s ht hs => ?_⟩
  obtain ⟨hres, hslot⟩ := h.2 p t s ht hs
  obtain ⟨hres', hslot'⟩ := hext.2.2 _ hres
  exact ⟨hres', hslot'.trans hslot⟩

theorem Resolved.concat {topk slots : List ℤ} {t s : ℤ} (h : Resolved c topk slots)
    (hres : Resident c t.toNat) (hs : read c.hbm_slot_of_token t.toNat = s) :
    Resolved c (topk ++ [t]) (slots ++ [s]) := by
  refine ⟨by rw [List.length_append, List.length_append, h.1]; rfl, fun p t' s' ht hs' => ?_⟩
  rw [List.getElem?_append] at ht hs'
  rw [h.1] at hs'
  split_ifs at ht hs' with hp
  · exact h.2 p t' s' ht hs'
  · have hp0 : p - topk.length = 0 := by
      have := (List.getElem?_eq_some_iff.mp ht).1
      rw [List.length_singleton] at this
      omega
    rw [hp0] at ht hs'
    have ht : t = t' := by simpa using ht
    have hs' : s = s' := by simpa using hs'
    rw [← ht, ← hs']
    exact ⟨hres, hs⟩

/-- **One call**, entry by entry: it returns, and each slot holds the rows of its token. -/
theorem resolve_managed (h : Managed kv_0 kv_1 block_table pre n c)
    (hsrc : Presents kv_0 kv_1 c.block_size n src)
    (hagree : ∀ t < pre, read src.original_block_table (t / c.block_size) =
      read block_table (t / c.block_size))
    (hbound : ∀ t < pre, sourceRow block_table c.block_size t < 2 ^ 31)
    {topk : List ℤ} (htopk : ∀ t ∈ topk, 0 ≤ t ∧ t < n) :
    ∃ slots c', asuResolveKvSlotsSingleReq src topk c.actual_seq_len c.block_size c = .ok slots c' ∧
      Managed kv_0 kv_1 block_table pre n c' ∧ Extends c c' ∧ Resolved c' topk slots := by
  have hlen := h.len
  have hpos := h.shaped.block_pos
  unfold asuResolveKvSlotsSingleReq
  rw [if_neg (by omega), if_neg (by omega)]
  apply mapM_ok (fun done slots c' => Managed kv_0 kv_1 block_table pre n c' ∧ Extends c c' ∧
    Resolved c' done slots)
  · exact ⟨h, Extends.refl c, rfl, fun p t s ht => by simp at ht⟩
  · intro done z rest slots c1 hsplit ⟨hm, hext, hdone⟩
    have hb := hext.1
    obtain ⟨s, c2, hrun, hm2, hext2, hres, hs⟩ := resolveToken_managed (z := z) hm
      (by rw [hb]; exact hsrc) (by rw [hb]; exact hagree) (by rw [hb]; exact hbound)
      (htopk z (by rw [hsplit]; simp))
    rw [hm.len, hb] at hrun
    rw [hlen]
    exact ⟨s, c2, hrun, hm2, Extends.trans hext hext2, (hdone.extend hext2).concat hres hs⟩

/-- The data behind a resolved entry. -/
theorem Resolved.gathered (h : Managed kv_0 kv_1 block_table pre n c) {m : ℕ}
    (hsrc : Presents kv_0 kv_1 c.block_size m src) {topk slots : List ℤ}
    (htopk : ∀ t ∈ topk, 0 ≤ t ∧ t < m) (hr : Resolved c topk slots) {p : ℕ} {t s : ℤ}
    (ht : topk[p]? = some t) (hs : slots[p]? = some s) : Gathered c src t s := by
  obtain ⟨h0, h1⟩ := htopk t (List.mem_of_getElem? ht)
  obtain ⟨hres, hslot⟩ := hr.2 p t s ht hs
  obtain ⟨_, row, hrow, hd0, hd1⟩ := hsrc t.toNat (by omega)
  obtain ⟨hm0, hm1⟩ := h.data _ hres
  have hs0 := (h.pool.owned _ hres).1
  rw [hslot] at hm0 hm1 hs0
  exact ⟨row, s.toNat, hrow, (Int.toNat_of_nonneg hs0).symm, (List.getElem?_eq_some_iff.mp hd0).1,
    (List.getElem?_eq_some_iff.mp hd1).1, hm0.trans hd0.symm, hm1.trans hd1.symm⟩

/-! ## A run -/

/-- **A run of steps**, from the context that a reset has left on. -/
theorem runDecode_spec (h : Managed kv_0 kv_1 block_table pre n c)
    (hbound : ∀ t < pre, sourceRow block_table c.block_size t < 2 ^ 31)
    {steps : List (DecodeStep α β)}
    (hsteps : Served kv_0 kv_1 block_table c.block_size pre c.max_seq_len n steps) :
    ∃ calls c' m, runDecode steps c = .ok calls c' ∧ Managed kv_0 kv_1 block_table pre m c' ∧
      Extends c c' ∧
      calls.map (fun call => DecodeStep.resolve call.src call.topk) =
        steps.filter DecodeStep.isCall ∧
      ∀ call ∈ calls, Resolved c' call.topk call.slots ∧ ∃ k,
        Presents kv_0 kv_1 c.block_size k call.src ∧ ∀ t ∈ call.topk, 0 ≤ t ∧ t < k := by
  induction steps generalizing n c with
  | nil => exact ⟨[], c, n, rfl, h, Extends.refl c, rfl, fun call hc => absurd hc (by simp)⟩
  | cons step rest ih =>
      cases step with
      | mark =>
          obtain ⟨hn, hrest⟩ := hsteps
          obtain ⟨c1, hmark, h1, hext⟩ := mark_managed h hn
          -- a mark moves neither the block size nor the bounds, so the rest is served from here too
          have hb := hext.1
          have hmax := hext.2.1
          obtain ⟨calls, c2, m, hrun, h2, hext2, hmap, hall⟩ := ih h1 (by rw [hb]; exact hbound)
            (by rw [hb, hmax]; exact hrest)
          refine ⟨calls, c2, m, ?_, h2, Extends.trans hext hext2, hmap, ?_⟩
          · rw [runDecode, get_bind, bind_ok hmark]
            exact hrun
          · rw [← hb]; exact hall
      | resolve src topk =>
          obtain ⟨htopk, hsrc, hagree, hrest⟩ := hsteps
          obtain ⟨slots, c1, hcall, h1, hext, hres⟩ := resolve_managed h hsrc hagree hbound htopk
          have hb := hext.1
          have hmax := hext.2.1
          obtain ⟨calls, c2, m, hrun, h2, hext2, hmap, hall⟩ := ih h1 (by rw [hb]; exact hbound)
            (by rw [hb, hmax]; exact hrest)
          refine ⟨⟨src, topk, slots⟩ :: calls, c2, m, ?_, h2, Extends.trans hext hext2, ?_, ?_⟩
          · rw [runDecode, get_bind, bind_ok hcall, bind_ok hrun]
            rfl
          · rw [List.map_cons, hmap]
            rfl
          · intro call hmem
            rcases List.mem_cons.mp hmem with rfl | hmem
            · exact ⟨hres.extend hext2, n, hsrc, htopk⟩
            · rw [← hb]; exact hall call hmem

/-- **Gathering from the managed cache.** After a successful reset whose prefix rows
an `int32` holds, every decode run goes through without a raise, and at its end every
entry that any of its calls has resolved still finds, in the slot returned for it, the
row that the call's block table gives it. -/
theorem managed_gather (hc : Shaped c) (hM : c.max_seq_len ≤ c.managed_slot_count)
    (req_id : String) (n pre : ℤ) (block_table : List ℤ) (c1 : Context α β)
    (hreset : resetState req_id n pre block_table c = .ok () c1)
    (hbound : ∀ t < pre.toNat, sourceRow block_table c.block_size t < 2 ^ 31)
    (kv_0 : ℕ → α) (kv_1 : ℕ → β) (steps : List (DecodeStep α β))
    (hsteps : Served kv_0 kv_1 block_table c.block_size pre.toNat c.max_seq_len n.toNat steps) :
    ∃ calls c2, runDecode steps c1 = .ok calls c2 ∧
      calls.map (fun call => DecodeStep.resolve call.src call.topk) =
        steps.filter DecodeStep.isCall ∧
      ∀ call ∈ calls, call.slots.length = call.topk.length ∧
        ∀ (p : ℕ) (t s : ℤ), call.topk[p]? = some t → call.slots[p]? = some s →
          Gathered c2 call.src t s := by
  obtain ⟨hargs, rfl⟩ : ResetArgs c n pre block_table ∧ c.reset req_id n pre block_table = c1 := by
    -- a reset that has raised leaves nothing to run
    rcases resetState_cases c req_id n pre block_table with
      ⟨e, h, _⟩ | ⟨e, h, _⟩ | ⟨hargs, h⟩
    · rw [h] at hreset; cases hreset
    · rw [h] at hreset; cases hreset
    · rw [h] at hreset
      cases hreset
      exact ⟨hargs, rfl⟩
  obtain ⟨calls, c2, m, hrun, hm, hext, hmap, hall⟩ :=
    runDecode_spec (reset_managed hc hM req_id hargs) hbound hsteps
  refine ⟨calls, c2, hrun, hmap, fun call hcall => ?_⟩
  obtain ⟨hres, k, hsrc, htopk⟩ := hall call hcall
  refine ⟨hres.1, fun p t s ht hs => hres.gathered hm ?_ htopk ht hs⟩
  rw [hext.1]
  exact hsrc

end

/-! ## Concrete contexts -/

/-- Two blocks of two rows, the first block last: token `t` holds `100 + t` and
`200 + t`. -/
def shuffledBlocks : Source ℤ ℤ where
  original_block_table := [1, 0]
  original_kv_cache_0 := [102, 103, 100, 101]
  original_kv_cache_1 := [202, 203, 200, 201]

/-- The paged caches of the example present the sequence through their block table. -/
theorem shuffledBlocks_presents {n : ℕ} (hn : n ≤ 4) :
    Presents (fun t => 100 + (t : ℤ)) (fun t => 200 + (t : ℤ)) 2 n shuffledBlocks := by
  intro t ht
  have ht4 : t < 4 := by omega
  interval_cases t
  · exact ⟨by decide, 2, by decide, rfl, rfl⟩
  · exact ⟨by decide, 3, by decide, rfl, rfl⟩
  · exact ⟨by decide, 0, by decide, rfl, rfl⟩
  · exact ⟨by decide, 1, by decide, rfl, rfl⟩

/-- Two calls, with a token marked in between. -/
theorem managed_gather_two_calls :
    ∃ calls c2, runDecode [.resolve shuffledBlocks [2, 0, 2], .mark, .resolve shuffledBlocks [3, 2]]
        ((freshContext 4 2 [0, 0, 0, 0] [0, 0, 0, 0] : Context ℤ ℤ).reset "req" 3 2 [1, 0]) =
          .ok calls c2 ∧
      calls.map (fun call => DecodeStep.resolve call.src call.topk) =
        [.resolve shuffledBlocks [2, 0, 2], .mark, .resolve shuffledBlocks [3, 2]].filter
          DecodeStep.isCall ∧
      ∀ call ∈ calls, call.slots.length = call.topk.length ∧
        ∀ (p : ℕ) (t s : ℤ), call.topk[p]? = some t → call.slots[p]? = some s →
          Gathered c2 call.src t s :=
  managed_gather (c := freshContext 4 2 [0, 0, 0, 0] [0, 0, 0, 0])
    (freshContext_shaped (by decide) rfl) (by decide) "req" 3 2 [1, 0] _
    (by rfl) (by decide) (fun t => 100 + (t : ℤ)) (fun t => 200 + (t : ℤ)) _
    ⟨by decide, shuffledBlocks_presents (by decide), by decide, by decide, by decide,
      shuffledBlocks_presents (by decide), by decide, trivial⟩

/-! ## Where the gather goes wrong -/

/-- A prefix row that an `int32` cannot hold: whatever the caches are, the call raises. -/
theorem resolve_wrapped_row (rows : List Unit) :
    ∃ e c2, runDecode [.resolve ⟨[2 ^ 31], rows, rows⟩ [0]]
      ((freshContext 1 1 [()] [()]).reset "req" 1 1 [2 ^ 31]) = .error e c2 :=
  ⟨_, _, rfl⟩

/-- Two runs that lose the gather. In the first the paged cache has more than `2 ^ 31`
rows and the prefix token lies in the last one. In the second the caches never change
and the tables agree on the prefix, but the later table moves the tail token. -/
theorem gather_lost :
    ((resetState "req" 1 1 [2 ^ 31] (freshContext 1 1 [()] [()]) =
        .ok () ((freshContext 1 1 [()] [()]).reset "req" 1 1 [2 ^ 31])) ∧
      Served (fun _ => ()) (fun _ => ()) [2 ^ 31] 1 1 1 1
        [.resolve ⟨[2 ^ 31], List.replicate (2 ^ 31 + 1) (), List.replicate (2 ^ 31 + 1) ()⟩ [0]] ∧
      ∃ e c2, runDecode [.resolve ⟨[2 ^ 31], List.replicate (2 ^ 31 + 1) (),
          List.replicate (2 ^ 31 + 1) ()⟩ [0]]
        ((freshContext 1 1 [()] [()]).reset "req" 1 1 [2 ^ 31]) = .error e c2) ∧
    ((resetState "req" 2 1 [0, 1] (freshContext 2 1 [0, 0] [0, 0] : Context ℕ ℕ) =
        .ok () ((freshContext 2 1 [0, 0] [0, 0]).reset "req" 2 1 [0, 1])) ∧
      read [0, 2] (0 / 1) = read [0, 1] (0 / 1) ∧
      ∃ calls c2, runDecode [.resolve ⟨[0, 1], [10, 11, 12], [20, 21, 22]⟩ [1],
          .resolve ⟨[0, 2], [10, 11, 12], [20, 21, 22]⟩ [1]]
          ((freshContext 2 1 [0, 0] [0, 0] : Context ℕ ℕ).reset "req" 2 1 [0, 1]) =
            .ok calls c2 ∧
        calls.map Call.slots = [[1], [1]] ∧
        ¬ Gathered c2 ⟨[0, 2], [10, 11, 12], [20, 21, 22]⟩ 1 1) := by
  -- both runs are evaluated
  refine ⟨⟨rfl, ⟨by decide, ?_, by decide, trivial⟩, resolve_wrapped_row _⟩, rfl, rfl,
    _, _, rfl, rfl, ?_⟩
  -- the paged cache is long enough to have the row
  · intro t ht
    have ht0 : t = 0 := by omega
    subst ht0
    refine ⟨by decide, 2 ^ 31, by decide, ?_, ?_⟩
    · rw [List.getElem?_replicate, if_pos (by omega)]
    · rw [List.getElem?_replicate, if_pos (by omega)]
  -- the slot holds row 1, where the later table names row 2
  · rintro ⟨row, slot, hrow, hslot, _, _, h0, _⟩
    have hr : row = 2 := by
      have h2 : sourceRow [0, 2] 1 1 = 2 := by decide
      have h3 : (row : ℤ) = sourceRow [0, 2] 1 1 := hrow.symm
      omega
    have hs : slot = 1 := by omega
    rw [hr, hs] at h0
    exact absurd h0 (by decide)

end AsuAscend.Decode
