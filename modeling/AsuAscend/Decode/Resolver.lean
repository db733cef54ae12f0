/-
`asu_resolve_kv_slots_single_req`
(`patch/0001-5a5da8d7-feat-add-asu-kv-resolver-custom-op.patch`, the Python
resolver): each queried token is looked up in the managed cache, and installed
there first if it is not resident.

The resolver works on the tensors of one context. Its indices are never negative,
so reading past the end is the only way an access can raise.

## A turn, and the loop

`resolveToken` is one turn of the loop, over the entry of `topk_indices` at hand; the loop appends
the slot of each to its output and stops at the first exception, with the entries before it
installed. `resolveToken_eq_ok` and `install_eq_ok` say what a turn and an install that return have
done: the tokens they have found, the row they have copied and the slot they have handed out. What
a turn does when it raises is the subject of `Turns`.
-/
import AsuAscend.Decode.Context

set_option autoImplicit false

open SentinelTable StateExcept

namespace AsuAscend.Decode

variable {α β : Type}

/-- What a call is given of the paged cache. -/
structure Source (α β : Type) where
  original_block_table : List ℤ
  original_kv_cache_0 : List α
  original_kv_cache_1 : List β

/-! ## Tensor accesses -/

def checkIndex (tensor : List ℤ) (index : ℕ) : Method α β Unit :=
  if index < tensor.length then pure ()
  else throw (.IndexError
    s!"index {index} is out of bounds for dimension 0 with size {tensor.length}")

/-- `_tensor_value` -/
def tensorValue (tensor : List ℤ) (index : ℕ) : Method α β ℤ := do
  checkIndex tensor index
  return read tensor index

/-- `dst[i].copy_(src[j])` -/
def copyRow {γ : Type} (dst : List γ) (i : ℕ) (src : List γ) (j : ℕ) : List γ :=
  match src[j]? with
  | some row => dst.set i row
  | none => dst

/-! ## The resolver -/

def popFreeSlot : Method α β ℤ := do
  let c ← get
  let count := c.free_slot_count
  if count ≤ 0 then
    throw (.RuntimeError "free_slot_stack does not have enough slots")
  else do
    let next_count := count - 1
    let slot ← tensorValue c.free_slot_stack next_count.toNat
    modify fun c => { c with free_slot_count := next_count }
    return slot

def resolveTailSourceSlot (src : Source α β) (token_id block_size : ℕ) : Method α β ℤ := do
  let logical_block := token_id / block_size
  let offset := token_id % block_size
  if logical_block ≥ src.original_block_table.length then
    throw (.IndexError s!"original_block_table does not cover token_id {token_id}")
  else do
    let physical_block ← tensorValue src.original_block_table logical_block
    return physical_block * block_size + offset

def copyFullKvPair (src : Source α β) (source_slot managed_slot : ℤ) : Method α β Unit := do
  let c ← get
  if source_slot < 0 ∨ source_slot ≥ src.original_kv_cache_0.length then
    throw (.IndexError s!"source_slot {source_slot} is out of range")
  else if source_slot ≥ src.original_kv_cache_1.length then
    throw (.IndexError s!"source_slot {source_slot} is out of range")
  else if managed_slot < 0 ∨ managed_slot ≥ c.managed_kv_cache_0.length then
    throw (.IndexError s!"managed_slot {managed_slot} is out of range")
  else if managed_slot ≥ c.managed_kv_cache_1.length then
    throw (.IndexError s!"managed_slot {managed_slot} is out of range")
  else
    modify fun c => { c with
      managed_kv_cache_0 := copyRow c.managed_kv_cache_0 managed_slot.toNat
        src.original_kv_cache_0 source_slot.toNat
      managed_kv_cache_1 := copyRow c.managed_kv_cache_1 managed_slot.toNat
        src.original_kv_cache_1 source_slot.toNat }

def installTokenToManagedCache (src : Source α β) (token_id : ℕ) (source_slot : ℤ) :
    Method α β ℤ := do
  let slot ← popFreeSlot
  copyFullKvPair src source_slot slot
  let c ← get
  checkIndex c.token_state token_id
  modify fun c => { c with token_state := c.token_state.set token_id HBM_RESIDENT }
  checkIndex c.hbm_slot_of_token token_id
  modify fun c => { c with hbm_slot_of_token := c.hbm_slot_of_token.set token_id slot }
  checkIndex c.slot_owner_token slot.toNat
  modify fun c => { c with slot_owner_token := c.slot_owner_token.set slot.toNat token_id }
  return slot

/-- One turn of the loop over the queried tokens. -/
def resolveToken (src : Source α β) (actual_seq_len : ℤ) (block_size : ℕ) (token_id : ℤ) :
    Method α β ℤ := do
  if token_id < 0 ∨ token_id ≥ actual_seq_len then
    throw (.IndexError s!"token_id {token_id} is out of range")
  else do
    let c ← get
    let state ← tensorValue c.token_state token_id.toNat
    if state = HBM_RESIDENT then
      tensorValue c.hbm_slot_of_token token_id.toNat
    else if state = ASU_ONLY then do
      let source_slot ← tensorValue c.asu_record_addr token_id.toNat
      installTokenToManagedCache src token_id.toNat source_slot
    else if state = TAIL_HBM then do
      let source_slot ← resolveTailSourceSlot src token_id.toNat block_size
      installTokenToManagedCache src token_id.toNat source_slot
    else
      throw (.ValueError s!"unsupported token_state {state} for token_id {token_id}")

def asuResolveKvSlotsSingleReq (src : Source α β) (original_topk_indices : List ℤ)
    (actual_seq_len : ℤ) (block_size : ℕ) : Method α β (List ℤ) :=
  if actual_seq_len < 0 then throw (.ValueError "actual_seq_len must be non-negative")
  else if block_size = 0 then throw (.ValueError "block_size must be positive")
  else original_topk_indices.mapM (resolveToken src actual_seq_len block_size)

/-! ## One token -/

section

variable {c : Context α β} {src : Source α β} {t : ℕ}

theorem checkIndex_ok {tensor : List ℤ} {i : ℕ} (h : i < tensor.length) :
    checkIndex tensor i c = .ok () c := by
  unfold checkIndex; rw [if_pos h]; rfl

theorem tensorValue_ok {tensor : List ℤ} {i : ℕ} (h : i < tensor.length) :
    tensorValue tensor i c = .ok (read tensor i) c := by
  unfold tensorValue; rw [bind_ok (checkIndex_ok h)]; rfl

theorem copyRow_length {γ : Type} (dst : List γ) (i : ℕ) (rows : List γ) (j : ℕ) :
    (copyRow dst i rows j).length = dst.length := by
  unfold copyRow; split <;> simp

/-- The cache after a copy, row by row. -/
theorem copyRow_get {γ : Type} {dst : List γ} {i : ℕ} (hi : i < dst.length) {rows : List γ} {j : ℕ}
    {row : γ} (hj : rows[j]? = some row) (k : ℕ) :
    (copyRow dst i rows j)[k]? = if k = i then some row else dst[k]? := by
  unfold copyRow
  rw [hj]
  dsimp only
  rw [List.getElem?_set]
  by_cases hk : i = k
  · subst hk; simp [hi]
  · rw [if_neg hk, if_neg (fun h => hk h.symm)]

/-- The context after token `t` has been given `slot`, with the data of row `row`. -/
def Context.installed (c : Context α β) (src : Source α β) (t row slot : ℕ) : Context α β :=
  { c with
    managed_kv_cache_0 := copyRow c.managed_kv_cache_0 slot src.original_kv_cache_0 row
    managed_kv_cache_1 := copyRow c.managed_kv_cache_1 slot src.original_kv_cache_1 row
    token_state := c.token_state.set t HBM_RESIDENT
    hbm_slot_of_token := c.hbm_slot_of_token.set t slot
    slot_owner_token := c.slot_owner_token.set slot t
    free_slot_count := c.free_slot_count - 1 }

/-- With a slot free the pop hands out the one on top, and lowers the counter alone. -/
theorem popFreeSlot_ok (hpos : 0 < c.free_slot_count)
    (hlen : c.free_slot_count ≤ c.free_slot_stack.length) :
    popFreeSlot c = .ok (read c.free_slot_stack (c.free_slot_count - 1).toNat)
      { c with free_slot_count := c.free_slot_count - 1 } := by
  unfold popFreeSlot
  rw [get_bind, if_neg (by omega), bind_ok (tensorValue_ok (by omega))]
  rfl

/-- A token whose block is listed has its row. -/
theorem resolveTailSourceSlot_ok {block_size : ℕ}
    (h : t / block_size < src.original_block_table.length) :
    resolveTailSourceSlot src t block_size c =
      .ok (sourceRow src.original_block_table block_size t) c := by
  unfold resolveTailSourceSlot
  rw [if_neg (by omega), bind_ok (tensorValue_ok h)]
  rfl

/-- The checks of `_copy_full_kv_pair`. -/
structure Copies (c : Context α β) (src : Source α β) (source_slot managed_slot : ℤ) : Prop where
  source_nonneg : 0 ≤ source_slot
  source_lt_0 : source_slot < src.original_kv_cache_0.length
  source_lt_1 : source_slot < src.original_kv_cache_1.length
  slot_nonneg : 0 ≤ managed_slot
  slot_lt_0 : managed_slot < c.managed_kv_cache_0.length
  slot_lt_1 : managed_slot < c.managed_kv_cache_1.length

/-- With all six bounds met the copy goes through, in both caches. -/
theorem copyFullKvPair_ok {source_slot managed_slot : ℤ} (h : Copies c src source_slot managed_slot) :
    copyFullKvPair src source_slot managed_slot c = .ok () { c with
      managed_kv_cache_0 := copyRow c.managed_kv_cache_0 managed_slot.toNat
        src.original_kv_cache_0 source_slot.toNat
      managed_kv_cache_1 := copyRow c.managed_kv_cache_1 managed_slot.toNat
        src.original_kv_cache_1 source_slot.toNat } := by
  obtain ⟨h1, h2, h3, h4, h5, h6⟩ := h
  unfold copyFullKvPair
  rw [get_bind, if_neg (by omega), if_neg (by omega), if_neg (by omega), if_neg (by omega)]
  rfl

/-- With one of them not met it raises, before either cache is written. -/
theorem copyFullKvPair_error {source_slot managed_slot : ℤ}
    (h : ¬ Copies c src source_slot managed_slot) :
    ∃ e, copyFullKvPair src source_slot managed_slot c = .error e c := by
  unfold copyFullKvPair
  rw [get_bind]
  split_ifs with h1 h2 h3 h4
  · exact ⟨_, rfl⟩
  · exact ⟨_, rfl⟩
  · exact ⟨_, rfl⟩
  · exact ⟨_, rfl⟩
  · exact absurd ⟨by omega, by omega, by omega, by omega, by omega, by omega⟩ h

/-- Installing a token whose source row exists, with a slot to spare. -/
theorem install_ok (hc : Tabled c) (ht : t < c.max_seq_len) (hpos : 0 < c.free_slot_count)
    (hlen : c.free_slot_count ≤ c.managed_slot_count) {row slot : ℕ}
    (hslot : read c.free_slot_stack (c.free_slot_count - 1).toNat = slot)
    (hslotlt : slot < c.managed_slot_count) (hcopies : Copies c src row slot) :
    installTokenToManagedCache src t row c = .ok (slot : ℤ) (c.installed src t row slot) := by
  have hcopies' : Copies { c with free_slot_count := c.free_slot_count - 1 } src row slot :=
    ⟨hcopies.1, hcopies.2, hcopies.3, hcopies.4, hcopies.5, hcopies.6⟩
  unfold installTokenToManagedCache
  rw [bind_ok (popFreeSlot_ok hpos (by rw [hc.stack_length]; exact hlen)), hslot,
    bind_ok (copyFullKvPair_ok hcopies'), get_bind,
    bind_ok (checkIndex_ok (by rw [hc.state_length]; exact ht)), modify_bind,
    bind_ok (checkIndex_ok (by rw [hc.slot_length]; exact ht)), modify_bind,
    bind_ok (checkIndex_ok (by rw [hc.owner_length, Int.toNat_natCast]; exact hslotlt)), modify_bind]
  rfl

/-! ## Calls that return -/

/-- A read that returns was in range, and changed nothing. -/
theorem tensorValue_eq_ok {tensor : List ℤ} {i : ℕ} {c' : Context α β} {v : ℤ}
    (h : tensorValue tensor i c = .ok v c') : i < tensor.length ∧ v = read tensor i ∧ c' = c := by
  by_cases hi : i < tensor.length
  · rw [tensorValue_ok hi] at h
    cases h
    exact ⟨hi, rfl, rfl⟩
  · unfold tensorValue checkIndex at h
    rw [if_neg hi] at h
    cases h

theorem checkIndex_eq_ok {tensor : List ℤ} {i : ℕ} {c' : Context α β}
    (h : checkIndex tensor i c = .ok () c') : i < tensor.length ∧ c' = c := by
  unfold checkIndex at h
  split_ifs at h with hi
  · cases h
    exact ⟨hi, rfl⟩
  · cases h

/-- An install that has been through all its checks, from `row` into `slot`. -/
structure Installs (c : Context α β) (src : Source α β) (t row slot : ℕ) : Prop where
  count_pos : 0 < c.free_slot_count
  in_stack : (c.free_slot_count - 1).toNat < c.free_slot_stack.length
  top : read c.free_slot_stack (c.free_slot_count - 1).toNat = slot
  copies : Copies c src row slot
  in_state : t < c.token_state.length
  in_slots : t < c.hbm_slot_of_token.length
  in_owners : slot < c.slot_owner_token.length

/-- A pop that returns had a slot to hand out. -/
theorem popFreeSlot_eq_ok {c' : Context α β} {s : ℤ} (h : popFreeSlot c = .ok s c') :
    0 < c.free_slot_count ∧ (c.free_slot_count - 1).toNat < c.free_slot_stack.length ∧
      s = read c.free_slot_stack (c.free_slot_count - 1).toNat ∧
      c' = { c with free_slot_count := c.free_slot_count - 1 } := by
  unfold popFreeSlot at h
  rw [get_bind] at h
  dsimp only at h
  split_ifs at h with hcount
  · cases h
  · obtain ⟨slot, c1, hslot, h⟩ := bind_eq_ok h
    obtain ⟨hlt, rfl, rfl⟩ := tensorValue_eq_ok hslot
    cases h
    exact ⟨by omega, hlt, rfl, rfl⟩

theorem copyFullKvPair_eq_ok {c' : Context α β} {source_slot managed_slot : ℤ}
    (h : copyFullKvPair src source_slot managed_slot c = .ok () c') :
    Copies c src source_slot managed_slot := by
  by_contra hno
  obtain ⟨e, he⟩ := copyFullKvPair_error hno
  rw [he] at h
  cases h

/-- **An install that returns** did all of its parts: pop, copy, and the three tables. -/
theorem install_eq_ok {c' : Context α β} {source_slot s : ℤ}
    (h : installTokenToManagedCache src t source_slot c = .ok s c') :
    ∃ row slot : ℕ, source_slot = row ∧ s = slot ∧ Installs c src t row slot ∧
      c' = c.installed src t row slot := by
  obtain ⟨slot, c1, hpop, h⟩ := bind_eq_ok h
  obtain ⟨hpos, hstack, htop, rfl⟩ := popFreeSlot_eq_ok hpop
  obtain ⟨⟨⟩, c2, hcopy, h⟩ := bind_eq_ok h
  have hcopies := copyFullKvPair_eq_ok hcopy
  rw [copyFullKvPair_ok hcopies] at hcopy
  cases hcopy
  rw [get_bind] at h
  -- the three tables, each with its check
  obtain ⟨⟨⟩, c3, hstate, h⟩ := bind_eq_ok h
  obtain ⟨in_state, rfl⟩ := checkIndex_eq_ok hstate
  rw [modify_bind] at h
  obtain ⟨⟨⟩, c4, hslots, h⟩ := bind_eq_ok h
  obtain ⟨in_slots, rfl⟩ := checkIndex_eq_ok hslots
  rw [modify_bind] at h
  obtain ⟨⟨⟩, c5, howners, h⟩ := bind_eq_ok h
  obtain ⟨in_owners, rfl⟩ := checkIndex_eq_ok howners
  rw [modify_bind] at h
  cases h
  obtain ⟨row, rfl⟩ := Int.eq_ofNat_of_zero_le hcopies.source_nonneg
  obtain ⟨slot, rfl⟩ := Int.eq_ofNat_of_zero_le hcopies.slot_nonneg
  exact ⟨row, slot, rfl, rfl, ⟨hpos, hstack, htop.symm,
    ⟨hcopies.1, hcopies.2, hcopies.3, hcopies.4, hcopies.5, hcopies.6⟩, in_state, in_slots, in_owners⟩,
    rfl⟩

/-- **A turn that returns** has found the token resident, or has installed it. -/
theorem resolveToken_eq_ok {n z s : ℤ} {block_size : ℕ} {c' : Context α β}
    (h : resolveToken src n block_size z c = .ok s c') :
    ∃ t : ℕ, z = t ∧
      ((read c.token_state t = HBM_RESIDENT ∧ t < c.token_state.length ∧
          t < c.hbm_slot_of_token.length ∧ s = read c.hbm_slot_of_token t ∧ c' = c) ∨
        ∃ row slot : ℕ, s = slot ∧ c' = c.installed src t row slot ∧ Installs c src t row slot ∧
          (read c.token_state t = ASU_ONLY ∧ t < c.asu_record_addr.length ∧
              read c.asu_record_addr t = row ∨
            read c.token_state t = TAIL_HBM ∧ t / block_size < src.original_block_table.length ∧
              sourceRow src.original_block_table block_size t = row)) := by
  unfold resolveToken at h
  -- in range, or the turn has raised
  split_ifs at h with hrange
  · cases h
  obtain ⟨t, rfl⟩ := Int.eq_ofNat_of_zero_le (show 0 ≤ z by omega)
  refine ⟨t, rfl, ?_⟩
  rw [get_bind, Int.toNat_natCast] at h
  obtain ⟨state, c1, hread, h⟩ := bind_eq_ok h
  obtain ⟨hlt, rfl, rfl⟩ := tensorValue_eq_ok hread
  -- resident, on record, in the tail; any other state raises
  split_ifs at h with hres hasu htail
  · obtain ⟨hslots, rfl, rfl⟩ := tensorValue_eq_ok h
    exact Or.inl ⟨hres, hlt, hslots, rfl, rfl⟩
  · obtain ⟨source_slot, c2, hread, h⟩ := bind_eq_ok h
    obtain ⟨haddr, rfl, rfl⟩ := tensorValue_eq_ok hread
    obtain ⟨row, slot, hrow, hs, hinstalls, hc'⟩ := install_eq_ok h
    exact Or.inr ⟨row, slot, hs, hc', hinstalls, Or.inl ⟨hasu, haddr, hrow⟩⟩
  · obtain ⟨source_slot, c2, hread, h⟩ := bind_eq_ok h
    by_cases hblock : t / block_size < src.original_block_table.length
    · rw [resolveTailSourceSlot_ok hblock] at hread
      cases hread
      obtain ⟨row, slot, hrow, hs, hinstalls, hc'⟩ := install_eq_ok h
      exact Or.inr ⟨row, slot, hs, hc', hinstalls, Or.inr ⟨htail, hblock, hrow⟩⟩
    -- without its block in the table the turn raises
    · unfold resolveTailSourceSlot at hread
      rw [if_pos (by omega)] at hread
      cases hread
  · cases h

end

end AsuAscend.Decode
