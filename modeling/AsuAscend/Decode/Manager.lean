/-
The contexts of all layers: `ASUFullKVCacheManagerFunctional`, and the decode path
of `sfa_v1.py` that keeps them in step with the request
(`patch/0003-9321d234-feat-wire-asu-kv-manager-into-decode-sfa.patch`).

The first layer that takes the path in a step resets or marks the contexts of all
layers; the later layers find nothing left to do. A method of a context can raise in
the middle of such a loop, and the contexts before it then stay as they are.

## Which exception comes when

A layer is looked up before its metadata are read, and the length of the sequence is read before
anything is compared with the context: a step without `seq_lens_cpu` changes nothing. A loop over
the contexts is `eachContext`, which stops at the first one that raises, with the contexts before
it changed and the ones behind it not. The layers are those of `kv_caches` in their order, and
every context has the sizes that the manager was made with.
-/
import AsuAscend.Decode.Resolver

set_option autoImplicit false

open SentinelTable StateExcept

namespace AsuAscend.Decode

variable {α β : Type}

structure Manager (α β : Type) where
  enabled : Bool
  max_seq_len : ℕ
  block_size : ℕ
  contexts : List (String × Context α β)

abbrev ManagerMethod (α β : Type) := EStateM PyError (Manager α β)

/-! ## `from_kv_caches` -/

/-- What is left of an optional integer in an `or`: zero counts as absent. -/
def truthy (a : Option ℤ) : Option ℤ := if a = some 0 then none else a

/-- `managed_slot_count or get_configured_managed_slot_count() or max_seq_len` -/
def slotCount (managed_slot_count : Option ℤ) (configured : Except PyError (Option ℤ))
    (max_seq_len : ℤ) : Except PyError ℤ :=
  match truthy managed_slot_count with
  | some slot_count => .ok slot_count
  | none => do
      let configured ← configured
      return (truthy configured).getD max_seq_len

/-- `kv_caches` lists the layers that have a pair of paged caches; `torch.empty`
leaves the managed rows with whatever `empty_0` and `empty_1` say, and `configured` is
what the environment variable holds. -/
def fromKvCaches (enabled : Bool) (kv_caches : List String) (empty_0 : String → ℕ → α)
    (empty_1 : String → ℕ → β) (max_seq_len block_size : ℤ) (managed_slot_count : Option ℤ)
    (configured : Except PyError (Option ℤ)) : Except PyError (Manager α β) :=
  if enabled = false then .ok ⟨false, max_seq_len.toNat, block_size.toNat, []⟩
  else if max_seq_len ≤ 0 then .error (.ValueError "max_seq_len must be positive")
  else if block_size ≤ 0 then .error (.ValueError "block_size must be positive")
  else do
    let slot_count ← slotCount managed_slot_count configured max_seq_len
    if slot_count ≤ 0 then .error (.ValueError "managed_slot_count must be positive")
    else
      return ⟨true, max_seq_len.toNat, block_size.toNat, kv_caches.map fun layer_name =>
        (layer_name, freshContext max_seq_len.toNat block_size.toNat
          ((List.range slot_count.toNat).map (empty_0 layer_name))
          ((List.range slot_count.toNat).map (empty_1 layer_name)))⟩

/-! ## Methods on every context -/

/-- `for context in self._contexts.values()`, up to the first raise. -/
def eachContext (f : Method α β Unit) :
    List (String × Context α β) → EStateM.Result PyError (List (String × Context α β)) Unit
  | [] => .ok () []
  | (layer_name, c) :: rest =>
      match f c with
      | .ok _ c' =>
          match eachContext f rest with
          | .ok _ rest' => .ok () ((layer_name, c') :: rest')
          | .error e rest' => .error e ((layer_name, c') :: rest')
      | .error e c' => .error e ((layer_name, c') :: rest)

def onContexts (f : Method α β Unit) : ManagerMethod α β Unit := fun m =>
  match eachContext f m.contexts with
  | .ok _ cs => .ok () { m with contexts := cs }
  | .error e cs => .error e { m with contexts := cs }

def resetSingleRequest (req_id : String) (actual_seq_len managed_prefix_len : ℤ)
    (original_block_table : List ℤ) : ManagerMethod α β Unit := do
  let m ← get
  if m.enabled = false then pure ()
  else onContexts (resetState req_id actual_seq_len managed_prefix_len original_block_table)

def Manager.markDecodeToken (token_id : ℤ) : ManagerMethod α β Unit := do
  let m ← get
  if m.enabled = false then pure ()
  else onContexts (Decode.markDecodeToken token_id)

def getLayerContext (layer_name : String) : ManagerMethod α β (Context α β) := do
  let m ← get
  match m.contexts.lookup layer_name with
  | some c => pure c
  | none => throw (.KeyError layer_name)

/-! ## The decode path -/

/-- What the path reads of a step's metadata; `block_table` is its first row. -/
structure DecodeMetadata where
  decode_only : Bool
  asu_num_reqs : ℤ
  num_actual_tokens : ℤ
  seq_lens_cpu : List ℤ
  asu_req_id : Option String
  block_table : List ℤ

def useAsuKvCache (enable_dsa_cp : Bool) (m : Manager α β) (layer_name : String)
    (attn_metadata : DecodeMetadata) : Bool :=
  m.enabled && (m.contexts.lookup layer_name).isSome && !enable_dsa_cp &&
    attn_metadata.decode_only && attn_metadata.asu_num_reqs == 1 &&
    attn_metadata.num_actual_tokens == 1

def getAsuActualSeqLen (attn_metadata : DecodeMetadata) : ManagerMethod α β ℤ :=
  match attn_metadata.seq_lens_cpu with
  | [] => throw (.RuntimeError "ASU decode requires seq_lens_cpu")
  | len :: _ => pure len

/-- `attn_metadata.asu_req_id or "__single_req__"` -/
def DecodeMetadata.reqId (attn_metadata : DecodeMetadata) : String :=
  match attn_metadata.asu_req_id with
  | none => "__single_req__"
  | some req_id => if req_id = "" then "__single_req__" else req_id

/-- The step starts the context afresh: another request, nothing in it, or a shorter
sequence. -/
def Restarts (c : Context α β) (req_id : String) (actual_seq_len : ℤ) : Prop :=
  c.req_id ≠ some req_id ∨ c.actual_seq_len = 0 ∨ actual_seq_len < c.actual_seq_len

instance (c : Context α β) (req_id : String) (actual_seq_len : ℤ) :
    Decidable (Restarts c req_id actual_seq_len) := inferInstanceAs (Decidable (_ ∨ _))

def prepareAsuLayerContext (layer_name : String) (attn_metadata : DecodeMetadata) :
    ManagerMethod α β (Context α β) := do
  let context ← getLayerContext layer_name
  let actual_seq_len ← getAsuActualSeqLen attn_metadata
  let req_id := attn_metadata.reqId
  if Restarts context req_id actual_seq_len then
    let managed_prefix_len := max 0 (actual_seq_len - attn_metadata.num_actual_tokens)
    resetSingleRequest req_id actual_seq_len managed_prefix_len attn_metadata.block_table
  else if actual_seq_len > context.actual_seq_len then
    Manager.markDecodeToken (actual_seq_len - 1)
  else pure ()
  -- the same object, by now updated
  getLayerContext layer_name

/-- The resolver call of one layer, on that layer's context. -/
def resolveLayer (layer_name : String) (src : Source α β) (topk : List ℤ) :
    ManagerMethod α β (List ℤ) := fun m =>
  match m.contexts.lookup layer_name with
  | none => .error (.KeyError layer_name) m
  | some c =>
      let put (c' : Context α β) : Manager α β := { m with
        contexts := m.contexts.map fun p => if p.1 = layer_name then (p.1, c') else p }
      match asuResolveKvSlotsSingleReq src topk c.actual_seq_len c.block_size c with
      | .ok slots c' => .ok slots (put c')
      | .error e c' => .error e (put c')

/-! ## Loops over the contexts -/

section

variable {f : Method α β Unit} {g : Context α β → Context α β}
  {cs : List (String × Context α β)}

/-- A method that returns on every context is applied to all of them, in order. -/
theorem eachContext_ok (h : ∀ p ∈ cs, f p.2 = .ok () (g p.2)) :
    eachContext f cs = .ok () (cs.map fun p => (p.1, g p.2)) := by
  induction cs with
  | nil => rfl
  | cons p cs ih =>
      have hp := h p List.mem_cons_self
      have ih := ih fun q hq => h q (List.mem_cons_of_mem _ hq)
      obtain ⟨layer_name, c⟩ := p
      rw [eachContext, hp]
      dsimp only
      rw [ih]
      rfl

/-- When every context would raise untouched, the loop raises at the first one. -/
theorem eachContext_error (hne : cs ≠ []) (h : ∀ p ∈ cs, ∃ e, f p.2 = .error e p.2) :
    ∃ e, eachContext f cs = .error e cs := by
  cases cs with
  | nil => exact absurd rfl hne
  | cons p cs =>
      obtain ⟨e, he⟩ := h p List.mem_cons_self
      obtain ⟨layer_name, c⟩ := p
      refine ⟨e, ?_⟩
      rw [eachContext, he]

variable {m : Manager α β}

/-- The same on the contexts of a manager. -/
theorem onContexts_ok (h : ∀ p ∈ m.contexts, f p.2 = .ok () (g p.2)) :
    onContexts f m = .ok () { m with contexts := m.contexts.map fun p => (p.1, g p.2) } := by
  unfold onContexts
  rw [eachContext_ok h]

/-- Where it raises on every context and leaves them alone, the first one stops the loop and the
manager is as before. -/
theorem onContexts_error (hne : m.contexts ≠ [])
    (h : ∀ p ∈ m.contexts, ∃ e, f p.2 = .error e p.2) : ∃ e, onContexts f m = .error e m := by
  obtain ⟨e, he⟩ := eachContext_error hne h
  refine ⟨e, ?_⟩
  unfold onContexts
  rw [he]

/-- The context of a layer is among those of the manager. -/
theorem mem_of_lookup {layer_name : String} {c : Context α β}
    (h : m.contexts.lookup layer_name = some c) : (layer_name, c) ∈ m.contexts := by
  obtain ⟨before, rest, heq, _⟩ := List.lookup_eq_some_iff.mp h
  rw [heq]
  exact List.mem_append_right _ List.mem_cons_self

end

end AsuAscend.Decode
