/-
The decode path on the NPU resolver.

The resolver that `_execute_asu_sparse_flash_attention_process` calls is the NPU operator. The
rows of a layer's managed caches keep their shape along a run, whether they are still those of
`torch.empty` or have been copied from a paged cache, so that every call of the run meets what
the kernel relies on: from the memory of the layer's context before the call it makes that of
the context after it, with the slots in its output (`serve_on_kernel`).

## Which memory

An entry of the run carries the context of its layer before and after the call, and the memory of
the kernel is made of these. Nothing is assumed about what the output tensor held. That the paged
caches have rows is what the tiling needs (`kernel_agrees_iff`), whatever the tokens are.
-/
import AsuAscend.Decode.KernelRefines
import AsuAscend.Decode.Serve

set_option autoImplicit false

open SentinelTable StateExcept

namespace AsuAscend.Decode.Kernel

variable {T : Type}

/-! ## Shapes along a run -/

section

variable {dims0 dims1 : String → List ℕ}

/-- The managed caches of a layer's context, and the numbers that an `int32_t` holds. -/
structure TensorContext (dims0 dims1 : String → List ℕ) (p : String × Context (List T) (List T)) :
    Prop where
  managed_0 : IsTensor p.2.managed_kv_cache_0 (dims0 p.1)
  managed_1 : IsTensor p.2.managed_kv_cache_1 (dims1 p.1)
  block_size_lt : p.2.block_size < 2 ^ 31
  count_lt : p.2.managed_slot_count < 2 ^ 31
  count_le : p.2.free_slot_count ≤ p.2.managed_slot_count

/-- The paged caches and the token ids of a call. -/
structure TensorCall (dims0 dims1 : String → List ℕ) (call : LayerCall (List T) (List T)) : Prop where
  original_0 : IsTensor (flattenPaCache call.kv_cache_0) (dims0 call.layer_name)
  original_1 : IsTensor (flattenPaCache call.kv_cache_1) (dims1 call.layer_name)
  rows_0 : flattenPaCache call.kv_cache_0 ≠ []
  rows_1 : flattenPaCache call.kv_cache_1 ≠ []
  rows_le : (flattenPaCache call.kv_cache_0).length ≤ 2 ^ 31
  topk_lt : ∀ t ∈ call.topk_indices, t < 2 ^ 31

variable {call : LayerCall (List T) (List T)} {c c' : Context (List T) (List T)}

/-- The tensors of a call and those of its context have the shapes that the kernel is told. -/
theorem TensorCall.tensors (hcall : TensorCall dims0 dims1 call)
    (hc : TensorContext dims0 dims1 (call.layer_name, c)) :
    Tensors call.source (dims0 call.layer_name) (dims1 call.layer_name) c :=
  ⟨hcall.original_0, hcall.original_1, hc.managed_0, hc.managed_1⟩

/-- A call of the resolver keeps those shapes. -/
theorem TensorCall.resolved (hcall : TensorCall dims0 dims1 call) {n : ℤ} {block_size : ℕ}
    {topk slots : List ℤ} (hc : TensorContext dims0 dims1 (call.layer_name, c))
    (hrun : topk.mapM (resolveToken call.source n block_size) c = .ok slots c') :
    TensorContext dims0 dims1 (call.layer_name, c') := by
  induction topk generalizing c slots with
  | nil =>
      cases hrun
      exact hc
  | cons z topk ih =>
      obtain ⟨s, c1, slots, hturn, hrest, rfl⟩ := mapM_cons_eq_ok hrun
      refine ih ?_ hrest
      obtain ⟨t, rfl, ⟨_, _, _, _, rfl⟩ | ⟨row, slot, rfl, rfl, _, _⟩⟩ := resolveToken_eq_ok hturn
      · exact hc
      · have htensors : Tensors call.source (dims0 call.layer_name) (dims1 call.layer_name)
            (c.installed call.source t row slot) := (hcall.tensors hc).installed
        refine ⟨htensors.managed_0, htensors.managed_1, hc.block_size_lt, hc.count_lt, ?_⟩
        have hle := hc.count_le
        show c.free_slot_count - 1 ≤ (c.managed_slot_count : ℤ)
        dsimp only at hle
        omega

/-- So they last for a whole run of calls. -/
theorem lasting_tensors {calls : List (LayerCall (List T) (List T))}
    (hcalls : ∀ call ∈ calls, TensorCall dims0 dims1 call) :
    Lasting (TensorContext dims0 dims1) calls where
  reset := fun _ _ _ _ _ hc =>
    ⟨hc.managed_0, hc.managed_1, hc.block_size_lt, hc.count_lt, le_rfl⟩
  marked := fun _ _ hc => ⟨hc.managed_0, hc.managed_1, hc.block_size_lt, hc.count_lt, hc.count_le⟩
  resolved := by
    intro call hcall c n block_size slots c' hc hrun
    unfold asuResolveKvSlotsSingleReq at hrun
    split_ifs at hrun
    · cases hrun
    · cases hrun
    · exact (hcalls call hcall).resolved hc hrun

/-- The operator, on a call whose caches have rows. -/
theorem TensorCall.operator (hcall : TensorCall dims0 dims1 call)
    (hc : TensorContext dims0 dims1 (call.layer_name, c)) {n : ℤ} {slots resolved : List ℤ}
    {topkShape : List ℕ} (hshape : topkShape.prod = call.topk_indices.length)
    (hnumel : call.topk_indices.length < 2 ^ 63) (hresolved : resolved.length = call.topk_indices.length)
    (hok : asuResolveKvSlotsSingleReq call.source call.topk_indices n c.block_size c = .ok slots c') :
    asuKvResolver topkShape ((flattenPaCache call.kv_cache_0).length :: dims0 call.layer_name)
        ((flattenPaCache call.kv_cache_1).length :: dims1 call.layer_name) n c.block_size
        (memoryOf call.source call.topk_indices resolved c) =
      some (memoryOf call.source call.topk_indices slots c') := by
  have hlen : ∀ {rows : List (List T)}, rows ≠ [] → rows.length ≠ 0 := fun h hzero =>
    h (List.eq_nil_of_length_eq_zero hzero)
  -- what the tiling reads off the shapes
  have hkv0 := slotElements_eq hcall.original_0.numel_lt (Or.inr (hlen hcall.rows_0))
  have hkv1 := slotElements_eq hcall.original_1.numel_lt (Or.inr (hlen hcall.rows_1))
  have htopk : shapeNumel topkShape = (call.topk_indices.length : ℕ) := by
    rw [shapeNumel_eq (by rw [hshape]; exact hnumel), hshape]
  have hle := hc.count_le
  have hlt := hc.count_lt
  dsimp only at hle hlt
  have hsmall : SmallValues call.source call.topk_indices c.block_size c :=
    ⟨hcall.topk_lt, hc.block_size_lt, hcall.rows_le, by omega⟩
  unfold asuResolveKvSlotsSingleReq at hok
  split_ifs at hok with hneg hzero
  · cases hok
  · cases hok
  have htiled : Tiled ⟨call.topk_indices.length, n, c.block_size, ((dims0 call.layer_name).prod : ℕ),
      ((dims1 call.layer_name).prod : ℕ)⟩ c.block_size (dims0 call.layer_name)
      (dims1 call.layer_name) := ⟨rfl, rfl, rfl⟩
  -- the kernel's loop, from the first position with nothing resolved
  have hprocess := foldlM_processIndex htiled (by omega) [] [] resolved
    (List.nil_append call.topk_indices).symm rfl hresolved (hcall.tensors hc) hsmall hok
  unfold asuKvResolver
  rw [tilingFunc_eq_some hkv0 hkv1, htopk]
  show process _ _ = _
  unfold process
  rw [Int.toNat_natCast, List.range_eq_range']
  exact hprocess

end

/-- A call whose resolver has run on the NPU: whatever the output held before. -/
def OnKernel (dims0 dims1 : String → List ℕ) (a : Attended (List T) (List T)) : Prop :=
  ∀ (topkShape : List ℕ) (resolved : List ℤ), topkShape.prod = a.call.topk_indices.length →
    a.call.topk_indices.length < 2 ^ 63 → resolved.length = a.call.topk_indices.length →
    asuKvResolver topkShape ((flattenPaCache a.call.kv_cache_0).length :: dims0 a.call.layer_name)
        ((flattenPaCache a.call.kv_cache_1).length :: dims1 a.call.layer_name)
        a.before.actual_seq_len a.before.block_size
        (memoryOf a.call.source a.call.topk_indices resolved a.before) =
      some (memoryOf a.call.source a.call.topk_indices a.resolved_kv_slots a.after)

/-- **The decode path on the NPU.** Along every run of `serve_reads_paged` on tensors, the kernel
computes every resolver call: from the memory of the layer's context before the call, with anything
in the output, it makes that of the context after the call, with the slots in the output; and these
hold the rows that the plain path reads. -/
theorem serve_on_kernel (dims0 dims1 : String → List ℕ) (enabled : Bool) (kv_caches : List String)
    (empty_0 empty_1 : String → ℕ → List T) (max_seq_len block_size : ℤ)
    (managed_slot_count : Option ℤ) (configured : Except PyError (Option ℤ)) (slot_count : ℤ)
    (m0 : Manager (List T) (List T))
    (hnew : fromKvCaches enabled kv_caches empty_0 empty_1 max_seq_len block_size managed_slot_count
      configured = .ok m0)
    (hcount : slotCount managed_slot_count configured max_seq_len = .ok slot_count)
    (hslots : max_seq_len ≤ slot_count) (hempty_0 : ∀ l i, (empty_0 l i).length = (dims0 l).prod)
    (hempty_1 : ∀ l i, (empty_1 l i).length = (dims1 l).prod)
    (hnumel_0 : ∀ l, slot_count.toNat * (dims0 l).prod < 2 ^ 63)
    (hnumel_1 : ∀ l, slot_count.toNat * (dims1 l).prod < 2 ^ 63) (hblock : block_size < 2 ^ 31)
    (hsmall : slot_count < 2 ^ 31) (calls : List (LayerCall (List T) (List T)))
    (hcalls : Follows m0 none calls) (htensors : ∀ call ∈ calls, TensorCall dims0 dims1 call) :
    ∃ as m, serve calls m0 = .ok as m ∧
      as.map Attended.call = calls.filter (LayerCall.takesPath m0) ∧
      ∀ a ∈ as, ReadsPaged m0.block_size a ∧ OnKernel dims0 dims1 a := by
  -- every run keeps the rows' shape, so it is enough that the new contexts have it
  have hnewTensors : ∀ p ∈ m0.contexts, TensorContext dims0 dims1 p := by
    intro p hp
    have htensor : ∀ (empty : ℕ → List T) (dims : List ℕ), (∀ i, (empty i).length = dims.prod) →
        slot_count.toNat * dims.prod < 2 ^ 63 →
        IsTensor ((List.range slot_count.toNat).map empty) dims := by
      intro empty dims hlen hnumel
      refine ⟨fun row hrow => ?_, by rw [List.length_map, List.length_range]; exact hnumel⟩
      obtain ⟨i, _, rfl⟩ := List.mem_map.mp hrow
      exact hlen i
    obtain ⟨l, _, rfl⟩ := mem_contexts hnew hcount hp
    refine ⟨htensor _ _ (hempty_0 l) (hnumel_0 l), htensor _ _ (hempty_1 l) (hnumel_1 l), ?_, ?_,
      le_rfl⟩
    · show block_size.toNat < 2 ^ 31
      omega
    · show ((List.range slot_count.toNat).map (empty_0 l)).length < 2 ^ 31
      rw [List.length_map, List.length_range]
      omega
  obtain ⟨as, m, hserve, hmap, hall⟩ := serve_spec (lasting_tensors htensors)
    (fromKvCaches_inService hnew hcount hslots hnewTensors) hcalls
  refine ⟨as, m, hserve, hmap, fun a ha => ?_⟩
  obtain ⟨hreads, hbefore⟩ := hall a ha
  have hcall : a.call ∈ calls := by
    have hmem : a.call ∈ as.map Attended.call := List.mem_map_of_mem ha
    rw [hmap] at hmem
    exact List.mem_of_mem_filter hmem
  exact ⟨hreads, fun topkShape resolved hshape hnumel hlen =>
    (htensors _ hcall).operator hbefore hshape hnumel hlen hreads.resolved⟩

/-! ## Two requests, again -/

/-- Rows of two elements in one cache and of one in the other. -/
def tensorCall (layer_name : String) (attn_metadata : DecodeMetadata) (topk : List ℤ) :
    LayerCall (List ℤ) (List ℤ) where
  enable_dsa_cp := false
  layer_name := layer_name
  attn_metadata := attn_metadata
  kv_cache_0 := [[[102, 0], [103, 0]], [[100, 0], [101, 0]]]
  kv_cache_1 := [[[202], [203]], [[200], [201]]]
  topk_indices := topk

def twoTensorRequests : List (LayerCall (List ℤ) (List ℤ)) :=
  [tensorCall "layers.0" (singleStep "a" 3 [1, 0]) [2, 0, 2],
    tensorCall "layers.1" (singleStep "a" 4 [1, 0]) [3],
    tensorCall "layers.0" (singleStep "b" 2 [0]) [1, 0]]

def tensorSequenceA (len : ℕ) : Sequence (List ℤ) (List ℤ) :=
  ⟨"a", len, [1, 0], 2, fun _ t => [100 + t, 0], fun _ t => [200 + t]⟩

def tensorSequenceB : Sequence (List ℤ) (List ℤ) :=
  ⟨"b", 2, [0], 1, fun _ t => [102 + t, 0], fun _ t => [202 + t]⟩

/-- Two new contexts of four slots. -/
def fourTensorSlots : Manager (List ℤ) (List ℤ) where
  enabled := true
  max_seq_len := 4
  block_size := 2
  contexts := ["layers.0", "layers.1"].map fun layer_name =>
    (layer_name, freshContext 4 2 (List.replicate 4 [0, 0]) (List.replicate 4 [0]))

/-- The calls of the example, with rows for values. -/
theorem twoTensorRequests_follows : Follows fourTensorSlots none twoTensorRequests := by
  refine ⟨tensorSequenceA 3, .afresh (fun q0 hq0 => by cases hq0) rfl rfl rfl,
    ⟨rfl, by decide, by decide, by decide, by decide, by decide, by decide, by decide⟩, ?_⟩
  refine ⟨tensorSequenceA 4, .goesOn (q := tensorSequenceA 3) rfl rfl (by decide) (Or.inr rfl),
    ⟨rfl, by decide, by decide, by decide, by decide, by decide, by decide, by decide⟩, ?_⟩
  refine ⟨tensorSequenceB, .afresh (fun q0 hq0 => ?_) rfl rfl rfl,
    ⟨rfl, by decide, by decide, by decide, by decide, by decide, by decide, by decide⟩, trivial⟩
  cases hq0
  exact Or.inl (by decide)

/-- The two requests again, now with the kernel beside the resolver. -/
theorem serve_on_kernel_two :
    ∃ as m, serve twoTensorRequests fourTensorSlots = .ok as m ∧
      as.map Attended.call = twoTensorRequests.filter (LayerCall.takesPath fourTensorSlots) ∧
      ∀ a ∈ as, ReadsPaged 2 a ∧ OnKernel (fun _ => [2]) (fun _ => [1]) a := by
  refine serve_on_kernel (fun _ => [2]) (fun _ => [1]) true ["layers.0", "layers.1"]
    (fun _ _ => [0, 0]) (fun _ _ => [0]) 4 2 none (.ok none) 4 fourTensorSlots rfl rfl (by decide)
    (fun _ _ => rfl) (fun _ _ => rfl) (fun _ => by decide) (fun _ => by decide) (by decide) (by decide)
    twoTensorRequests twoTensorRequests_follows fun call hcall => ?_
  unfold twoTensorRequests at hcall
  simp only [List.mem_cons, List.not_mem_nil, or_false] at hcall
  rcases hcall with rfl | rfl | rfl
  all_goals
    exact ⟨⟨by decide, by decide⟩, ⟨by decide, by decide⟩, by decide, by decide, by decide, by decide⟩

end AsuAscend.Decode.Kernel
