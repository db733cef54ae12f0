/-
The lookup of all requests: the kernel on its cores, and `expected_lookup_allocate`.

The two agree on every launch of at most `2 ^ 15` requests. From there on the base
`reqId * INDEX_SIZE` of an index row does not fit into 32 bits, and the kernel works
on the index row of another request (`lookup_agrees_iff`).

## The exact condition

`lookup_agrees_iff` is about the number of requests alone: up to `2 ^ 15` kernel and reference leave
the same tables, on every table in order and every query; from `2 ^ 15 + 1` on there is a table, and
it is one of new rows, on which they do not, since request `2 ^ 15` writes the index of request 0
and never its own. The slots, the free list and the queries of a request have shorter rows, whose
bases wrap later.
-/
import AsuAscend.HbmIndex.Allocate
import AsuAscend.HbmIndex.Launch

set_option autoImplicit false

open MachineWords SentinelTable StrideCores

namespace AsuAscend.HbmIndex

section

variable (d : Sizes)

/-- The body of the loop over the requests in `Process`. A core carries nothing from one
request to the next. -/
def lookupOp : RowOp Unit := fun _ _ query row => do
  let (out, row) ← processRow d query row
  return ((), out, row)

/-- The body of the loop over the requests in `expected_lookup_allocate`. -/
def expectedLookupOp : RowOp Unit := fun _ _ query row => do
  let (out, row) ← expectedLookupAllocate query row
  return ((), out, row)

/-- `asu_hbm_index_lookup` on `blockNum` cores, whose turns come in the order of the
schedule. -/
def lookupKernel (reqNum blockNum : ℕ) (schedule : List ℕ) (m : Tables) :
    Except Halt (Machine Tables Unit) :=
  run (serveRow d kernelBase (lookupOp d)) reqNum blockNum (start m fun _ => ()) schedule

def expectedLookup (reqNum : ℕ) (m : Tables) : Except Halt Tables := do
  let (_, m) ← (List.range reqNum).foldlM (serveRow d arrayBase expectedLookupOp) ((), m)
  return m

/-- Every request has a row that can be served. -/
def LookupState (reqNum : ℕ) (m : Tables) : Prop :=
  ∀ r < reqNum, Lookupable d (m.queryRow d arrayBase r) (m.row d arrayBase r)

/-- On every block count and every interleaving of the cores, the kernel goes through, and
what it leaves when the cores are finished is what `expected_lookup_allocate` computes. -/
def LookupAgrees (reqNum : ℕ) : Prop :=
  ∀ blockNum, 0 < blockNum → ∀ m, LookupState d reqNum m →
    ∀ schedule : List ℕ, (∀ c ∈ schedule, c < blockNum) →
      ∃ s, lookupKernel d reqNum blockNum schedule m = .ok s ∧
        (Finished reqNum blockNum s → expectedLookup d reqNum m = .ok s.shared) ∧
        ((∀ c < blockNum, reqNum ≤ schedule.count c) → Finished reqNum blockNum s)

end

section

variable {d : Sizes} {n : ℕ} {m : Tables}

/-- A lookup leaves a row of the lengths it found, and one slot for each query. -/
theorem Looked.fills {query : List ℤ} {row : Row} {c : List ℤ × Row} (hl : Lookupable d query row)
    (h : Looked d row query c) : Fills d c where
  index_length := h.index_length
  slot_length := h.slot_length
  free_length := by rw [h.freeSlots, hl.free_length]
  out_length := by rw [h.out_length, hl.query_length]

/-- Each row's outcome, in the kernel and in the reference. -/
theorem lookup_rows (hd : d.Fits) (hm : LookupState d n m) :
    ∃ res : ℕ → List ℤ × Row, RowsServed d (lookupOp d) (fun _ => True) m n res ∧
      RowsServed d expectedLookupOp (fun _ => True) m n res ∧
      ∀ r < n, Looked d (m.row d arrayBase r) (m.queryRow d arrayBase r) (res r) := by
  have hrow : ∀ r, ∃ c, r < n →
      processRow d (m.queryRow d arrayBase r) (m.row d arrayBase r) = .ok c ∧
      expectedLookupAllocate (m.queryRow d arrayBase r) (m.row d arrayBase r) = .ok c ∧
      Looked d (m.row d arrayBase r) (m.queryRow d arrayBase r) c := by
    intro r
    by_cases hr : r < n
    · obtain ⟨c, hc⟩ := processRow_eq hd (hm r hr)
      exact ⟨c, fun _ => hc⟩
    · exact ⟨([], m.row d arrayBase r), fun hlt => absurd hlt hr⟩
  choose res hres using hrow
  refine ⟨res, ⟨fun r hr => (hres r hr).2.2.fills (hm r hr), fun r hr mem _ => ⟨(), ?_, trivial⟩⟩,
    ⟨fun r hr => (hres r hr).2.2.fills (hm r hr), fun r hr mem _ => ⟨(), ?_, trivial⟩⟩,
    fun r hr => (hres r hr).2.2⟩
  · unfold lookupOp
    rw [(hres r hr).1]
    rfl
  · unfold expectedLookupOp
    rw [(hres r hr).2.1]
    rfl

/-- What the reference leaves, when every request returns. -/
theorem expectedLookup_eq {res : ℕ → List ℤ × Row}
    (h : RowsServed d expectedLookupOp (fun _ => True) m n res) :
    expectedLookup d n m = .ok (m.served d res (Finset.range n)) := by
  obtain ⟨mem, hrun, _⟩ := h.loop (fun r _ => exact_arrayBase d r) () trivial
  unfold expectedLookup
  rw [hrun]
  rfl

/-- The agreement, as long as no base wraps. -/
theorem lookup_agrees_of_le (hd : d.Fits) (hn : n * d.INDEX_SIZE ≤ 2 ^ 32)
    (hslot : d.SLOT_COUNT ≤ d.INDEX_SIZE) (hfree : d.FREE_SLOT_COUNT ≤ d.INDEX_SIZE)
    (hquery : d.QUERY_COUNT ≤ d.INDEX_SIZE) : LookupAgrees d n := by
  intro blockNum hblock m hm schedule hsched
  have hpos : 0 < d.INDEX_SIZE := Nat.lt_of_lt_of_le hd.slot_pos hslot
  obtain ⟨res, hker, hexp, _⟩ := lookup_rows hd hm
  have hserves := hker.serves fun r hr => exact_kernelBase hn hslot hfree hquery hpos hr
  obtain ⟨s, hrun, hdone, hfin⟩ := run_spec hserves hblock (fun _ _ => trivial)
    (Tables.served_empty d res m).symm hsched
  refine ⟨s, hrun, fun hfinished => ?_, hfin⟩
  rw [expectedLookup_eq hexp, hdone hfinished]

/-! ## Too many requests -/

/-- A query of the kernel stores into the index in place. -/
theorem fixQuery_length {query : List ℤ} {c c' : Fixup} {i : ℕ} (h : fixQuery query c i = .ok c') :
    c'.row.index.length = c.row.index.length := by
  unfold fixQuery at h
  obtain ⟨slot, _, h⟩ := Folds.ok_of_bind h
  split_ifs at h with hslot
  · obtain ⟨indexId, _, h⟩ := Folds.ok_of_bind h
    obtain ⟨live, _, h⟩ := Folds.ok_of_bind h
    split_ifs at h with hlive
    · obtain ⟨free, _, h⟩ := Folds.ok_of_bind h
      obtain ⟨index, hindex, h⟩ := Folds.ok_of_bind h
      obtain ⟨slotToIndex, _, h⟩ := Folds.ok_of_bind h
      obtain ⟨outTile, _, h⟩ := Folds.ok_of_bind h
      cases h
      exact setValue_length hindex
    · obtain ⟨outTile, _, h⟩ := Folds.ok_of_bind h
      cases h
      rfl
  · cases h
    rfl

theorem keepsLength_lookupOp : KeepsLength (lookupOp d) := by
  intro mem r query row mem' out row' h
  obtain ⟨c, hc, h⟩ := Folds.ok_of_bind h
  cases h
  unfold processRow at hc
  obtain ⟨queryTile, _, hc⟩ := Folds.ok_of_bind hc
  obtain ⟨outTile, _, hc⟩ := Folds.ok_of_bind hc
  obtain ⟨fix, hfix, hc⟩ := Folds.ok_of_bind hc
  cases hc
  exact Folds.foldlM_keeps (fun c : Fixup => c.row.index.length = row.index.length)
    (fun _ _ _ _ hlen hstep => (fixQuery_length hstep).trans hlen) rfl hfix

end

/-- New tables, and every request asks for token 0 alone. -/
def newTables (d : Sizes) : Tables where
  index := fun _ => NOT_FOUND
  slotToIndex := fun _ => NOT_FOUND
  freeSlots := fun a => (a % d.FREE_SLOT_COUNT : ℕ)
  freeHead := fun _ => 0
  query := fun _ => 0
  slotOut := fun _ => 0

section

variable {d : Sizes}

/-- An empty table is empty everywhere, outside included. -/
theorem read_replicate_notFound (len i : ℕ) : read (List.replicate len NOT_FOUND) i = NOT_FOUND := by
  by_cases hi : i < len
  · rw [read_of_lt (by rw [List.length_replicate]; exact hi), List.getElem_replicate]
  · exact read_of_ge (by rw [List.length_replicate]; omega)

/-- A query for one token over and over misses one token at most. -/
theorem card_missingTokens_replicate (row : Row) (n : ℕ) (q : ℤ) :
    (missingTokens row (List.replicate n q)).card ≤ 1 := by
  have hsub : missingTokens row (List.replicate n q) ⊆ {q} := by
    intro p hp
    rw [Finset.mem_singleton]
    exact List.eq_of_mem_replicate (mem_missingTokens.mp hp).1
  exact (Finset.card_le_card hsub).trans (Finset.card_singleton q).le

/-- New tables can be looked up in: a query for one token needs one slot. -/
theorem lookupState_newTables {n : ℕ} (hindex : 0 < d.INDEX_SIZE)
    (hfree : 0 < d.FREE_SLOT_COUNT) (hslot : d.FREE_SLOT_COUNT ≤ d.SLOT_COUNT) :
    LookupState d n (newTables d) := by
  intro r _
  have hrow : (newTables d).row d arrayBase r = {
      index := List.replicate d.INDEX_SIZE NOT_FOUND
      slotToIndex := List.replicate d.SLOT_COUNT NOT_FOUND
      freeSlots := window (newTables d).freeSlots (arrayBase d.FREE_SLOT_COUNT r) d.FREE_SLOT_COUNT
      freeHead := 0 } := by
    unfold Tables.row
    rw [Row.mk.injEq]
    exact ⟨window_const _ _ _, window_const _ _ _, rfl, rfl⟩
  have hquery : (newTables d).queryRow d arrayBase r = List.replicate d.QUERY_COUNT 0 :=
    window_const _ _ _
  -- two empty tables are inverse to each other
  have hvacant : ∀ a b : ℕ, MutuallyInverse (List.replicate a NOT_FOUND) (List.replicate b NOT_FOUND) :=
    fun a b => ⟨fun i _ => Or.inl (read_replicate_notFound a i), fun i _ => Or.inl (read_replicate_notFound b i)⟩
  rw [hrow, hquery]
  refine ⟨List.length_replicate, List.length_replicate, ?_, hvacant _ _, le_rfl, ?_, ?_,
    List.length_replicate, ?_⟩
  · exact length_window _ _ _
  · refine le_trans (Int.add_le_add_left (Int.ofNat_le.mpr (card_missingTokens_replicate _ _ 0)) _) ?_
    dsimp only
    omega
  · intro j _ hj
    have hread : read (window (newTables d).freeSlots (arrayBase d.FREE_SLOT_COUNT r)
        d.FREE_SLOT_COUNT) j = j := by
      rw [read_of_lt (by rw [length_window]; exact hj)]
      unfold window newTables arrayBase
      rw [List.getElem_map, List.getElem_range]
      dsimp only
      rw [Nat.mul_add_mod_self_right, Nat.mod_eq_of_lt hj]
    dsimp only
    rw [hread]
    omega
  · intro q hq
    rw [List.eq_of_mem_replicate hq]
    exact ⟨le_rfl, by omega⟩

/-- With one request too many, the reference places token 0 in a row that is out of the kernel's
reach. -/
theorem newTables_disagree {n : ℕ} (hd : d.Fits) (hdvd : d.INDEX_SIZE ∣ 2 ^ 32)
    (hfree : 0 < d.FREE_SLOT_COUNT) (hslot : d.FREE_SLOT_COUNT ≤ d.SLOT_COUNT)
    (hquery : 0 < d.QUERY_COUNT) (hn : 2 ^ 32 < n * d.INDEX_SIZE) (blockNum : ℕ)
    (schedule : List ℕ) :
    ¬ ∃ s, lookupKernel d n blockNum schedule (newTables d) = .ok s ∧
      expectedLookup d n (newTables d) = .ok s.shared := by
  rintro ⟨s, hker, hexp⟩
  have hindex : 0 < d.INDEX_SIZE := by
    apply Nat.pos_of_ne_zero
    intro hzero
    rw [hzero, Nat.mul_zero] at hn
    exact absurd hn (by decide)
  have hstate := lookupState_newTables (n := n) hindex hfree hslot
  obtain ⟨res, _, hrows, hlooked⟩ := lookup_rows hd hstate
  -- the first row that begins at 2 ^ 32
  obtain ⟨r, hr⟩ := hdvd
  have hbase : arrayBase d.INDEX_SIZE r = 2 ^ 32 := by
    rw [arrayBase, hr, Nat.mul_comm]
  have hrn : r < n := by
    apply Nat.lt_of_mul_lt_mul_right (a := d.INDEX_SIZE)
    rw [← arrayBase, hbase]
    exact hn
  have hl := hlooked r hrn
  have hzero : InRange d 0 := ⟨le_rfl, by omega⟩
  have hmem : (0 : ℤ) ∈ (newTables d).queryRow d arrayBase r := by
    have hconst : (newTables d).queryRow d arrayBase r = List.replicate d.QUERY_COUNT 0 :=
      window_const _ _ _
    rw [hconst]
    exact List.mem_replicate.mpr ⟨hquery.ne', rfl⟩
  have hplaced : read (res r).2.index 0 ≠ NOT_FOUND := fun hnone =>
    ((hl.missing 0 hzero).mp hnone).2 hmem
  rw [expectedLookup_eq hrows] at hexp
  have hshared : s.shared = (newTables d).served d res (Finset.range n) := (Except.ok.inj hexp).symm
  have hlen : 0 < (res r).2.index.length := by
    rw [hl.index_length]
    exact hindex
  have hfar := run_far keepsLength_lookupOp ⟨r, hr⟩ hker (a := 2 ^ 32) le_rfl
  rw [hshared, ← hbase] at hfar
  apply hplaced
  have hat := replaced_apply (fun r => (res r).2.index) (t := (newTables d).index)
    (Finset.mem_range.mpr hrn) hlen hl.index_length.le
  rw [Nat.add_zero] at hat
  rw [read_of_lt hlen, ← List.getD_eq_getElem _ 0 hlen]
  exact hat.symm.trans hfar

end

/-- **The lookup of all requests.** The kernel computes what `expected_lookup_allocate` computes,
on every launch, exactly when the index rows fit into 32 bits. -/
theorem lookup_agrees_iff (reqNum : ℕ) : LookupAgrees hbmSizes reqNum ↔ reqNum ≤ 2 ^ 15 := by
  constructor
  · intro hagrees
    by_contra hmany
    have hstate : LookupState hbmSizes reqNum (newTables hbmSizes) :=
      lookupState_newTables (by decide) (by decide) (by decide)
    obtain ⟨s, hker, hdone, hfin⟩ := hagrees 1 Nat.one_pos (newTables hbmSizes) hstate
      (List.replicate reqNum 0) fun c hc => by rw [List.eq_of_mem_replicate hc]; exact Nat.one_pos
    have hfinished : Finished reqNum 1 s := hfin fun c hc => by
      rw [Nat.lt_one_iff.mp hc, List.count_replicate_self]
    have hmany' : 2 ^ 32 < reqNum * hbmSizes.INDEX_SIZE := by
      show 2 ^ 32 < reqNum * (128 * 1024)
      omega
    exact newTables_disagree hbmSizes_fits (by decide) (by decide) (by decide) (by decide) hmany' 1
      (List.replicate reqNum 0) ⟨s, hker, hdone hfinished⟩
  · intro hle
    apply lookup_agrees_of_le hbmSizes_fits _ (by decide) (by decide) (by decide)
    show reqNum * (128 * 1024) ≤ 2 ^ 32
    omega

/-- One request too many, on one core. -/
theorem lookup_wraps : LookupState hbmSizes 32769 (newTables hbmSizes) ∧
    ¬ ∃ s, lookupKernel hbmSizes 32769 1 (List.replicate 32769 0) (newTables hbmSizes) = .ok s ∧
      expectedLookup hbmSizes 32769 (newTables hbmSizes) = .ok s.shared := by
  refine ⟨lookupState_newTables (by decide) (by decide) (by decide), ?_⟩
  exact newTables_disagree hbmSizes_fits (by decide) (by decide) (by decide) (by decide) (by decide) 1 _

end AsuAscend.HbmIndex
