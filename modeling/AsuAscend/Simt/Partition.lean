/-
The race-free phases before the install: clearing the flags, the stable partition
of the LRU order and the miss counts.

Each phase ends in one memory, whatever the schedule, and that memory is written
down here as a function of the one it starts from (`cleared`, `counted`,
`scattered`, `missesCounted`). The partition phases start from a memory that meets
`Claimed`, the outcome of the query scan.

## Single assignment

In each of these phases a cell has at most one writer, and nobody reads a cell that another one
writes in the same phase. So a phase is given by the cells of each thread (`clearOwn`, `countOwn`,
`scatterOwn`, `missCountOwn`) and by the memory that it ends in; what is left to show is that a
thread running alone writes its share of that memory.

That the two groups keep their order is the arithmetic of ranks: a slot lands behind as many hits
as come before it in the LRU order, which is what the threads below have counted plus what this one
has met so far.
-/
import AsuAscend.Lib.Compaction
import AsuAscend.Lib.SingleAssignment
import AsuAscend.Lookup.Call
import AsuAscend.Simt.Kernel

set_option autoImplicit false

open Function (update)
open BarrierThreads MachineWords WorkSplit Compaction SentinelTable AsuAscend.Lookup

namespace AsuAscend.Simt

/-- The request's memory. -/
abbrev Store := Mem Cell ℤ

/-! ## What the phases start from -/

section

variable (d : Sizes) (s : LookupState) (query : List ℤ)

/-- A request: a state that meets the README invariants and a query row, both of
the sizes the kernel is compiled for. -/
structure Request : Prop where
  fits : d.Fits
  wf : Wf s
  fwd_length : s.token_to_slot.length = d.INDEX_SIZE
  bwd_length : s.slot_to_token.length = d.SLOT_COUNT
  query_length : query.length = d.QUERY_COUNT

/-- The request's rows in memory are those of `s` and `query`. -/
structure Loaded (m : Store) : Prop where
  fwd : ∀ i < d.INDEX_SIZE, m (.token_to_slot i) = some (read s.token_to_slot i)
  bwd : ∀ v < d.SLOT_COUNT, m (.slot_to_token v) = some (read s.slot_to_token v)
  lru : ∀ p < d.SLOT_COUNT, m (.lru_slots p) = some (read s.lru_slots p)
  row : ∀ p < d.QUERY_COUNT, m (.query_token_ids p) = some (read query p)

/-- The outcome of the query scan `c`: its misses are claimed, its hits flagged. -/
structure Claimed (c : Scan) (m : Store) : Prop where
  fwd : ∀ i < d.INDEX_SIZE, m (.token_to_slot i) =
    some (if (i : ℤ) ∈ c.unique_misses.map Prod.snd then CLAIMING else read s.token_to_slot i)
  bwd : ∀ v < d.SLOT_COUNT, m (.slot_to_token v) = some (read s.slot_to_token v)
  lru : ∀ p < d.SLOT_COUNT, m (.lru_slots p) = some (read s.lru_slots p)
  row : ∀ p < d.QUERY_COUNT, m (.query_token_ids p) = some (read query p)
  ids : ∀ p < d.QUERY_COUNT, m (.slot_ids p) = some
    (if Resident s (read query p) then read s.token_to_slot (read query p).toNat else NOT_FOUND)
  mask : ∀ p < d.QUERY_COUNT, m (.miss_mask p) =
    some (if p ∈ c.unique_misses.map Prod.fst then 1 else 0)
  flags : ∀ v < d.SLOT_COUNT, m (.hit_flags v) = some (if (v : ℤ) ∈ c.hit_slot_set then 1 else 0)

end

/-! ## Clearing -/

section Clear

variable {d : Sizes} {m0 : Store}

def cleared (d : Sizes) (m0 : Store) : Store
  | .hit_flags v => if v < d.SLOT_COUNT then some 0 else m0 (.hit_flags v)
  | .counters i => if i < 4 ∧ i < d.SIMT_THREADS then some 0 else m0 (.counters i)
  | a => m0 a

/-- The cells that thread `t` clears. -/
def clearOwn (d : Sizes) (t : Fin d.SIMT_THREADS) (a : Cell) : Prop :=
  (∃ v ∈ gridStride t d.SLOT_COUNT d.SIMT_THREADS, a = .hit_flags v) ∨
    t.val < 4 ∧ a = .counters t

/-- A thread clears the flags of its own positions. -/
theorem clearFlags_solo (t : Fin d.SIMT_THREADS) :
    Solo (Cell.Inside d) (fun a => clearOwn d t a ∨ ∀ u, ¬ clearOwn d u a) (clearOwn d t)
      (fun e m => ∃ r, e = .ret r ∧ r = () ∧ ∀ a, clearOwn d t a → m a = cleared d m0 a)
      (clearFlags d t) m0 := by
  unfold clearFlags
  apply solo_bind
  refine solo_mono (solo_forEach_written (fun v a => a = .hit_flags v) (cleared d m0) _ ?_) ?_
  · -- one flag
    intro pre v suf m hsplit _
    have hv : v ∈ gridStride t d.SLOT_COUNT d.SIMT_THREADS := by rw [hsplit]; simp
    have hlt := ((mem_gridStride t.isLt).mp hv).1
    refine ⟨hlt, Or.inl ⟨v, hv, rfl⟩, (), rfl, ?_, ?_⟩
    · rintro a rfl
      rw [Function.update_self]
      exact (if_pos hlt).symm
    · exact fun a ha => Function.update_of_ne ha _ _
  · -- the counters
    rintro e m ⟨r, rfl, hflags, hother⟩
    refine ⟨(), rfl, ?_⟩
    have hc : ∀ i, m (.counters i) = m0 (.counters i) := fun i => hother _ fun v _ h => by cases h
    split_ifs with ht
    · refine ⟨ht, Or.inr ⟨ht, rfl⟩, (), rfl, rfl, ?_⟩
      rintro a (⟨v, hv, rfl⟩ | ⟨_, rfl⟩)
      · rw [Function.update_of_ne (by simp)]
        exact hflags v hv _ rfl
      · rw [Function.update_self]
        exact (if_pos ⟨ht, t.isLt⟩).symm
    · refine ⟨(), rfl, rfl, ?_⟩
      rintro a (⟨v, hv, rfl⟩ | ⟨h4, _⟩)
      · exact hflags v hv _ rfl
      · exact absurd h4 ht

theorem clearOwn_disjoint (t u : Fin d.SIMT_THREADS) (a : Cell) (ht : clearOwn d t a)
    (hu : clearOwn d u a) : t = u := by
  rcases ht with ⟨v, hv, rfl⟩ | ⟨_, rfl⟩
  · rcases hu with ⟨w, hw, heq⟩ | ⟨_, heq⟩
    · cases heq
      exact Fin.ext (gridStride_unique t.isLt u.isLt hv hw)
    · cases heq
  · rcases hu with ⟨w, hw, heq⟩ | ⟨_, heq⟩
    · cases heq
    · exact Fin.ext (Cell.counters.inj heq)

theorem cleared_frame (hT : 0 < d.SIMT_THREADS) (a : Cell) (ha : ∀ t, ¬ clearOwn d t a) :
    cleared d m0 a = m0 a := by
  unfold cleared
  split
  · rename_i v
    refine if_neg fun hv => ?_
    exact ha ⟨v % d.SIMT_THREADS, Nat.mod_lt _ hT⟩ (Or.inl ⟨v, gridStride_cover hT hv, rfl⟩)
  · rename_i i
    refine if_neg fun hi => ?_
    exact ha ⟨i, hi.2⟩ (Or.inr ⟨hi.1, rfl⟩)
  · rfl

/-- **The clear phase**, up to the barrier. -/
theorem clear_phase {Post : (Fin d.SIMT_THREADS → Unit) → Store → Prop}
    {rest : Fin d.SIMT_THREADS → Thread Unit} (hT : 0 < d.SIMT_THREADS)
    (h : Correct (Cell.Inside d) Post rest (cleared d m0)) :
    Correct (Cell.Inside d) Post (fun t => do clearFlags d t; Prog.barrier; rest t) m0 :=
  correct_determined_next (clearOwn d) clearOwn_disjoint (fun _ => ()) (cleared d m0)
    (cleared_frame hT) (fun t => clearFlags_solo t) h

end Clear

/-! ## Counting the hit and the evictable slots of a chunk -/

section Partition

variable {d : Sizes} {s : LookupState} {query : List ℤ} {c : Scan} {m0 : Store}

def isHit (c : Scan) (z : ℤ) : Bool := z ∈ c.hit_slot_set

def notHit (c : Scan) (z : ℤ) : Bool := z ∉ c.hit_slot_set

/-- What the partition relies on: the LRU row, and a flag for each slot. The rank of a slot is an
`int32_t`. -/
structure Flagged (d : Sizes) (s : LookupState) (c : Scan) (m : Store) : Prop where
  threads_pos : 0 < d.SIMT_THREADS
  slot_i32 : d.SLOT_COUNT < 2 ^ 31
  length : s.lru_slots.length = d.SLOT_COUNT
  range : ∀ z ∈ s.lru_slots, 0 ≤ z ∧ z < d.SLOT_COUNT
  lru : ∀ p < d.SLOT_COUNT, m (.lru_slots p) = some (read s.lru_slots p)
  flags : ∀ v < d.SLOT_COUNT, ∃ w, m (.hit_flags v) = some w ∧ (w ≠ 0 ↔ (v : ℤ) ∈ c.hit_slot_set)

/-- The query scan has left the order and its flags for the partition to read. -/
theorem Claimed.flagged (hm : Claimed d s query c m0) (hr : Request d s query) : Flagged d s c m0 where
  threads_pos := hr.fits.threads_pos
  slot_i32 := by
    have := hr.fits.slot_i16
    omega
  length := by rw [hr.wf.lru_length, hr.bwd_length]
  range := fun z hz => by
    have hmem := hr.wf.mem_lru.mp hz
    rw [hr.bwd_length] at hmem
    exact hmem
  lru := hm.lru
  flags := fun v hv => ⟨_, hm.flags v hv, by split_ifs with h <;> simp [h]⟩

/-- It lies in the two rows. -/
theorem Flagged.congr (hf : Flagged d s c m0) {m : Store} (hlru : ∀ p, m (.lru_slots p) = m0 (.lru_slots p))
    (hflags : ∀ v, m (.hit_flags v) = m0 (.hit_flags v)) : Flagged d s c m where
  threads_pos := hf.threads_pos
  slot_i32 := hf.slot_i32
  length := hf.length
  range := hf.range
  lru := fun p hp => (hlru p).trans (hf.lru p hp)
  flags := fun v hv => by
    rw [hflags]
    exact hf.flags v hv

/-- A position of the order has a slot. -/
theorem Flagged.lru_get (hf : Flagged d s c m0) {p : ℕ} (hp : p < d.SLOT_COUNT) :
    s.lru_slots[p]? = some (read s.lru_slots p) := by
  have hlt : p < s.lru_slots.length := by rw [hf.length]; exact hp
  rw [read_of_lt hlt]
  exact List.getElem?_eq_getElem hlt

/-- The hit flag of the slot at LRU position `p`. -/
theorem Flagged.flag_at (hf : Flagged d s c m0) {p : ℕ} (hp : p < d.SLOT_COUNT) :
    u32 (read s.lru_slots p) < d.SLOT_COUNT ∧ ∃ w, m0 (.hit_flags (u32 (read s.lru_slots p))) = some w ∧
      (w ≠ 0 ↔ isHit c (read s.lru_slots p) = true) := by
  obtain ⟨h0, hlt⟩ := hf.range _ (List.mem_of_getElem? (hf.lru_get hp))
  have h31 := hf.slot_i32
  rw [u32_of_nonneg h0 (by omega)]
  have hin : (read s.lru_slots p).toNat < d.SLOT_COUNT := by omega
  obtain ⟨w, hw, hiff⟩ := hf.flags _ hin
  refine ⟨hin, w, hw, ?_⟩
  rw [hiff, Int.toNat_of_nonneg h0]
  simp only [isHit, decide_eq_true_eq]

/-- A slot that is not hit can be evicted. -/
theorem notHit_of {z : ℤ} (h : ¬ isHit c z = true) : notHit c z = true := by
  simpa [isHit, notHit] using h

theorem notHit_false {z : ℤ} (h : isHit c z = true) : notHit c z = false := by
  simpa [isHit, notHit] using h

/-- What thread `t` counts. -/
def localCounts (d : Sizes) (s : LookupState) (c : Scan) (t : ℕ) : ℤ × ℤ :=
  let b := chunkBegin d.SLOT_COUNT d.SIMT_THREADS t
  let e := chunkBegin d.SLOT_COUNT d.SIMT_THREADS (t + 1)
  (countSpan (isHit c) s.lru_slots b e, countSpan (notHit c) s.lru_slots b e)

def counted (d : Sizes) (s : LookupState) (c : Scan) (m0 : Store) : Store
  | .thread_hit_counts t =>
      if t < d.SIMT_THREADS then some (localCounts d s c t).1 else m0 (.thread_hit_counts t)
  | .thread_evict_counts t =>
      if t < d.SIMT_THREADS then some (localCounts d s c t).2 else m0 (.thread_evict_counts t)
  | a => m0 a

def countOwn (d : Sizes) (t : Fin d.SIMT_THREADS) (a : Cell) : Prop :=
  a = .thread_hit_counts t ∨ a = .thread_evict_counts t

/-- The count phase. -/
def countPhase (d : Sizes) (s : LookupState) (c : Scan) (m0 : Store) : Phase Cell ℤ where
  dom := Cell.Inside d
  loose := fun _ => False
  assigned := fun a => ∃ t, countOwn d t a
  before := m0
  after := counted d s c m0
  frame := fun a ha => by
    unfold counted
    split
    · rename_i t
      exact if_neg fun ht => ha ⟨⟨t, ht⟩, Or.inl rfl⟩
    · rename_i t
      exact if_neg fun ht => ha ⟨⟨t, ht⟩, Or.inr rfl⟩
    · rfl
  sharp := fun _ _ => id

/-- The cells that thread `t` assigns. -/
def countCells (t : ℕ) : List Cell := [.thread_hit_counts t, .thread_evict_counts t]

/-- The two counts of a thread, as a list. -/
theorem mem_countCells {t : Fin d.SIMT_THREADS} {a : Cell} : a ∈ countCells t ↔ countOwn d t a := by
  simp [countCells, countOwn]

/-- The first pass counts the chunk of a thread, hits and others apart. -/
theorem countSlots_assigns (hf : Flagged d s c m0) (t : Fin d.SIMT_THREADS) :
    (countPhase d s c m0).Assigns (fun r w => r = localCounts d s c t ∧ w = countCells t)
      (countSlots d t) [] := by
  unfold countSlots lruChunk
  apply Phase.assigns_bind
  -- the two counts of the part of the chunk that has been read
  refine (Phase.assigns_span (fun p r w => w = [] ∧ r =
    ((countSpan (isHit c) s.lru_slots (chunkBegin d.SLOT_COUNT d.SIMT_THREADS t) p : ℤ),
      (countSpan (notHit c) s.lru_slots (chunkBegin d.SLOT_COUNT d.SIMT_THREADS t) p : ℤ)))
    ⟨rfl, by rw [countSpan_self, countSpan_self]; rfl⟩ ?_).mono ?_
  · -- one position of the chunk
    rintro p _ _ hb he ⟨rfl, rfl⟩
    have hp : p < d.SLOT_COUNT := lt_of_lt_of_le he (Nat.min_le_right _ _)
    obtain ⟨hin, w, hw, hflag⟩ := hf.flag_at hp
    unfold countSlot
    refine Phase.assigns_read hp id (by simp [countPhase, countOwn]) (hf.lru p hp) ?_
    refine Phase.assigns_read hin id (by simp [countPhase, countOwn]) hw ?_
    rw [countSpan_succ hb (hf.lru_get hp), countSpan_succ hb (hf.lru_get hp)]
    -- each slot counts on one side
    by_cases hhit : isHit c (read s.lru_slots p) = true
    · rw [if_pos (hflag.mpr hhit)]
      simp only [hhit, notHit_false hhit, if_true]
      exact ⟨rfl, by simp⟩
    · rw [if_neg fun hne => hhit (hflag.mp hne)]
      simp only [hhit, notHit_of hhit, if_true]
      exact ⟨rfl, by simp⟩
  · -- the two counts
    rintro r _ ⟨rfl, hcount⟩
    have hres : r = localCounts d s c t := by
      rw [hcount]
      unfold localCounts countSpan
      rw [rank_chunkEnd hf.length.le, rank_chunkEnd hf.length.le]
    have hown : ∀ a, countOwn d t a → (countPhase d s c m0).assigned a := fun _ ha => ⟨t, ha⟩
    refine Phase.assigns_write t.isLt (hown _ (Or.inl rfl)) ?_ ?_
    · rw [hres]
      exact if_pos t.isLt
    refine Phase.assigns_write t.isLt (hown _ (Or.inr rfl)) ?_ ⟨hres, rfl⟩
    rw [hres]
    exact if_pos t.isLt

theorem countOwn_disjoint (t u : Fin d.SIMT_THREADS) (a : Cell) (ht : countOwn d t a)
    (hu : countOwn d u a) : t = u := by
  rcases ht with rfl | rfl
  · rcases hu with h | h
    · exact Fin.ext (Cell.thread_hit_counts.inj h)
    · cases h
  · rcases hu with h | h
    · cases h
    · exact Fin.ext (Cell.thread_evict_counts.inj h)

/-- **The count phase**, up to the barrier. -/
theorem count_phase {Post : (Fin d.SIMT_THREADS → Unit) → Store → Prop}
    {rest : Fin d.SIMT_THREADS → ℤ × ℤ → Thread Unit} (hf : Flagged d s c m0)
    (h : Correct (Cell.Inside d) Post (fun t => rest t (localCounts d s c t)) (counted d s c m0)) :
    Correct (Cell.Inside d) Post
      (fun t => do let n ← countSlots d t; Prog.barrier; rest t n) m0 := by
  refine correct_assigned_next (countPhase d s c m0) (fun t : Fin d.SIMT_THREADS => countCells t)
    (fun a ⟨t, ht⟩ => ⟨t, mem_countCells.mpr ht⟩) (fun t => localCounts d s c t)
    (countSlots_assigns hf) fun m _ hm => ?_
  obtain rfl : m = counted d s c m0 := funext fun a => hm a id
  exact h

/-- The counts are no part of what the second pass reads the order from. -/
theorem Flagged.counted (hf : Flagged d s c m0) : Flagged d s c (counted d s c m0) :=
  hf.congr (fun _ => rfl) fun _ => rfl

/-- Nor of the results of the query scan. -/
theorem Claimed.counted (hm : Claimed d s query c m0) : Claimed d s query c (counted d s c m0) :=
  ⟨hm.fwd, hm.bwd, hm.lru, hm.row, hm.ids, hm.mask, hm.flags⟩

/-! ## Writing the two groups -/

/-- An element stands in the filtered list at its rank. -/
theorem read_filter_rank {P : ℤ → Bool} {xs : List ℤ} {i : ℕ} {z : ℤ} (hz : xs[i]? = some z)
    (hm : P z = true) :
    rank P xs i < (xs.filter P).length ∧ read (xs.filter P) (rank P xs i) = z := by
  have hget := filter_getElem?_rank hz hm
  have hlt := (List.getElem?_eq_some_iff.mp hget).1
  refine ⟨hlt, ?_⟩
  rw [read_of_lt hlt]
  exact (List.getElem?_eq_some_iff.mp hget).2

/-- The hit slots, as a filter of the order. -/
theorem hitSlots_eq (s : LookupState) (c : Scan) : hitSlots s c = s.lru_slots.filter (isHit c) := rfl

theorem evictableSlots_eq (s : LookupState) (c : Scan) :
    evictableSlots s c = s.lru_slots.filter (notHit c) := rfl

/-- Where LRU position `p` goes. -/
def scatterCell (s : LookupState) (c : Scan) (p : ℕ) : Cell :=
  if isHit c (read s.lru_slots p) then .hit_slots (rank (isHit c) s.lru_slots p)
  else .evictable_slots (rank (notHit c) s.lru_slots p)

def scattered (s : LookupState) (c : Scan) (m0 : Store) : Store
  | .hit_slots i =>
      if i < (hitSlots s c).length then some (read (hitSlots s c) i) else m0 (.hit_slots i)
  | .evictable_slots i =>
      if i < (evictableSlots s c).length then some (read (evictableSlots s c) i)
      else m0 (.evictable_slots i)
  | .counters i =>
      if i = 0 then some (hitSlots s c).length
      else if i = 1 then some (evictableSlots s c).length
      else m0 (.counters i)
  | a => m0 a

def scatterOwn (d : Sizes) (s : LookupState) (c : Scan) (t : Fin d.SIMT_THREADS) (a : Cell) : Prop :=
  (∃ p ∈ lruChunk d t, a = scatterCell s c p) ∨
    t.val = d.SIMT_THREADS - 1 ∧ (a = .counters 0 ∨ a = .counters 1)

/-- The value and the place of an LRU position in the two groups. -/
theorem Flagged.scatter_at (hf : Flagged d s c m0) {p : ℕ} (hp : p < d.SLOT_COUNT) :
    (scatterCell s c p).Inside d ∧
      scattered s c m0 (scatterCell s c p) = some (read s.lru_slots p) := by
  have hget := hf.lru_get hp
  have hbound : ∀ P : ℤ → Bool, (s.lru_slots.filter P).length ≤ d.SLOT_COUNT := fun P => by
    rw [← hf.length]; exact List.length_filter_le _ _
  unfold scatterCell
  split_ifs with h
  · obtain ⟨hlt, hval⟩ := read_filter_rank hget h
    have hle := hbound (isHit c)
    refine ⟨lt_of_lt_of_le hlt hle, ?_⟩
    unfold scattered
    dsimp only
    rw [hitSlots_eq, if_pos hlt, hval]
  · obtain ⟨hlt, hval⟩ := read_filter_rank hget (notHit_of h)
    have hle := hbound (notHit c)
    refine ⟨lt_of_lt_of_le hlt hle, ?_⟩
    unfold scattered
    dsimp only
    rw [evictableSlots_eq, if_pos hlt, hval]

/-- No two positions go to the same cell: ranks tell the marked ones apart, and the two lists
are different arrays. -/
theorem scatterCell_inj (hf : Flagged d s c m0) {p q : ℕ} (hp : p < d.SLOT_COUNT)
    (hq : q < d.SLOT_COUNT) (h : scatterCell s c p = scatterCell s c q) : p = q := by
  unfold scatterCell at h
  split_ifs at h with h1 h2 h2
  · exact rank_inj (hf.lru_get hp) h1 (hf.lru_get hq) h2 (Cell.hit_slots.inj h)
  · exact rank_inj (hf.lru_get hp) (notHit_of h1) (hf.lru_get hq) (notHit_of h2)
      (Cell.evictable_slots.inj h)

/-- A chunk of the order stays inside it. -/
theorem lruChunk_lt {t p : ℕ} (hp : p ∈ lruChunk d t) : p < d.SLOT_COUNT := chunk_lt hp

theorem scatterCell_ne_counters (p i : ℕ) : scatterCell s c p ≠ .counters i := by
  unfold scatterCell
  split_ifs <;> simp

/-- No two threads write the same cell in the second pass. -/
theorem scatterOwn_disjoint (hf : Flagged d s c m0) (t u : Fin d.SIMT_THREADS) (a : Cell)
    (ht : scatterOwn d s c t a) (hu : scatterOwn d s c u a) : t = u := by
  rcases ht with ⟨p, hp, rfl⟩ | ⟨ht, hta⟩
  · rcases hu with ⟨q, hq, heq⟩ | ⟨_, h | h⟩
    · have hpq := scatterCell_inj hf (lruChunk_lt hp) (lruChunk_lt hq) heq
      exact Fin.ext (chunk_unique hp (hpq ▸ hq))
    · exact absurd h (scatterCell_ne_counters _ _)
    · exact absurd h (scatterCell_ne_counters _ _)
  · rcases hu with ⟨q, hq, rfl⟩ | ⟨hu, _⟩
    · rcases hta with h | h <;> exact absurd h (scatterCell_ne_counters _ _)
    · exact Fin.ext (ht.trans hu.symm)

/-- A cell that is no position's and no counter is nobody's. -/
theorem not_scatterOwn {u : Fin d.SIMT_THREADS} {a : Cell} (hcell : ∀ p, scatterCell s c p ≠ a)
    (hcounter : ∀ i, a ≠ .counters i) : ¬ scatterOwn d s c u a := by
  rintro (⟨p, _, h⟩ | ⟨_, h | h⟩)
  · exact hcell p h.symm
  · exact hcounter _ h
  · exact hcounter _ h

/-- Nobody writes the cells that the partition reads. -/
theorem scatterOwn_reads (u : Fin d.SIMT_THREADS) (i : ℕ) :
    ¬ scatterOwn d s c u (.lru_slots i) ∧ ¬ scatterOwn d s c u (.hit_flags i) ∧
      ¬ scatterOwn d s c u (.thread_hit_counts i) ∧ ¬ scatterOwn d s c u (.thread_evict_counts i) := by
  have hne : ∀ p, scatterCell s c p ≠ .lru_slots i ∧ scatterCell s c p ≠ .hit_flags i ∧
      scatterCell s c p ≠ .thread_hit_counts i ∧ scatterCell s c p ≠ .thread_evict_counts i := by
    intro p
    unfold scatterCell
    split_ifs <;> simp
  refine ⟨?_, ?_, ?_, ?_⟩
  · exact not_scatterOwn (fun p => (hne p).1) nofun
  · exact not_scatterOwn (fun p => (hne p).2.1) nofun
  · exact not_scatterOwn (fun p => (hne p).2.2.1) nofun
  · exact not_scatterOwn (fun p => (hne p).2.2.2) nofun

/-- The ranks at which thread `t`'s chunk starts. -/
def slotRanks (d : Sizes) (s : LookupState) (c : Scan) (t : ℕ) : ℤ × ℤ :=
  (rank (isHit c) s.lru_slots (chunkBegin d.SLOT_COUNT d.SIMT_THREADS t),
    rank (notHit c) s.lru_slots (chunkBegin d.SLOT_COUNT d.SIMT_THREADS t))

/-- The prefix sums of the counts, thread by thread. -/
theorem slotRanks_succ (t : ℕ) :
    slotRanks d s c (t + 1) =
      ((slotRanks d s c t).1 + (localCounts d s c t).1,
        (slotRanks d s c t).2 + (localCounts d s c t).2) := by
  unfold slotRanks localCounts
  dsimp only
  rw [← rank_chunkBegin_succ, ← rank_chunkBegin_succ, Nat.cast_add, Nat.cast_add]

/-- The ranks past the last chunk are the sizes of the two groups. -/
theorem Flagged.slotRanks_last (hf : Flagged d s c m0) {t : ℕ} (ht : t = d.SIMT_THREADS - 1) :
    slotRanks d s c (t + 1) = (((hitSlots s c).length : ℤ), ((evictableSlots s c).length : ℤ)) := by
  have hT := hf.threads_pos
  have hreach : s.lru_slots.length ≤ chunkBegin d.SLOT_COUNT d.SIMT_THREADS (t + 1) := by
    rw [hf.length, ht, Nat.sub_add_cancel hT]
    exact le_chunkBegin hT
  unfold slotRanks
  rw [rank_of_length_le _ _ hreach, rank_of_length_le _ _ hreach, List.countP_eq_length_filter,
    List.countP_eq_length_filter]
  rfl

/-- Every place of the two groups is written by the chunk of some thread. -/
theorem scattered_frame (hf : Flagged d s c m0) {a : Cell}
    (ha : ∀ t, ¬ scatterOwn d s c t a) : scattered s c m0 a = m0 a := by
  have hT := hf.threads_pos
  have hlast : d.SIMT_THREADS - 1 < d.SIMT_THREADS := by omega
  -- the LRU position behind a place, and the thread behind the position
  have howned : ∀ p z, s.lru_slots[p]? = some z → a ≠ scatterCell s c p := by
    intro p z hz heq
    have hp : p < d.SLOT_COUNT := by rw [← hf.length]; exact (List.getElem?_eq_some_iff.mp hz).1
    obtain ⟨t, ht, hmem⟩ := chunk_cover hT hp
    exact ha ⟨t, ht⟩ (Or.inl ⟨p, hmem, heq⟩)
  have hread : ∀ p z, s.lru_slots[p]? = some z → read s.lru_slots p = z := by
    intro p z hz
    unfold SentinelTable.read
    rw [List.getD_eq_getElem?_getD, hz]
    rfl
  unfold scattered
  split
  · rename_i i
    refine if_neg fun hi => ?_
    obtain ⟨p, hz, hm, hrank⟩ := exists_rank (P := isHit c) (List.getElem?_eq_getElem hi)
    refine howned p _ hz ?_
    unfold scatterCell
    rw [hread p _ hz, if_pos hm, hrank]
  · rename_i i
    refine if_neg fun hi => ?_
    obtain ⟨p, hz, hm, hrank⟩ := exists_rank (P := notHit c) (List.getElem?_eq_getElem hi)
    refine howned p _ hz ?_
    unfold scatterCell
    rw [hread p _ hz, if_neg (by simpa [isHit, notHit] using hm), hrank]
  · rename_i i
    have h0 : i ≠ 0 := fun h =>
      ha ⟨_, hlast⟩ (Or.inr ⟨rfl, Or.inl (by rw [h])⟩)
    have h1 : i ≠ 1 := fun h =>
      ha ⟨_, hlast⟩ (Or.inr ⟨rfl, Or.inr (by rw [h])⟩)
    rw [if_neg h0, if_neg h1]
  · rfl

/-- The scatter phase. -/
def scatterPhase (hf : Flagged d s c m0) : Phase Cell ℤ where
  dom := Cell.Inside d
  loose := fun _ => False
  assigned := fun a => ∃ t, scatterOwn d s c t a
  before := m0
  after := scattered s c m0
  frame := fun _ ha => scattered_frame hf fun t ht => ha ⟨t, ht⟩
  sharp := fun _ _ => id

/-- It only reads the list, the flags and the threads' counts. -/
theorem scatterPhase_reads (hf : Flagged d s c m0) (i : ℕ) :
    ¬ (scatterPhase hf).assigned (.lru_slots i) ∧ ¬ (scatterPhase hf).assigned (.hit_flags i) ∧
      ¬ (scatterPhase hf).assigned (.thread_hit_counts i) ∧
      ¬ (scatterPhase hf).assigned (.thread_evict_counts i) := by
  refine ⟨?_, ?_, ?_, ?_⟩ <;> rintro ⟨u, hu⟩
  · exact (scatterOwn_reads u i).1 hu
  · exact (scatterOwn_reads u i).2.1 hu
  · exact (scatterOwn_reads u i).2.2.1 hu
  · exact (scatterOwn_reads u i).2.2.2 hu

/-- The cells that thread `t` assigns: one for each position of its chunk, and the last thread the
totals. -/
def scatterCells (d : Sizes) (s : LookupState) (c : Scan) (t : ℕ) : List Cell :=
  (lruChunk d t).map (scatterCell s c) ++
    if t = d.SIMT_THREADS - 1 then [.counters 0, .counters 1] else []

/-- The cells of a thread in the second pass, as a list. -/
theorem mem_scatterCells {t : Fin d.SIMT_THREADS} {a : Cell} :
    a ∈ scatterCells d s c t ↔ scatterOwn d s c t a := by
  unfold scatterCells scatterOwn
  rw [List.mem_append, List.mem_map]
  refine or_congr ⟨fun ⟨p, hp, h⟩ => ⟨p, hp, h.symm⟩, fun ⟨p, hp, h⟩ => ⟨p, hp, h.symm⟩⟩ ?_
  split_ifs with ht
  · simp [ht]
  · simp [ht]

/-- One position of the chunk. -/
theorem scatterSlot_assigns (hf : Flagged d s c m0) {t : Fin d.SIMT_THREADS} {p : ℕ}
    (hp : p ∈ lruChunk d t) (w : List Cell) :
    (scatterPhase hf).Assigns (fun r w' =>
        r = ((rank (isHit c) s.lru_slots (p + 1) : ℤ), (rank (notHit c) s.lru_slots (p + 1) : ℤ)) ∧
        w' = w ++ [scatterCell s c p])
      (scatterSlot ((rank (isHit c) s.lru_slots p : ℤ), (rank (notHit c) s.lru_slots p : ℤ)) p)
      w := by
  have hlt := lruChunk_lt hp
  obtain ⟨hin, u, hu, hflag⟩ := hf.flag_at hlt
  obtain ⟨hinside, hval⟩ := hf.scatter_at hlt
  -- a rank is at most the length of the order, and fits
  have hsmall : ∀ P : ℤ → Bool, u32 (rank P s.lru_slots p) = rank P s.lru_slots p := fun P => by
    have hle : rank P s.lru_slots p ≤ s.lru_slots.length := rank_le p
    have := hf.slot_i32
    rw [hf.length] at hle
    exact u32_natCast (by omega)
  have hown : (scatterPhase hf).assigned (scatterCell s c p) := ⟨t, Or.inl ⟨p, hp, rfl⟩⟩
  have hrank := hf.lru_get hlt
  unfold scatterSlot
  refine Phase.assigns_read hlt id (scatterPhase_reads hf p).1 (hf.lru p hlt) ?_
  refine Phase.assigns_read hin id (scatterPhase_reads hf _).2.1 hu ?_
  rw [rank_succ hrank, rank_succ hrank]
  -- the slot goes to its rank among the hits, or among the others
  by_cases hhit : isHit c (read s.lru_slots p) = true
  · have hcell : scatterCell s c p = .hit_slots (u32 (rank (isHit c) s.lru_slots p)) := by
      unfold scatterCell; rw [if_pos hhit, hsmall]
    rw [if_pos (hflag.mpr hhit)]
    rw [hcell] at hval hinside hown ⊢
    simp only [hhit, notHit_false hhit, if_true]
    exact Phase.assigns_write hinside hown hval ⟨by simp, rfl⟩
  · have hcell : scatterCell s c p = .evictable_slots (u32 (rank (notHit c) s.lru_slots p)) := by
      unfold scatterCell; rw [if_neg hhit, hsmall]
    rw [if_neg fun hne => hhit (hflag.mp hne)]
    rw [hcell] at hval hinside hown ⊢
    simp only [hhit, notHit_of hhit, if_true]
    exact Phase.assigns_write hinside hown hval ⟨by simp, rfl⟩

/-- The second pass assigns each position of the chunk its slot, at the rank that the prefix
sums and the count so far give. -/
theorem scatterSlots_assigns (hf : Flagged d s c m0)
    (hcounts : ∀ i < d.SIMT_THREADS, m0 (.thread_hit_counts i) = some (localCounts d s c i).1 ∧
      m0 (.thread_evict_counts i) = some (localCounts d s c i).2) (t : Fin d.SIMT_THREADS) :
    (scatterPhase hf).Assigns (fun _ w => w = scatterCells d s c t)
      (scatterSlots d t (localCounts d s c t)) [] := by
  unfold scatterSlots
  apply Phase.assigns_bind
  refine (Phase.assigns_span (fun i r w => w = [] ∧ r = slotRanks d s c i)
    ⟨rfl, by simp [slotRanks, chunkBegin]⟩ ?_).mono ?_
  · -- the counts of one lower thread
    rintro i _ _ _ hi ⟨rfl, rfl⟩
    have hlt : i < d.SIMT_THREADS := lt_trans hi t.isLt
    unfold addSlotCounts
    obtain ⟨-, -, hhits, hevicts⟩ := scatterPhase_reads hf i
    refine Phase.assigns_read hlt id hhits (hcounts i hlt).1 ?_
    refine Phase.assigns_read hlt id hevicts (hcounts i hlt).2 ?_
    exact ⟨rfl, (slotRanks_succ i).symm⟩
  rintro r _ ⟨rfl, rfl⟩
  apply Phase.assigns_bind
  rw [Nat.sub_zero, Nat.zero_add]
  -- the chunk
  refine (Phase.assigns_span (fun p r w =>
    r = ((rank (isHit c) s.lru_slots p : ℤ), (rank (notHit c) s.lru_slots p : ℤ)) ∧
    w = (span (chunkBegin d.SLOT_COUNT d.SIMT_THREADS t) p).map (scatterCell s c))
    ⟨rfl, by rw [span_self]; rfl⟩ ?_).mono ?_
  · rintro p _ w hb he ⟨rfl, rfl⟩
    refine (scatterSlot_assigns hf (mem_span.mpr ⟨hb, he⟩) _).mono ?_
    rintro r' w' ⟨hr', rfl⟩
    rw [span_succ hb, List.map_append]
    exact ⟨hr', rfl⟩
  rintro _ w ⟨-, rfl⟩
  rw [span_stop]
  split_ifs with ht
  · -- the last thread knows the totals
    have hlast := hf.slotRanks_last ht
    rw [slotRanks_succ, Prod.mk.injEq] at hlast
    have hsum1 : (slotRanks d s c t).1 + (localCounts d s c t).1 = (hitSlots s c).length := hlast.1
    have hsum2 : (slotRanks d s c t).2 + (localCounts d s c t).2 = (evictableSlots s c).length :=
      hlast.2
    rw [hsum1, hsum2]
    have hinside : ∀ i, i < 4 → (Cell.counters i).Inside d := fun i hi => hi
    refine Phase.assigns_write (hinside 0 (by omega)) ⟨t, Or.inr ⟨ht, Or.inl rfl⟩⟩ rfl ?_
    refine Phase.assigns_write (hinside 1 (by omega)) ⟨t, Or.inr ⟨ht, Or.inr rfl⟩⟩ rfl ?_
    unfold scatterCells
    rw [if_pos ht, List.append_assoc]
    rfl
  · unfold scatterCells
    rw [if_neg ht, List.append_nil]
    rfl

/-- **The scatter phase**, up to the barrier. -/
theorem scatter_phase {Post : (Fin d.SIMT_THREADS → Unit) → Store → Prop}
    {rest : Fin d.SIMT_THREADS → Thread Unit} (hf : Flagged d s c m0)
    (hcounts : ∀ i < d.SIMT_THREADS, m0 (.thread_hit_counts i) = some (localCounts d s c i).1 ∧
      m0 (.thread_evict_counts i) = some (localCounts d s c i).2)
    (h : Correct (Cell.Inside d) Post rest (scattered s c m0)) :
    Correct (Cell.Inside d) Post
      (fun t => do scatterSlots d t (localCounts d s c t); Prog.barrier; rest t) m0 := by
  refine correct_assigned_next (scatterPhase hf) (fun t : Fin d.SIMT_THREADS => scatterCells d s c t)
    (fun a ⟨t, ht⟩ => ⟨t, mem_scatterCells.mpr ht⟩) (fun _ => ())
    (fun t => (scatterSlots_assigns hf hcounts t).mono fun _ w hw => ⟨rfl, hw⟩) fun m _ hm => ?_
  obtain rfl : m = scattered s c m0 := funext fun a => hm a id
  exact h

/-- The lists of the partition are no part of the results of the query scan. -/
theorem Claimed.scattered (hm : Claimed d s query c m0) : Claimed d s query c (scattered s c m0) :=
  ⟨hm.fwd, hm.bwd, hm.lru, hm.row, hm.ids, hm.mask, hm.flags⟩

/-! ## Counting the misses of a chunk -/

/-- Query position `p` reports a miss. -/
def reports (c : Scan) (p : ℕ) : Bool := p ∈ c.unique_misses.map Prod.fst

/-- What thread `t` counts. -/
def localMisses (d : Sizes) (c : Scan) (t : ℕ) : ℤ :=
  countSpan (reports c) (List.range d.QUERY_COUNT) (chunkBegin d.QUERY_COUNT d.SIMT_THREADS t)
    (chunkBegin d.QUERY_COUNT d.SIMT_THREADS (t + 1))

def missesCounted (d : Sizes) (c : Scan) (m0 : Store) : Store
  | .thread_miss_counts t =>
      if t < d.SIMT_THREADS then some (localMisses d c t) else m0 (.thread_miss_counts t)
  | a => m0 a

def missCountOwn (d : Sizes) (t : Fin d.SIMT_THREADS) (a : Cell) : Prop :=
  a = .thread_miss_counts t

/-- A position below `n` is one of `List.range n`. -/
theorem range_get {n p : ℕ} (hp : p < n) : (List.range n)[p]? = some p := by
  rw [List.getElem?_range hp]

/-- The mask says which positions report a miss. -/
theorem Claimed.mask_at (hm : Claimed d s query c m0) {p : ℕ} (hp : p < d.QUERY_COUNT) :
    m0 (.miss_mask p) = some (if reports c p then 1 else 0) := by
  rw [hm.mask p hp]
  simp only [reports, decide_eq_true_eq]

/-- What the count relies on: every position says whether it reports a miss. -/
def Masked (d : Sizes) (c : Scan) (m : Store) : Prop :=
  ∀ p < d.QUERY_COUNT, ∃ w, m (.miss_mask p) = some w ∧ (w ≠ 0 ↔ reports c p = true)

theorem Claimed.masked (hm : Claimed d s query c m0) : Masked d c m0 := fun p hp =>
  ⟨_, hm.mask_at hp, by split_ifs with h <;> simp [h]⟩

/-- The count phase of the misses; it has nothing to do with the cells of `loose`. -/
def missCountPhase (d : Sizes) (c : Scan) (m0 : Store) (loose : Cell → Prop)
    (hcount : ∀ t, ¬ loose (.thread_miss_counts t)) : Phase Cell ℤ where
  dom := Cell.Inside d
  loose := loose
  assigned := fun a => ∃ t, missCountOwn d t a
  before := m0
  after := missesCounted d c m0
  frame := fun a ha => by
    unfold missesCounted
    split
    · rename_i t
      exact if_neg fun ht => ha ⟨⟨t, ht⟩, rfl⟩
    · rfl
  sharp := fun a ⟨t, ht⟩ => by
    rw [ht]
    exact hcount t

/-- The first pass of the compaction counts the chunk of a thread. -/
theorem countMisses_assigns (hm : Masked d c m0) {loose : Cell → Prop}
    (hcount : ∀ t, ¬ loose (.thread_miss_counts t)) (hmask : ∀ p, ¬ loose (.miss_mask p))
    (t : Fin d.SIMT_THREADS) : (missCountPhase d c m0 loose hcount).Assigns
      (fun r w => r = localMisses d c t ∧ w = [.thread_miss_counts t]) (countMisses d t) [] := by
  unfold countMisses queryChunk
  apply Phase.assigns_bind
  -- the count of the part of the chunk that has been read
  refine (Phase.assigns_span (fun p r w => w = [] ∧ r =
    (countSpan (reports c) (List.range d.QUERY_COUNT)
      (chunkBegin d.QUERY_COUNT d.SIMT_THREADS t) p : ℤ))
    ⟨rfl, by rw [countSpan_self]; rfl⟩ ?_).mono ?_
  · rintro p _ _ hb he ⟨rfl, rfl⟩
    have hp : p < d.QUERY_COUNT := lt_of_lt_of_le he (Nat.min_le_right _ _)
    obtain ⟨u, hu, hflag⟩ := hm p hp
    unfold countMiss
    refine Phase.assigns_read hp (hmask p) (by simp [missCountPhase, missCountOwn]) hu ?_
    rw [countSpan_succ hb (range_get hp)]
    by_cases h : reports c p = true
    · rw [if_pos (hflag.mpr h)]
      simp only [h, if_true]
      exact ⟨rfl, by simp⟩
    · rw [if_neg fun hne => h (hflag.mp hne)]
      simp only [h]
      exact ⟨rfl, by simp⟩
  -- at the end of the chunk it is the thread's count, which is stored
  · rintro r _ ⟨rfl, hsum⟩
    have hres : r = localMisses d c t := by
      rw [hsum]
      unfold localMisses countSpan
      rw [rank_chunkEnd (by rw [List.length_range])]
    refine Phase.assigns_write t.isLt ⟨t, rfl⟩ ?_ ⟨hres, rfl⟩
    rw [hres]
    exact if_pos t.isLt

/-- **The miss-count phase**, up to the barrier. -/
theorem missCount_phase {Post : (Fin d.SIMT_THREADS → Unit) → Store → Prop}
    {rest : Fin d.SIMT_THREADS → ℤ → Thread Unit} (hm : Masked d c m0)
    (h : Correct (Cell.Inside d) Post (fun t => rest t (localMisses d c t)) (missesCounted d c m0)) :
    Correct (Cell.Inside d) Post
      (fun t => do let n ← countMisses d t; Prog.barrier; rest t n) m0 := by
  refine correct_assigned_next (missCountPhase d c m0 (fun _ => False) fun _ => id)
    (fun t : Fin d.SIMT_THREADS => [.thread_miss_counts t])
    (fun a ⟨t, ht⟩ => ⟨t, List.mem_singleton.mpr ht⟩) (fun t => localMisses d c t)
    (countMisses_assigns hm _ fun _ => id) fun m _ hm => ?_
  obtain rfl : m = missesCounted d c m0 := funext fun a => hm a id
  exact h

/-- Its counts are no part of the results of the query scan either. -/
theorem Claimed.missesCounted (hm : Claimed d s query c m0) :
    Claimed d s query c (missesCounted d c m0) :=
  ⟨hm.fwd, hm.bwd, hm.lru, hm.row, hm.ids, hm.mask, hm.flags⟩

end Partition

end AsuAscend.Simt
