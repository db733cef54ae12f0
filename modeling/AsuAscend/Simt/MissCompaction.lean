/-
The compaction of the misses, for any number of threads and any mask.

The nth reported position takes the nth victim. The threads rewrite the two tables meanwhile;
where the victims or the tokens repeat they may race for an entry there, and what a thread then
finds in it decides nothing but which entry it invalidates. The outputs are assigned once each,
whatever the tables hold.

## On tables that are not in order

The compaction is a part of the install phase, whose other part rewrites the tables. To state it
for any mask and any victims, without the invariants that make the rewriting race-free, the two
parts are told apart by their cells: the tables may end up in any state, while the output cells
have one writer each. `compact_everySchedule` is then a statement about the outputs, in every
schedule.

`two_pass_compaction` puts both compactions of the kernel into one statement, for any number of
threads: every run ends, no cell is written twice, and the lists that come out are the filters of
the lists that went in, in their order.
-/
import AsuAscend.Simt.TwoPass

set_option autoImplicit false

open Function (update)
open BarrierThreads MachineWords WorkSplit Compaction SentinelTable AsuAscend.Lookup

namespace AsuAscend.Simt

section Misses

variable {d : Sizes} {mask row : ℕ → ℤ} {victims : List ℤ} {m0 : Store}

/-- The positions that report a miss. -/
def missPositions (d : Sizes) (mask : ℕ → ℤ) : List ℕ :=
  (List.range d.QUERY_COUNT).filter fun p => mask p ≠ 0

/-- What the compaction starts from: a mask, a valid token wherever it is set, and enough
victims. -/
structure MissInput (d : Sizes) (mask row : ℕ → ℤ) (victims : List ℤ) (m : Store) : Prop where
  index_i32 : d.INDEX_SIZE ≤ 2 ^ 31
  slot_i32 : d.SLOT_COUNT < 2 ^ 31
  mask_at : ∀ p < d.QUERY_COUNT, m (.miss_mask p) = some (mask p)
  row_at : ∀ p < d.QUERY_COUNT, m (.query_token_ids p) = some (row p)
  token : ∀ p ∈ missPositions d mask, 0 ≤ row p ∧ row p < d.INDEX_SIZE
  evictable : ∀ i < victims.length, m (.evictable_slots i) = some (read victims i)
  victim : ∀ z ∈ victims, 0 ≤ z ∧ z < d.SLOT_COUNT
  fit : victims.length ≤ d.SLOT_COUNT
  enough : (missPositions d mask).length ≤ victims.length
  bwd : ∀ v < d.SLOT_COUNT, ∃ z, m (.slot_to_token v) = some z

/-- The mask as the misses of a scan. -/
def maskScan (d : Sizes) (mask : ℕ → ℤ) : Scan :=
  { Scan.init 0 with unique_misses := (missPositions d mask).map fun p => (p, 0) }

/-- A position is listed if its mask is set. -/
theorem mem_missPositions {p : ℕ} :
    p ∈ missPositions d mask ↔ p < d.QUERY_COUNT ∧ mask p ≠ 0 := by
  unfold missPositions
  rw [List.mem_filter, List.mem_range, decide_eq_true_eq]

/-- The scan that stands for the mask reports the same positions. -/
theorem reports_iff {p : ℕ} : reports (maskScan d mask) p = true ↔ p ∈ missPositions d mask := by
  simp [reports, maskScan]

/-- So the list is that of the compaction. -/
theorem missPositions_eq :
    missPositions d mask = (List.range d.QUERY_COUNT).filter (reports (maskScan d mask)) := by
  refine List.filter_congr fun p hp => ?_
  have hiff : reports (maskScan d mask) p = true ↔ p < d.QUERY_COUNT ∧ mask p ≠ 0 :=
    reports_iff.trans mem_missPositions
  rw [Bool.eq_iff_iff, hiff, decide_eq_true_eq]
  exact ⟨fun h => ⟨List.mem_range.mp hp, h⟩, fun h => h.2⟩

/-- The rank of the miss reported at position `p`. -/
abbrev maskRank (d : Sizes) (mask : ℕ → ℤ) (p : ℕ) : ℕ := missRank d (maskScan d mask) p

/-- The cells of the two tables. -/
def IsTable : Cell → Prop
  | .token_to_slot _ => True
  | .slot_to_token _ => True
  | _ => False

/-- The phase finds the mask as that scan has it. -/
theorem MissInput.masked (h : MissInput d mask row victims m0) : Masked d (maskScan d mask) m0 :=
  fun p hp => ⟨mask p, h.mask_at p hp, by rw [reports_iff, mem_missPositions]; simp [hp]⟩

/-- The rank of a miss is a place in the list of victims. -/
theorem MissInput.rank_lt (h : MissInput d mask row victims m0) {p : ℕ}
    (hp : p ∈ missPositions d mask) : maskRank d mask p < victims.length := by
  have hget := filter_getElem?_rank (range_get (mem_missPositions.mp hp).1) (reports_iff.mpr hp)
  rw [← missPositions_eq] at hget
  exact lt_of_lt_of_le (List.getElem?_eq_some_iff.mp hget).1 h.enough

/-- The slot of the miss at position `p`. -/
theorem MissInput.victim_at (h : MissInput d mask row victims m0) {p : ℕ}
    (hp : p ∈ missPositions d mask) :
    0 ≤ read victims (maskRank d mask p) ∧ read victims (maskRank d mask p) < d.SLOT_COUNT :=
  h.victim _ (read_mem (h.rank_lt hp))

/-! ## The second pass -/

/-- The memory after it, the tables aside. -/
def placed (d : Sizes) (mask : ℕ → ℤ) (victims : List ℤ) (m0 : Store) : Store
  | .slot_ids p =>
      if p ∈ missPositions d mask then some (read victims (maskRank d mask p)) else m0 (.slot_ids p)
  | .counters i => if i = 2 then some (missPositions d mask).length else m0 (.counters i)
  | a => m0 a

/-- What thread `t` assigns. -/
def placeOwn (d : Sizes) (mask : ℕ → ℤ) (t : Fin d.SIMT_THREADS) (a : Cell) : Prop :=
  (∃ p ∈ queryChunk d t, p ∈ missPositions d mask ∧ a = .slot_ids p) ∨
    t.val = d.SIMT_THREADS - 1 ∧ a = .counters 2

/-- Cells that no thread writes are as they were. -/
theorem placed_frame (hT : 0 < d.SIMT_THREADS) {a : Cell} (ha : ∀ t, ¬ placeOwn d mask t a) :
    placed d mask victims m0 a = m0 a := by
  have hlast : d.SIMT_THREADS - 1 < d.SIMT_THREADS := by omega
  unfold placed
  split
  · rename_i p
    refine if_neg fun hp => ?_
    obtain ⟨t, ht, hmem⟩ := chunk_cover hT (mem_missPositions.mp hp).1
    exact ha ⟨t, ht⟩ (Or.inl ⟨p, hmem, hp, rfl⟩)
  · rename_i i
    refine if_neg fun hi => ?_
    exact ha ⟨_, hlast⟩ (Or.inr ⟨rfl, by rw [hi]⟩)
  · rfl

/-- What a thread writes are slots of its misses, and the count. -/
theorem placeOwn_outputs {t : Fin d.SIMT_THREADS} {a : Cell} (ha : placeOwn d mask t a) :
    (∃ p, a = .slot_ids p) ∨ a = .counters 2 :=
  ha.imp (fun ⟨p, _, _, h⟩ => ⟨p, h⟩) fun h => h.2

/-- The phase of the second pass. -/
def placePhase (d : Sizes) (mask : ℕ → ℤ) (victims : List ℤ) (m0 : Store)
    (hT : 0 < d.SIMT_THREADS) : Phase Cell ℤ where
  dom := Cell.Inside d
  loose := IsTable
  assigned := fun a => ∃ t, placeOwn d mask t a
  before := m0
  after := placed d mask victims m0
  frame := fun a ha => placed_frame hT fun t ht => ha ⟨t, ht⟩
  sharp := fun a ⟨t, ht⟩ => by
    rcases placeOwn_outputs ht with ⟨p, rfl⟩ | rfl <;> exact id

/-- Everything else is free to be read by anybody. -/
theorem not_assigned {hT : 0 < d.SIMT_THREADS} {a : Cell} (hids : ∀ q, a ≠ .slot_ids q)
    (hcount : a ≠ .counters 2) : ¬ (placePhase d mask victims m0 hT).assigned a := by
  rintro ⟨u, hu⟩
  rcases placeOwn_outputs hu with ⟨q, hq⟩ | hq
  · exact hids q hq
  · exact hcount hq

/-- The counts of the first pass are only read. -/
theorem counts_not_assigned {hT : 0 < d.SIMT_THREADS} (i : ℕ) :
    ¬ (placePhase d mask victims m0 hT).assigned (.thread_miss_counts i) :=
  not_assigned nofun nofun

/-- The cells that thread `t` assigns. -/
def placeCells (d : Sizes) (mask : ℕ → ℤ) (t : ℕ) : List Cell :=
  ((queryChunk d t).filter (· ∈ missPositions d mask)).map Cell.slot_ids ++
    if t = d.SIMT_THREADS - 1 then [.counters 2] else []

/-- The cells that a thread writes, as a list. -/
theorem mem_placeCells {t : Fin d.SIMT_THREADS} {a : Cell} :
    a ∈ placeCells d mask t ↔ placeOwn d mask t a := by
  unfold placeCells placeOwn
  rw [List.mem_append, List.mem_map]
  refine or_congr ⟨?_, ?_⟩ ?_
  · rintro ⟨p, hp, rfl⟩
    rw [List.mem_filter, decide_eq_true_eq] at hp
    exact ⟨p, hp.1, hp.2, rfl⟩
  · rintro ⟨p, hp, hmem, rfl⟩
    exact ⟨p, List.mem_filter.mpr ⟨hp, decide_eq_true hmem⟩, rfl⟩
  · split_ifs with ht
    · simp [ht]
    · simp [ht]

/-- The entry of the old token, whatever that token is. -/
theorem invalidate_assigns (hidx : d.INDEX_SIZE ≤ 2 ^ 31) {hT : 0 < d.SIMT_THREADS}
    (victim_token : ℤ) (w : List Cell) :
    (placePhase d mask victims m0 hT).Assigns (fun _ w' => w' = w) (invalidate d victim_token)
      w := by
  unfold invalidate
  by_cases hin : victim_token ≥ 0 ∧ victim_token < d.INDEX_SIZE
  · obtain ⟨h0, hlt⟩ := hin
    rw [if_pos ⟨h0, hlt⟩, u32_of_nonneg h0 (by omega)]
    have hinside : (Cell.token_to_slot victim_token.toNat).Inside d := by
      show victim_token.toNat < d.INDEX_SIZE
      omega
    exact Phase.assigns_write_loose hinside trivial rfl
  · rw [if_neg hin]
    exact rfl

/-- One query position of the chunk. -/
theorem installMiss_assigns (h : MissInput d mask row victims m0) {hT : 0 < d.SIMT_THREADS}
    {t : Fin d.SIMT_THREADS} {p : ℕ} (hp : p ∈ queryChunk d t) (w : List Cell) :
    (placePhase d mask victims m0 hT).Assigns (fun r w' => r = (maskRank d mask (p + 1) : ℤ) ∧
        w' = w ++ if p ∈ missPositions d mask then [.slot_ids p] else [])
      (installMiss d (maskRank d mask p) p) w := by
  have hlt := queryChunk_lt hp
  have hidx := h.index_i32
  have hslot := h.slot_i32
  unfold installMiss
  refine Phase.assigns_read hlt id (not_assigned nofun nofun) (h.mask_at p hlt) ?_
  have hsucc : maskRank d mask (p + 1) =
      maskRank d mask p + if reports (maskScan d mask) p then 1 else 0 := rank_succ (range_get hlt)
  rw [hsucc]
  by_cases hmiss : p ∈ missPositions d mask
  · obtain ⟨hv0, hvlt⟩ := h.victim_at hmiss
    obtain ⟨ht0, htlt⟩ := h.token p hmiss
    have hrank := h.rank_lt hmiss
    have hfit := h.fit
    have hvin : (Cell.slot_to_token (read victims (maskRank d mask p)).toNat).Inside d := by
      show (read victims (maskRank d mask p)).toNat < d.SLOT_COUNT
      omega
    have htin : (Cell.token_to_slot (row p).toNat).Inside d := by
      show (row p).toNat < d.INDEX_SIZE
      omega
    have hrin : (Cell.evictable_slots (maskRank d mask p)).Inside d := lt_of_lt_of_le hrank hfit
    obtain ⟨old, hold⟩ := h.bwd _ hvin
    rw [if_neg (mem_missPositions.mp hmiss).2, if_pos hmiss, if_pos (reports_iff.mpr hmiss),
      u32_natCast (by omega)]
    refine Phase.assigns_read hrin id (not_assigned nofun nofun) (h.evictable _ hrank) ?_
    dsimp only
    rw [u32_of_nonneg hv0 (by omega)]
    -- another thread may have rewritten the entry by now, so any old token will do
    refine Phase.assigns_read_loose hvin trivial hold fun victim_token => ?_
    apply Phase.assigns_bind
    refine (invalidate_assigns hidx victim_token w).mono ?_
    rintro _ _ rfl
    refine Phase.assigns_read hlt id (not_assigned nofun nofun) (h.row_at p hlt) ?_
    rw [u32_of_nonneg ht0 (by omega), Int.toNat_of_nonneg hv0, i32_of_lt hv0 (by omega)]
    -- the two table entries may race, the output may not
    refine Phase.assigns_write_loose hvin trivial ?_
    refine Phase.assigns_write_loose htin trivial ?_
    exact Phase.assigns_write hlt ⟨t, Or.inl ⟨p, hp, hmiss, rfl⟩⟩ (if_pos hmiss) ⟨by simp, rfl⟩
  · have hzero : mask p = 0 := by
      by_contra hne
      exact hmiss (mem_missPositions.mpr ⟨hlt, hne⟩)
    have hno : ¬ reports (maskScan d mask) p = true := fun hrep => hmiss (reports_iff.mp hrep)
    rw [if_pos hzero, if_neg hmiss, if_neg hno]
    exact ⟨rfl, (List.append_nil w).symm⟩

/-- The rank at which a thread's chunk starts goes on with the counts of the chunks before. -/
theorem maskRank_succ (t : ℕ) :
    (maskRank d mask (chunkBegin d.QUERY_COUNT d.SIMT_THREADS (t + 1)) : ℤ) =
      maskRank d mask (chunkBegin d.QUERY_COUNT d.SIMT_THREADS t) +
        localMisses d (maskScan d mask) t := by
  unfold localMisses maskRank missRank
  rw [← rank_chunkBegin_succ, Nat.cast_add]

/-- The rank past the last chunk is the number of misses. -/
theorem maskRank_last (hT : 0 < d.SIMT_THREADS) {t : ℕ} (ht : t = d.SIMT_THREADS - 1) :
    maskRank d mask (chunkBegin d.QUERY_COUNT d.SIMT_THREADS (t + 1)) =
      (missPositions d mask).length := by
  have hreach : (List.range d.QUERY_COUNT).length ≤
      chunkBegin d.QUERY_COUNT d.SIMT_THREADS (t + 1) := by
    rw [List.length_range, ht, Nat.sub_add_cancel hT]
    exact le_chunkBegin hT
  unfold maskRank missRank
  rw [rank_of_length_le _ _ hreach, List.countP_eq_length_filter, missPositions_eq]

/-- A thread assigns each of its cells once, with the victim of its rank. -/
theorem installMisses_assigns (h : MissInput d mask row victims m0) (hT : 0 < d.SIMT_THREADS)
    (hcounts : ∀ i < d.SIMT_THREADS,
      m0 (.thread_miss_counts i) = some (localMisses d (maskScan d mask) i))
    (t : Fin d.SIMT_THREADS) :
    (placePhase d mask victims m0 hT).Assigns (fun _ w => w = placeCells d mask t)
      (installMisses d t (localMisses d (maskScan d mask) t)) [] := by
  unfold installMisses
  apply Phase.assigns_bind
  refine (Phase.assigns_span (fun i r w => w = [] ∧
    r = (maskRank d mask (chunkBegin d.QUERY_COUNT d.SIMT_THREADS i) : ℤ))
    ⟨rfl, by simp [missRank, chunkBegin]⟩ ?_).mono ?_
  · -- the count of one lower thread
    rintro i _ _ _ hi ⟨rfl, rfl⟩
    have hlt : i < d.SIMT_THREADS := lt_trans hi t.isLt
    unfold addMissCount
    exact Phase.assigns_read hlt id (counts_not_assigned i) (hcounts i hlt)
      ⟨rfl, (maskRank_succ i).symm⟩
  rintro r _ ⟨rfl, rfl⟩
  apply Phase.assigns_bind
  rw [Nat.sub_zero, Nat.zero_add]
  -- the chunk
  refine (Phase.assigns_span (fun p r w => r = (maskRank d mask p : ℤ) ∧
    w = ((span (chunkBegin d.QUERY_COUNT d.SIMT_THREADS t) p).filter
      (· ∈ missPositions d mask)).map Cell.slot_ids) ⟨rfl, by rw [span_self]; rfl⟩ ?_).mono ?_
  · rintro p _ w hb he ⟨rfl, rfl⟩
    refine (installMiss_assigns h (mem_span.mpr ⟨hb, he⟩) _).mono ?_
    rintro r' w' ⟨hr', rfl⟩
    refine ⟨hr', ?_⟩
    rw [span_succ hb, List.filter_append, List.map_append]
    by_cases hp : p ∈ missPositions d mask
    · simp [hp]
    · simp [hp]
  rintro _ w ⟨-, rfl⟩
  rw [span_stop]
  dsimp only
  split_ifs with ht
  · -- the last thread knows the total
    rw [← maskRank_succ, maskRank_last hT ht]
    refine Phase.assigns_write (show 2 < 4 by decide) ⟨t, Or.inr ⟨ht, rfl⟩⟩ rfl ?_
    unfold placeCells
    rw [if_pos ht]
    rfl
  · unfold placeCells
    rw [if_neg ht, List.append_nil]
    rfl

/-! ## Both passes -/

/-- The input of the phase is all that it depends on. -/
theorem MissInput.congr (h : MissInput d mask row victims m0) {m : Store}
    (hmask : ∀ p, m (.miss_mask p) = m0 (.miss_mask p))
    (hrow : ∀ p, m (.query_token_ids p) = m0 (.query_token_ids p))
    (hevict : ∀ i, m (.evictable_slots i) = m0 (.evictable_slots i))
    (hbwd : ∀ v < d.SLOT_COUNT, ∃ z, m (.slot_to_token v) = some z) :
    MissInput d mask row victims m where
  index_i32 := h.index_i32
  slot_i32 := h.slot_i32
  mask_at := fun p hp => (hmask p).trans (h.mask_at p hp)
  row_at := fun p hp => (hrow p).trans (h.row_at p hp)
  token := h.token
  evictable := fun i hi => (hevict i).trans (h.evictable i hi)
  victim := h.victim
  fit := h.fit
  enough := h.enough
  bwd := hbwd

/-- The counts of the first pass are no part of that input. -/
theorem MissInput.counted (h : MissInput d mask row victims m0) :
    MissInput d mask row victims (missesCounted d (maskScan d mask) m0) :=
  h.congr (fun _ => rfl) (fun _ => rfl) (fun _ => rfl) h.bwd

/-- The memory after both passes, the tables aside. -/
def compacted (d : Sizes) (mask : ℕ → ℤ) (victims : List ℤ) (m0 : Store) : Store :=
  placed d mask victims (missesCounted d (maskScan d mask) m0)

/-- What a cell ends as depends on the memory only through that cell. -/
theorem placed_congr {m m' : Store} {a : Cell} (h : m a = m' a) :
    placed d mask victims m a = placed d mask victims m' a := by
  unfold placed
  split
  · rw [h]
  · rw [h]
  · exact h

/-- The phase of the first pass. -/
def countMissPhase (d : Sizes) (mask : ℕ → ℤ) (m0 : Store) : Phase Cell ℤ :=
  missCountPhase d (maskScan d mask) m0 IsTable fun _ => id

/-- The first pass assigns a thread's own count. -/
theorem countMiss_assigns (h : MissInput d mask row victims m0) (t : Fin d.SIMT_THREADS) :
    (countMissPhase d mask m0).Assigns (fun r w => r = localMisses d (maskScan d mask) t ∧
      w = [.thread_miss_counts t]) (countMisses d t) [] :=
  countMisses_assigns h.masked (fun _ => id) (fun _ => id) t

/-- Which is then there for the second pass to read. -/
theorem missesCounted_counts {c : Scan} {i : ℕ} (hi : i < d.SIMT_THREADS) :
    missesCounted d c m0 (.thread_miss_counts i) = some (localMisses d c i) := if_pos hi

/-- **Both passes**, in any interleaving. -/
theorem compact_correct (h : MissInput d mask row victims m0) (hT : 0 < d.SIMT_THREADS) :
    Correct (Cell.Inside d) (fun _ m => ∀ a, ¬ IsTable a → m a = compacted d mask victims m0 a)
      (fun t : Fin d.SIMT_THREADS => compactMisses d t) m0 := by
  refine correct_assigned_next (countMissPhase d mask m0)
    (fun t : Fin d.SIMT_THREADS => [.thread_miss_counts t])
    (fun a ⟨t, ht⟩ => ⟨t, List.mem_singleton.mpr ht⟩) (fun t => localMisses d (maskScan d mask) t)
    (countMiss_assigns h) fun m hkeep hm => ?_
  -- the second pass begins with whatever the tables hold by then
  have hnext : MissInput d mask row victims m :=
    h.congr (fun p => hm _ id) (fun p => hm _ id) (fun i => hm _ id) fun v hv => by
      obtain ⟨z, hz⟩ := h.bwd v hv
      exact hkeep.filled _ z trivial hz
  have hcounts : ∀ i < d.SIMT_THREADS,
      m (.thread_miss_counts i) = some (localMisses d (maskScan d mask) i) := fun i hi =>
    (hm (.thread_miss_counts i) id).trans (missesCounted_counts hi)
  refine correct_assigned_last (placePhase d mask victims m hT)
    (fun t : Fin d.SIMT_THREADS => placeCells d mask t)
    (fun a ⟨t, ht⟩ => ⟨t, mem_placeCells.mpr ht⟩) (fun _ => ()) (fun t => ?_)
    fun m' _ hm' a ha => ?_
  · exact (installMisses_assigns hnext hT hcounts t).mono fun _ w hw => ⟨rfl, hw⟩
  · exact (hm' a ha).trans (placed_congr (hm a ha))

/-! ## The writes -/

/-- The cells of the outputs: the threads' counts, the slots of the misses and their number. -/
def MissOutput (d : Sizes) (mask : ℕ → ℤ) : Cell → Prop
  | .thread_miss_counts t => t < d.SIMT_THREADS
  | .slot_ids p => p ∈ missPositions d mask
  | .counters i => i = 2
  | _ => False

instance (d : Sizes) (mask : ℕ → ℤ) : DecidablePred (MissOutput d mask)
  | .thread_miss_counts t => inferInstanceAs (Decidable (t < d.SIMT_THREADS))
  | .slot_ids p => inferInstanceAs (Decidable (p ∈ missPositions d mask))
  | .counters i => inferInstanceAs (Decidable (i = 2))
  | .token_to_slot _ | .slot_to_token _ | .lru_slots _ | .query_token_ids _ | .miss_mask _
  | .hit_flags _ | .hit_slots _ | .evictable_slots _ | .thread_hit_counts _
  | .thread_evict_counts _ => inferInstanceAs (Decidable False)

/-- What thread `t` assigns in the two passes. -/
def missCells (d : Sizes) (mask : ℕ → ℤ) (t : ℕ) : List Cell :=
  .thread_miss_counts t :: placeCells d mask t

/-- The second pass does not write the counts. -/
theorem not_mem_placeCells {t u : ℕ} : Cell.thread_miss_counts u ∉ placeCells d mask t := by
  unfold placeCells
  rw [List.mem_append, List.mem_map]
  rintro (⟨p, -, hp⟩ | h)
  · cases hp
  · split_ifs at h
    · cases List.mem_singleton.mp h
    · cases h

theorem missCells_nodup (t : ℕ) : (missCells d mask t).Nodup := by
  refine List.nodup_cons.mpr ⟨not_mem_placeCells, ?_⟩
  unfold placeCells
  rw [List.nodup_append]
  refine ⟨?_, by split_ifs <;> simp, ?_⟩
  · exact ((List.nodup_range' _).filter _).map fun p q hpq => Cell.slot_ids.inj hpq
  · rintro a ha b hb rfl
    obtain ⟨p, -, rfl⟩ := List.mem_map.mp ha
    split_ifs at hb
    · cases List.mem_singleton.mp hb
    · cases hb

/-- No two threads write the same cell in the second pass. -/
theorem placeOwn_disjoint (t u : Fin d.SIMT_THREADS) (a : Cell) (ht : placeOwn d mask t a)
    (hu : placeOwn d mask u a) : t = u := by
  rcases ht with ⟨p, hp, -, rfl⟩ | ⟨ht, rfl⟩
  · rcases hu with ⟨q, hq, -, heq⟩ | ⟨-, heq⟩
    · have hpq := Cell.slot_ids.inj heq
      exact Fin.ext (chunk_unique hp (hpq ▸ hq))
    · cases heq
  · rcases hu with ⟨q, -, -, heq⟩ | ⟨hu, -⟩
    · cases heq
    · exact Fin.ext (ht.trans hu.symm)

theorem missCells_disjoint (t u : Fin d.SIMT_THREADS) (a : Cell) (ht : a ∈ missCells d mask t)
    (hu : a ∈ missCells d mask u) : t = u := by
  rcases List.mem_cons.mp ht with rfl | ht
  · rcases List.mem_cons.mp hu with heq | hu
    · exact Fin.ext (Cell.thread_miss_counts.inj heq)
    · exact absurd hu not_mem_placeCells
  · rcases List.mem_cons.mp hu with rfl | hu
    · exact absurd ht not_mem_placeCells
    · exact placeOwn_disjoint t u a (mem_placeCells.mp ht) (mem_placeCells.mp hu)

/-- The threads share out the outputs. -/
theorem missOutput_iff (hT : 0 < d.SIMT_THREADS) {a : Cell} :
    MissOutput d mask a ↔ ∃ t : Fin d.SIMT_THREADS, a ∈ missCells d mask t := by
  have hlast : d.SIMT_THREADS - 1 < d.SIMT_THREADS := by omega
  unfold missCells
  simp only [List.mem_cons, mem_placeCells]
  constructor
  · intro h
    cases a with
    | thread_miss_counts t => exact ⟨⟨t, h⟩, Or.inl rfl⟩
    | slot_ids p =>
        obtain ⟨t, ht, hmem⟩ := chunk_cover hT (mem_missPositions.mp h).1
        exact ⟨⟨t, ht⟩, Or.inr (Or.inl ⟨p, hmem, h, rfl⟩)⟩
    | counters i => exact ⟨⟨_, hlast⟩, Or.inr (Or.inr ⟨rfl, congrArg Cell.counters h⟩)⟩
    | _ => exact absurd h id
  · rintro ⟨t, rfl | ⟨p, -, hp, rfl⟩ | ⟨-, rfl⟩⟩
    · exact t.isLt
    · exact hp
    · exact rfl

/-- The two passes change no other cell, the tables aside. -/
theorem compacted_frame (hT : 0 < d.SIMT_THREADS) {a : Cell} (ha : ¬ MissOutput d mask a) :
    compacted d mask victims m0 a = m0 a := by
  have hnone : ∀ t : Fin d.SIMT_THREADS, a ∉ missCells d mask t := fun t ht =>
    ha ((missOutput_iff hT).mpr ⟨t, ht⟩)
  have hcounted : missesCounted d (maskScan d mask) m0 a = m0 a :=
    (countMissPhase d mask m0).frame a fun ⟨t, ht⟩ => hnone t (ht ▸ List.mem_cons_self)
  refine (placed_frame hT fun t ht => ?_).trans hcounted
  exact hnone t (List.mem_cons_of_mem _ (mem_placeCells.mpr ht))

/-- **Each output cell is written once**, and no other cell besides those of the tables. -/
theorem compact_writes (h : MissInput d mask row victims m0) (hT : 0 < d.SIMT_THREADS)
    {log : List (Event (Fin d.SIMT_THREADS) Cell ℤ)} {cfg : Config (Fin d.SIMT_THREADS) Cell ℤ Unit}
    (hrun : Run (fun t : Fin d.SIMT_THREADS => compactMisses d t, m0) log cfg)
    (hret : ∀ t, cfg.1 t = .ret ()) {a : Cell} (ha : ¬ IsTable a) :
    (written log).count a = if MissOutput d mask a then 1 else 0 := by
  have : Nonempty (Fin d.SIMT_THREADS) := ⟨⟨0, hT⟩⟩
  have hempty : MissInput d mask row victims (erase (MissOutput d mask) m0) :=
    h.congr (fun _ => erase_of_not id) (fun _ => erase_of_not id) (fun _ => erase_of_not id)
      fun v hv => by
        obtain ⟨z, hz⟩ := h.bwd v hv
        exact ⟨z, (erase_of_not id).trans hz⟩
  have hinstall := installMisses_assigns hempty.counted hT fun i hi => missesCounted_counts hi
  -- no output of the first pass is one of the second
  have hkeep : ∀ b, (countMissPhase d mask (erase (MissOutput d mask) m0)).assigned b →
      ¬ (placePhase d mask victims (missesCounted d (maskScan d mask) (erase (MissOutput d mask) m0))
        hT).assigned b := by
    rintro b ⟨t, rfl⟩
    exact counts_not_assigned t
  exact hrun.count_written_once (compact_correct hempty hT) rfl (countMiss_assigns hempty) hinstall
    rfl rfl (fun t => missCells_nodup t) missCells_disjoint (fun _ => missOutput_iff hT) hkeep
    (fun _ hb => compacted_frame hT hb) hret ha

/-- What the compaction ends in, with what it has written on the way. -/
structure Compacting (d : Sizes) (mask : ℕ → ℤ) (victims : List ℤ) (m0 : Store)
    (log : List (Event (Fin d.SIMT_THREADS) Cell ℤ)) (m : Store) : Prop where
  ids : (missPositions d mask).map (fun p => m (.slot_ids p)) =
    (victims.take (missPositions d mask).length).map some
  miss_count : m (.counters 2) = some (missPositions d mask).length
  once : ∀ a, ¬ IsTable a → (written log).count a = if MissOutput d mask a then 1 else 0
  frame : ∀ a, ¬ IsTable a → ¬ MissOutput d mask a → m a = m0 a

/-- The nth position has rank `n`. -/
theorem maskRank_getElem {n : ℕ} (hn : n < (missPositions d mask).length) :
    maskRank d mask (missPositions d mask)[n] = n := by
  have hget : ((List.range d.QUERY_COUNT).filter (reports (maskScan d mask)))[n]? =
      some (missPositions d mask)[n] := by
    rw [← missPositions_eq]
    exact List.getElem?_eq_getElem hn
  obtain ⟨i, hi, -, hrank⟩ := exists_rank hget
  have hpos := List.getElem?_eq_some_iff.mp hi
  obtain rfl : i = (missPositions d mask)[n] := by simpa using hpos.2
  exact hrank

/-- **The compaction of the misses, in every schedule.** -/
theorem compact_everySchedule (h : MissInput d mask row victims m0) (hT : 0 < d.SIMT_THREADS) :
    EverySchedule (fun t : Fin d.SIMT_THREADS => compactMisses d t) m0
      (Compacting d mask victims m0) := by
  have : Nonempty (Fin d.SIMT_THREADS) := ⟨⟨0, hT⟩⟩
  refine (compact_correct h hT).everySchedule ?_
  rintro log ⟨progs, m⟩ rs hrun hret hm
  refine ⟨?_, hm _ id, fun a ha => compact_writes h hT hrun hret ha, fun a ha hout => ?_⟩
  · have hlen := h.enough
    refine List.ext_getElem (by simp [hlen]) fun n hn hn' => ?_
    rw [List.length_map] at hn
    have hmem := List.getElem_mem hn
    have hid : m (.slot_ids (missPositions d mask)[n]) =
        some (read victims (maskRank d mask (missPositions d mask)[n])) :=
      (hm _ id).trans (if_pos hmem)
    rw [maskRank_getElem hn, read_of_lt (by omega)] at hid
    rw [List.getElem_map, List.getElem_map, List.getElem_take]
    exact hid
  · exact (hm a ha).trans (compacted_frame hT hout)

end Misses

/-! ## In the kernel -/

section Kernel

variable {d : Sizes} {s : LookupState} {query : List ℤ} {c : Scan} {m : Store}

/-- The partition gets its input from the query scan. -/
theorem Claimed.lruInput (hm : Claimed d s query c m) (hr : Request d s query) :
    LruInput d s.lru_slots (fun v => if (v : ℤ) ∈ c.hit_slot_set then 1 else 0) m where
  slot_i32 := (hm.flagged hr).slot_i32
  length := (hm.flagged hr).length
  range := (hm.flagged hr).range
  row := hm.lru
  flags := hm.flags

/-- The compaction gets its input from the scan and the partition. -/
theorem Claimed.missInput (hm : Claimed d s query c m) (hr : Request d s query)
    (hc : ScanSpec s query query.length c)
    (hevict : ∀ i < (evictableSlots s c).length,
      m (.evictable_slots i) = some (read (evictableSlots s c) i)) :
    MissInput d (fun p => if p ∈ c.unique_misses.map Prod.fst then 1 else 0) (read query)
      (evictableSlots s c) m := by
  have hle := enough_slots hr hc
  -- the positions of the mask are those of the unique misses
  have hpos : missPositions d (fun p => if p ∈ c.unique_misses.map Prod.fst then 1 else 0) =
      c.unique_misses.map Prod.fst := by
    refine Eq.trans ?_ (positions_eq hr hc)
    refine List.filter_congr fun p _ => decide_eq_decide.mpr ?_
    dsimp only
    split_ifs with h
    · exact iff_of_true one_ne_zero h
    · exact iff_of_false (fun hne => hne rfl) h
  exact {
    index_i32 := hr.fits.index_i32
    slot_i32 := (hm.flagged hr).slot_i32
    mask_at := hm.mask
    row_at := hm.row
    token := fun p hp => by
      obtain ⟨hlt, hne⟩ := mem_missPositions.mp hp
      have hrep : reports c p = true := by
        rw [hpos] at hp
        exact decide_eq_true hp
      exact (missAt hr hc hle hlt hrep).token_lt hr
    evictable := hevict
    victim := fun z hz => (hm.flagged hr).range z (List.mem_of_mem_filter hz)
    fit := (List.length_filter_le _ _).trans (hm.flagged hr).length.le
    enough := by
      rw [hpos, List.length_map]
      exact hle
    bwd := fun v hv => ⟨_, hm.bwd v hv⟩ }

end Kernel

/-! ## Both compactions -/

/-- **Two passes compact**, for any number of threads, any list and any flags. Whatever the
schedule, the threads come to an end, each output cell has been written once, and the outputs are
the flagged and the unflagged elements in the order of the list, with their numbers; the misses,
in the order of their positions, have the victims in theirs. -/
theorem two_pass_compaction {d : Sizes} (hT : 0 < d.SIMT_THREADS) :
    (∀ lru flag m0, LruInput d lru flag m0 →
      EverySchedule (fun t : Fin d.SIMT_THREADS => partitionSlots d t) m0
        (Partitioning d lru flag m0)) ∧
    (∀ mask row victims m0, MissInput d mask row victims m0 →
      EverySchedule (fun t : Fin d.SIMT_THREADS => compactMisses d t) m0
        (Compacting d mask victims m0)) :=
  ⟨fun _ _ _ h => partition_everySchedule h hT, fun _ _ _ _ h => compact_everySchedule h hT⟩

/-- Five slots and three positions for four threads: the last chunk starts past the end. -/
def raggedSizes : Sizes where
  INDEX_SIZE := 4
  SLOT_COUNT := 5
  QUERY_COUNT := 3
  SIMT_THREADS := 4

def raggedFlag (slot : ℕ) : ℤ := if slot % 2 = 0 then 1 else 0

def raggedMask (pos : ℕ) : ℤ := if pos = 1 then 0 else 1

def raggedStore : Store
  | .lru_slots p => [3, 0, 4, 1, 2][p]?
  | .hit_flags v => some (raggedFlag v)
  | .miss_mask p => some (raggedMask p)
  | .query_token_ids p => [1, -1, 3][p]?
  | .evictable_slots i => [3, 1][i]?
  | .slot_to_token _ => some (-1)
  | _ => none

/-- Both compactions on these: the fourth thread has nothing to do. -/
theorem two_pass_compaction_ragged :
    EverySchedule (fun t : Fin raggedSizes.SIMT_THREADS => partitionSlots raggedSizes t) raggedStore
      (Partitioning raggedSizes [3, 0, 4, 1, 2] raggedFlag raggedStore) ∧
    EverySchedule (fun t : Fin raggedSizes.SIMT_THREADS => compactMisses raggedSizes t) raggedStore
      (Compacting raggedSizes raggedMask [3, 1] raggedStore) ∧
    [3, 0, 4, 1, 2].filter (flagged raggedFlag) = [0, 4, 2] ∧
    [3, 0, 4, 1, 2].filter (unflagged raggedFlag) = [3, 1] ∧
    missPositions raggedSizes raggedMask = [0, 2] := by
  have hT : 0 < raggedSizes.SIMT_THREADS := by decide
  have hlru : LruInput raggedSizes [3, 0, 4, 1, 2] raggedFlag raggedStore :=
    ⟨by decide, by decide, by decide, by decide, fun _ _ => rfl⟩
  have hmiss : MissInput raggedSizes raggedMask (read [1, -1, 3]) [3, 1] raggedStore :=
    ⟨by decide, by decide, fun _ _ => rfl, by decide, by decide, by decide, by decide, by decide,
      by decide, fun _ _ => ⟨_, rfl⟩⟩
  refine ⟨(two_pass_compaction hT).1 _ _ _ hlru, (two_pass_compaction hT).2 _ _ _ _ hmiss,
    ?_, ?_, ?_⟩
  all_goals decide

end AsuAscend.Simt
