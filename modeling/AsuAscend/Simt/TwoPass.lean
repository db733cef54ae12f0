/-
The partition of the LRU order on its own: for any number of threads, any list and any flags.

The kernel goes twice over the list. In the first pass each thread counts its chunk; in the second
it adds up the counts of the threads below it and writes from there on. Both passes are phases of
single assignment, so that every schedule ends in one memory and writes each output cell once
(`partition_everySchedule`). The compaction of the misses has the same two passes and is cut out of
the kernel here as well.

## Cut out of the kernel

`partitionSlots` and `compactMisses` are the kernel's own loops with the phases around them taken
away (`kernel_parts`), for any number of threads. All chunks have the same length, rounded up, and
only their ends are cut to the length of the list: the last chunk can be shorter, and others can
start past the end, where nothing is left of them.

The list may name a slot twice or not at all, and the flags may be anything: the order is not asked
to be one of the LRU rows that the operator keeps, only to hold slots of the request.
-/
import AsuAscend.Simt.Refinement

set_option autoImplicit false

open Function (update)
open BarrierThreads MachineWords WorkSplit Compaction SentinelTable AsuAscend.Lookup

namespace AsuAscend.Simt

/-! ## The parts of the kernel -/

/-- `AsuHbmIndexLookupSimt` from the count of the slots to the barrier behind their partition. -/
def partitionSlots (d : Sizes) (tid : ℕ) : Thread Unit := do
  let local_counts ← countSlots d tid
  Prog.barrier
  scatterSlots d tid local_counts

/-- `AsuHbmIndexLookupSimt` from the count of the misses to the barrier behind their install. -/
def compactMisses (d : Sizes) (tid : ℕ) : Thread Unit := do
  let local_misses ← countMisses d tid
  Prog.barrier
  installMisses d tid local_misses

/-- The two passes as the kernel has them: both parts stand between barriers. -/
theorem kernel_parts (d : Sizes) (tid : ℕ) : asuHbmIndexLookupSimt d tid = (do
    clearFlags d tid
    Prog.barrier
    claimQueries d tid
    Prog.barrier
    partitionSlots d tid
    Prog.barrier
    compactMisses d tid
    Prog.barrier
    writeBack d tid) := by
  unfold asuHbmIndexLookupSimt partitionSlots compactMisses
  simp only [Prog.bind_eq, Prog.bind_assoc]

/-! ## The partition -/

section Partition

variable {d : Sizes} {s : LookupState} {c : Scan} {m0 : Store}

/-- The cells of the partition's outputs: the threads' counts, the two groups and their sizes. -/
def PartitionOutput (d : Sizes) (hits evictables : ℕ) : Cell → Prop
  | .thread_hit_counts t => t < d.SIMT_THREADS
  | .thread_evict_counts t => t < d.SIMT_THREADS
  | .hit_slots i => i < hits
  | .evictable_slots i => i < evictables
  | .counters i => i < 2
  | _ => False

instance (d : Sizes) (hits evictables : ℕ) : DecidablePred (PartitionOutput d hits evictables)
  | .thread_hit_counts t => inferInstanceAs (Decidable (t < d.SIMT_THREADS))
  | .thread_evict_counts t => inferInstanceAs (Decidable (t < d.SIMT_THREADS))
  | .hit_slots i => inferInstanceAs (Decidable (i < hits))
  | .evictable_slots i => inferInstanceAs (Decidable (i < evictables))
  | .counters i => inferInstanceAs (Decidable (i < 2))
  | .token_to_slot _ | .slot_to_token _ | .lru_slots _ | .query_token_ids _ | .slot_ids _
  | .miss_mask _ | .hit_flags _ | .thread_miss_counts _ => inferInstanceAs (Decidable False)

/-- The memory after both passes. -/
def partitioned (d : Sizes) (s : LookupState) (c : Scan) (m0 : Store) : Store :=
  scattered s c (counted d s c m0)

/-- The counts of the first pass, as the second one reads them. -/
theorem counted_counts (d : Sizes) (s : LookupState) (c : Scan) (m0 : Store) {i : ℕ}
    (hi : i < d.SIMT_THREADS) :
    counted d s c m0 (.thread_hit_counts i) = some (localCounts d s c i).1 ∧
      counted d s c m0 (.thread_evict_counts i) = some (localCounts d s c i).2 :=
  ⟨if_pos hi, if_pos hi⟩

/-- **The partition**, in any interleaving. -/
theorem partition_correct (hf : Flagged d s c m0) :
    Correct (Cell.Inside d) (fun _ m => m = partitioned d s c m0)
      (fun t : Fin d.SIMT_THREADS => partitionSlots d t) m0 := by
  refine count_phase hf ?_
  refine correct_assigned_last (scatterPhase hf.counted)
    (fun t : Fin d.SIMT_THREADS => scatterCells d s c t)
    (fun a ⟨t, ht⟩ => ⟨t, mem_scatterCells.mpr ht⟩) (fun _ => ()) (fun t => ?_) fun m _ hm => ?_
  · exact (scatterSlots_assigns hf.counted (fun i hi => counted_counts d s c m0 hi) t).mono
      fun _ w hw => ⟨rfl, hw⟩
  · exact funext fun a => hm a id

/-- A thread writes no cell twice in the second pass. -/
theorem scatterCells_nodup (hf : Flagged d s c m0) (t : ℕ) : (scatterCells d s c t).Nodup := by
  unfold scatterCells
  rw [List.nodup_append]
  refine ⟨?_, by split_ifs <;> simp, ?_⟩
  · refine List.Nodup.map_on (fun p hp q hq heq => ?_) (List.nodup_range' _)
    exact scatterCell_inj hf (lruChunk_lt hp) (lruChunk_lt hq) heq
  · rintro a ha b hb rfl
    obtain ⟨p, -, rfl⟩ := List.mem_map.mp ha
    split_ifs at hb
    · rcases List.mem_pair.mp hb with h | h <;> exact scatterCell_ne_counters _ _ h
    · cases hb

/-- What thread `t` assigns in the two passes. -/
def partitionCells (d : Sizes) (s : LookupState) (c : Scan) (t : ℕ) : List Cell :=
  countCells t ++ scatterCells d s c t

/-- The cells that a thread writes in either pass. -/
theorem mem_partitionCells {t : Fin d.SIMT_THREADS} {a : Cell} :
    a ∈ partitionCells d s c t ↔ countOwn d t a ∨ scatterOwn d s c t a := by
  unfold partitionCells
  rw [List.mem_append, mem_countCells, mem_scatterCells]

theorem not_count_of_scatter {t u : Fin d.SIMT_THREADS} {a : Cell} (hu : scatterOwn d s c u a) :
    ¬ countOwn d t a := by
  rintro (rfl | rfl)
  · exact (scatterOwn_reads u t).2.2.1 hu
  · exact (scatterOwn_reads u t).2.2.2 hu

theorem partitionCells_nodup (hf : Flagged d s c m0) (t : Fin d.SIMT_THREADS) :
    (partitionCells d s c t).Nodup := by
  unfold partitionCells
  rw [List.nodup_append]
  refine ⟨by simp [countCells], scatterCells_nodup hf t, ?_⟩
  rintro a ha b hb rfl
  exact not_count_of_scatter (mem_scatterCells.mp hb) (mem_countCells.mp ha)

/-- The threads share out the outputs. -/
theorem partitionCells_disjoint (hf : Flagged d s c m0) (t u : Fin d.SIMT_THREADS) (a : Cell)
    (ht : a ∈ partitionCells d s c t) (hu : a ∈ partitionCells d s c u) : t = u := by
  rcases mem_partitionCells.mp ht with ht | ht
  · rcases mem_partitionCells.mp hu with hu | hu
    · exact countOwn_disjoint t u a ht hu
    · exact absurd ht (not_count_of_scatter hu)
  · rcases mem_partitionCells.mp hu with hu | hu
    · exact absurd hu (not_count_of_scatter ht)
    · exact scatterOwn_disjoint hf t u a ht hu

/-- A cell that the scatter fills has its thread. -/
theorem exists_scatterOwn (hf : Flagged d s c m0) {a : Cell} {v : ℤ}
    (hlru : ∀ p, a ≠ .lru_slots p) (hflags : ∀ p, a ≠ .hit_flags p)
    (ha : ∀ m : Store, scattered s c m a = some v) : ∃ t, scatterOwn d s c t a := by
  by_contra hno
  -- from a memory in which the cell is empty it would stay so
  have hempty : Flagged d s c (update m0 a none) :=
    hf.congr (fun p => Function.update_of_ne (hlru p).symm _ _)
      fun p => Function.update_of_ne (hflags p).symm _ _
  have hframe := scattered_frame hempty fun t ht => hno ⟨t, ht⟩
  rw [ha, Function.update_self] at hframe
  cases hframe

/-- The output is what the threads write, and all of it. -/
theorem partitionOutput_iff (hf : Flagged d s c m0) {a : Cell} :
    PartitionOutput d (hitSlots s c).length (evictableSlots s c).length a ↔
      ∃ t : Fin d.SIMT_THREADS, a ∈ partitionCells d s c t := by
  simp only [mem_partitionCells]
  constructor
  -- each cell of the output has a thread that writes it
  · intro h
    cases a with
    | thread_hit_counts t => exact ⟨⟨t, h⟩, Or.inl (Or.inl rfl)⟩
    | thread_evict_counts t => exact ⟨⟨t, h⟩, Or.inl (Or.inr rfl)⟩
    | hit_slots i =>
        obtain ⟨t, ht⟩ := exists_scatterOwn hf (a := .hit_slots i) nofun nofun fun m => if_pos h
        exact ⟨t, Or.inr ht⟩
    | evictable_slots i =>
        obtain ⟨t, ht⟩ :=
          exists_scatterOwn hf (a := .evictable_slots i) nofun nofun fun m => if_pos h
        exact ⟨t, Or.inr ht⟩
    | counters i =>
        -- the last thread writes the two totals
        have hlast : d.SIMT_THREADS - 1 < d.SIMT_THREADS := by
          have := hf.threads_pos
          omega
        have hi : i = 0 ∨ i = 1 := by
          have hlt : i < 2 := h
          omega
        refine ⟨⟨_, hlast⟩, Or.inr (Or.inr ⟨rfl, ?_⟩)⟩
        exact hi.imp (congrArg Cell.counters) (congrArg Cell.counters)
    | _ => exact absurd h id
  -- and no thread writes anything else: a rank stays inside its list
  · rintro ⟨t, (rfl | rfl) | ⟨p, hp, rfl⟩ | ⟨-, rfl | rfl⟩⟩
    · exact t.isLt
    · exact t.isLt
    · have hget := hf.lru_get (lruChunk_lt hp)
      unfold scatterCell
      split_ifs with h
      · exact (read_filter_rank hget h).1
      · exact (read_filter_rank hget (notHit_of h)).1
    · exact Nat.zero_lt_two
    · exact Nat.one_lt_two

/-- The two passes change no other cell. -/
theorem partitioned_frame (hf : Flagged d s c m0) {a : Cell}
    (ha : ¬ PartitionOutput d (hitSlots s c).length (evictableSlots s c).length a) :
    partitioned d s c m0 a = m0 a := by
  have hnone : ∀ t : Fin d.SIMT_THREADS, ¬ countOwn d t a ∧ ¬ scatterOwn d s c t a := fun t =>
    not_or.mp fun h => ha ((partitionOutput_iff hf).mpr ⟨t, mem_partitionCells.mpr h⟩)
  have hcounted : counted d s c m0 a = m0 a :=
    (countPhase d s c m0).frame a fun ⟨t, ht⟩ => (hnone t).1 ht
  exact (scattered_frame hf.counted fun t => (hnone t).2).trans hcounted

/-- **Each output cell is written once**, and no other cell at all. -/
theorem partition_writes (hf : Flagged d s c m0) {log : List (Event (Fin d.SIMT_THREADS) Cell ℤ)}
    {cfg : Config (Fin d.SIMT_THREADS) Cell ℤ Unit}
    (hrun : Run (fun t : Fin d.SIMT_THREADS => partitionSlots d t, m0) log cfg)
    (hret : ∀ t, cfg.1 t = .ret ()) (a : Cell) : (written log).count a =
      if PartitionOutput d (hitSlots s c).length (evictableSlots s c).length a then 1 else 0 := by
  have : Nonempty (Fin d.SIMT_THREADS) := ⟨⟨0, hf.threads_pos⟩⟩
  have hempty : Flagged d s c
      (erase (PartitionOutput d (hitSlots s c).length (evictableSlots s c).length) m0) :=
    hf.congr (fun _ => erase_of_not id) fun _ => erase_of_not id
  have hscatter := scatterSlots_assigns hempty.counted fun i hi => counted_counts d s c _ hi
  exact hrun.count_written_once (partition_correct hempty) rfl (countSlots_assigns hempty) hscatter
    rfl rfl (partitionCells_nodup hf) (partitionCells_disjoint hf) (fun _ => partitionOutput_iff hf)
    (fun _ ⟨_, ht⟩ ⟨_, hu⟩ => not_count_of_scatter hu ht) (fun _ hb => partitioned_frame hempty hb)
    hret id

end Partition

/-! ## Any list, any flags -/

section Lists

variable {d : Sizes} {lru : List ℤ} {flag : ℕ → ℤ} {m0 : Store}

/-- What the partition starts from: a list of slots and a flag for each slot. The counts are
`int32_t`. -/
structure LruInput (d : Sizes) (lru : List ℤ) (flag : ℕ → ℤ) (m : Store) : Prop where
  slot_i32 : d.SLOT_COUNT < 2 ^ 31
  length : lru.length = d.SLOT_COUNT
  range : ∀ z ∈ lru, 0 ≤ z ∧ z < d.SLOT_COUNT
  row : ∀ p < d.SLOT_COUNT, m (.lru_slots p) = some (read lru p)
  flags : ∀ v < d.SLOT_COUNT, m (.hit_flags v) = some (flag v)

/-- The slots whose flag is set, and the others. -/
def flagged (flag : ℕ → ℤ) (slot : ℤ) : Bool := flag slot.toNat ≠ 0

def unflagged (flag : ℕ → ℤ) (slot : ℤ) : Bool := flag slot.toNat = 0

/-- What the partition ends in, with what it has written on the way. -/
structure Partitioning (d : Sizes) (lru : List ℤ) (flag : ℕ → ℤ) (m0 : Store)
    (log : List (Event (Fin d.SIMT_THREADS) Cell ℤ)) (m : Store) : Prop where
  hits : (List.range (lru.filter (flagged flag)).length).map (fun i => m (.hit_slots i)) =
    (lru.filter (flagged flag)).map some
  evictables : (List.range (lru.filter (unflagged flag)).length).map
    (fun i => m (.evictable_slots i)) = (lru.filter (unflagged flag)).map some
  hit_count : m (.counters 0) = some (lru.filter (flagged flag)).length
  evictable_count : m (.counters 1) = some (lru.filter (unflagged flag)).length
  once : ∀ a, (written log).count a = if PartitionOutput d (lru.filter (flagged flag)).length
    (lru.filter (unflagged flag)).length a then 1 else 0
  frame : ∀ a, ¬ PartitionOutput d (lru.filter (flagged flag)).length
    (lru.filter (unflagged flag)).length a → m a = m0 a

/-- The list as the order of a state, of which the partition reads nothing else. -/
def lruState (lru : List ℤ) : LookupState := ⟨[], [], lru⟩

/-- The flags as the hits of a scan. -/
def flagScan (d : Sizes) (flag : ℕ → ℤ) : Scan :=
  { Scan.init 0 with
    hit_slot_set :=
      ((Finset.range d.SLOT_COUNT).filter fun v => flag v ≠ 0).image fun v : ℕ => (v : ℤ) }

/-- The scan that stands for the flags hits the slots that are flagged. -/
theorem mem_flagScan {v : ℕ} (hv : v < d.SLOT_COUNT) :
    (v : ℤ) ∈ (flagScan d flag).hit_slot_set ↔ flag v ≠ 0 := by
  unfold flagScan
  rw [Finset.mem_image]
  constructor
  · rintro ⟨u, hu, huv⟩
    obtain rfl : u = v := Int.natCast_inj.mp huv
    exact (Finset.mem_filter.mp hu).2
  · exact fun h => ⟨v, Finset.mem_filter.mpr ⟨Finset.mem_range.mpr hv, h⟩, rfl⟩

namespace LruInput

theorem flagged (h : LruInput d lru flag m0) (hT : 0 < d.SIMT_THREADS) :
    Flagged d (lruState lru) (flagScan d flag) m0 where
  threads_pos := hT
  slot_i32 := h.slot_i32
  length := h.length
  range := h.range
  lru := h.row
  flags := fun v hv => ⟨flag v, h.flags v hv, (mem_flagScan hv).symm⟩

/-- The scan that stands for the flags tests the flag of a slot. -/
theorem isHit_eq (h : LruInput d lru flag m0) {z : ℤ} (hz : z ∈ lru) :
    isHit (flagScan d flag) z = Simt.flagged flag z := by
  obtain ⟨h0, hlt⟩ := h.range z hz
  have hmem : (z.toNat : ℤ) ∈ (flagScan d flag).hit_slot_set ↔ flag z.toNat ≠ 0 :=
    mem_flagScan (by omega)
  rw [Int.toNat_of_nonneg h0] at hmem
  exact decide_eq_decide.mpr hmem

/-- And its test for the others is the opposite. -/
theorem notHit_eq (h : LruInput d lru flag m0) {z : ℤ} (hz : z ∈ lru) :
    notHit (flagScan d flag) z = unflagged flag z := by
  have hhit := h.isHit_eq hz
  unfold isHit Simt.flagged at hhit
  unfold notHit unflagged
  rw [decide_eq_decide] at hhit ⊢
  rw [hhit, not_not]

/-- The first of its lists is the stable filter of the flagged slots. -/
theorem hitSlots_eq (h : LruInput d lru flag m0) :
    hitSlots (lruState lru) (flagScan d flag) = lru.filter (Simt.flagged flag) :=
  List.filter_congr fun _ hz => h.isHit_eq hz

theorem evictableSlots_eq (h : LruInput d lru flag m0) :
    evictableSlots (lruState lru) (flagScan d flag) = lru.filter (unflagged flag) :=
  List.filter_congr fun _ hz => h.notHit_eq hz

end LruInput

/-- **The partition, in every schedule.** -/
theorem partition_everySchedule (h : LruInput d lru flag m0) (hT : 0 < d.SIMT_THREADS) :
    EverySchedule (fun t : Fin d.SIMT_THREADS => partitionSlots d t) m0
      (Partitioning d lru flag m0) := by
  have hf := h.flagged hT
  have : Nonempty (Fin d.SIMT_THREADS) := ⟨⟨0, hT⟩⟩
  refine (partition_correct hf).everySchedule ?_
  rintro log ⟨progs, m⟩ rs hrun hret hm
  obtain rfl : m = partitioned d (lruState lru) (flagScan d flag) m0 := hm
  have honce := fun a => partition_writes hf hrun hret a
  have hframe := fun a => partitioned_frame hf (a := a)
  rw [h.hitSlots_eq, h.evictableSlots_eq] at honce hframe
  have hhit : ∀ i < (lru.filter (flagged flag)).length,
      partitioned d (lruState lru) (flagScan d flag) m0 (.hit_slots i) =
        some (read (lru.filter (flagged flag)) i) := by
    rw [← h.hitSlots_eq]
    exact fun i hi => if_pos hi
  have hevict : ∀ i < (lru.filter (unflagged flag)).length,
      partitioned d (lruState lru) (flagScan d flag) m0 (.evictable_slots i) =
        some (read (lru.filter (unflagged flag)) i) := by
    rw [← h.evictableSlots_eq]
    exact fun i hi => if_pos hi
  refine ⟨map_range_read rfl hhit, map_range_read rfl hevict, ?_, ?_, honce, hframe⟩
  · rw [← h.hitSlots_eq]
    rfl
  · rw [← h.evictableSlots_eq]
    rfl

end Lists

end AsuAscend.Simt
