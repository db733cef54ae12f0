/-
The install phase and the write-back.

In the install phase several threads rewrite the two tables at once, one
invalidating a victim's old token while another installs a new one. They never
meet: a miss has a victim slot of its own, that slot's old token was resident
while every installed token was missing, so no two misses touch the same cell
(`installTouch_inj`). The phase is race-free, and it ends with the tables of the
oracle's call (`installed`).

## Who writes which cell

A miss writes the index entry of its victim's old token, if there is one, the index entry of its
own token, the token of its victim's slot, and its output. `installTouch` lists these cells for a
query position; with distinct victims and distinct missing tokens no two positions have a cell in
common, and the order of the threads is of no consequence.

The write-back has the LRU order and the slots of the duplicates in one phase: both only read
what the phases before have left, and write cells of their own positions.
-/
import AsuAscend.Simt.Partition

set_option autoImplicit false

open Function (update)
open BarrierThreads MachineWords WorkSplit Compaction SentinelTable InverseTables AsuAscend.Lookup

namespace AsuAscend.Simt

/-! ## The misses by query position -/

section Misses

variable {d : Sizes} {s s' : LookupState} {query : List ℤ} {c : Scan} {out : Outputs}

/-- The rank of the miss reported at position `p`. -/
def missRank (d : Sizes) (c : Scan) (p : ℕ) : ℕ := rank (reports c) (List.range d.QUERY_COUNT) p

/-- The slot that the miss at position `p` takes. -/
def victimAt (d : Sizes) (s : LookupState) (c : Scan) (p : ℕ) : ℤ :=
  read (evictableSlots s c) (missRank d c p)

/-- The reported positions in increasing order are the recorded ones. -/
theorem positions_eq (hr : Request d s query) (hc : ScanSpec s query query.length c) :
    (List.range d.QUERY_COUNT).filter (reports c) = c.unique_misses.map Prod.fst := by
  refine List.Perm.eq_of_pairwise (fun a b _ _ hab hba => absurd hab (Nat.lt_asymm hba))
    (List.pairwise_lt_range.filter _) hc.pos_sorted ?_
  refine (List.perm_ext_iff_of_nodup (List.nodup_range.filter _)
    (hc.pos_sorted.imp fun hlt => ne_of_lt hlt)).mpr fun p => ?_
  rw [List.mem_filter, List.mem_range]
  constructor
  · intro h; simpa [reports] using h.2
  · intro h
    obtain ⟨m, hm, rfl⟩ := List.mem_map.mp h
    have hlt := lt_of_getElem?_eq_some (hc.miss_pos m hm)
    rw [hr.query_length] at hlt
    exact ⟨hlt, by simpa [reports] using ⟨_, hm⟩⟩

/-- What is known about a position `p` that reports a miss. -/
structure MissAt (d : Sizes) (s : LookupState) (query : List ℤ) (c : Scan) (p : ℕ) : Prop where
  lt : p < d.QUERY_COUNT
  reported : reports c p = true
  recorded : (p, read query p) ∈ c.unique_misses
  missing : Missing s (read query p)
  rank_lt : missRank d c p < (evictableSlots s c).length
  victim : victimAt d s c p ∈ victimSlots s c
  pair : ((victimAt d s c p).toNat, (read query p).toNat) ∈ missPairs s c

/-- A position that reports a miss is that of a unique miss, and its victim is there. -/
theorem missAt (hr : Request d s query) (hc : ScanSpec s query query.length c)
    (hle : c.unique_misses.length ≤ (evictableSlots s c).length) {p : ℕ} (hp : p < d.QUERY_COUNT)
    (h : reports c p = true) : MissAt d s query c p := by
  -- the record of rank `missRank`
  have hget := filter_getElem?_rank (range_get hp) h
  rw [positions_eq hr hc, List.getElem?_map] at hget
  obtain ⟨⟨q, t⟩, hqt, hqp⟩ := Option.map_eq_some_iff.mp hget
  obtain rfl : q = p := hqp
  have hmem := List.mem_of_getElem? hqt
  have ht : read query q = t := by
    unfold SentinelTable.read
    rw [List.getD_eq_getElem?_getD, hc.miss_pos _ hmem]
    rfl
  have hlt : missRank d c q < c.unique_misses.length := (List.getElem?_eq_some_iff.mp hqt).1
  have hrank : missRank d c q < (evictableSlots s c).length := lt_of_lt_of_le hlt hle
  have hv : (evictableSlots s c)[missRank d c q]? = some (victimAt d s c q) := by
    unfold victimAt
    rw [read_of_lt hrank]
    exact List.getElem?_eq_getElem hrank
  have hmiss := (hc.miss_iff t).mp (List.mem_map.mpr ⟨_, hmem, rfl⟩)
  refine ⟨hp, h, by rw [ht]; exact hmem, by rw [ht]; exact hmiss.2, hrank, ?_, ?_⟩
  · unfold victimSlots
    apply List.mem_of_getElem?
    rw [List.getElem?_take_of_lt hlt]
    exact hv
  · unfold missPairs
    have htok : (c.unique_misses.map Prod.snd)[missRank d c q]? = some t := by
      rw [List.getElem?_map]
      exact congrArg (Option.map Prod.snd) hqt
    have hzip : ((c.unique_misses.map Prod.snd).zip (evictableSlots s c))[missRank d c q]?
        = some (t, victimAt d s c q) := List.getElem?_zip_eq_some.mpr ⟨htok, hv⟩
    apply List.mem_of_getElem?
    rw [List.getElem?_map, hzip, ht]
    rfl

/-- Every pair that the call installs is reported at some position. -/
theorem exists_missAt (hr : Request d s query) (hc : ScanSpec s query query.length c)
    (hle : c.unique_misses.length ≤ (evictableSlots s c).length) {b a : ℕ}
    (hba : (b, a) ∈ missPairs s c) :
    ∃ p, MissAt d s query c p ∧ (victimAt d s c p).toNat = b ∧ (read query p).toNat = a := by
  unfold missPairs at hba
  obtain ⟨⟨t, v⟩, htv, heq⟩ := List.mem_map.mp hba
  -- the pair is the `k`-th one, so its position is the one of rank `k`
  obtain ⟨k, hk⟩ := List.mem_iff_getElem?.mp htv
  obtain ⟨hk1, hk2⟩ := List.getElem?_zip_eq_some.mp hk
  rw [List.getElem?_map] at hk1
  obtain ⟨⟨p, u⟩, hpu, rfl⟩ := Option.map_eq_some_iff.mp hk1
  have hpos : ((List.range d.QUERY_COUNT).filter (reports c))[k]? = some p := by
    rw [positions_eq hr hc, List.getElem?_map, hpu]; rfl
  obtain ⟨i, hi, hm, hrank⟩ := exists_rank hpos
  have hip := List.getElem?_eq_some_iff.mp hi
  have hlt : i < d.QUERY_COUNT := by simpa using hip.1
  obtain rfl : i = p := by rw [range_get hlt] at hi; exact Option.some.inj hi
  have hmiss := missAt hr hc hle hlt hm
  have hv : victimAt d s c i = v := by
    unfold victimAt SentinelTable.read missRank
    rw [hrank, List.getD_eq_getElem?_getD, hk2]
    rfl
  have ht : read query i = u := by
    unfold SentinelTable.read
    rw [List.getD_eq_getElem?_getD, hc.miss_pos _ (List.mem_of_getElem? hpu)]
    rfl
  obtain ⟨h1, h2⟩ := Prod.mk.inj heq
  exact ⟨i, hmiss, by rw [hv]; exact h1, by rw [ht]; exact h2⟩

namespace MissAt

variable {p q : ℕ}

theorem token_lt (h : MissAt d s query c p) (hr : Request d s query) :
    0 ≤ read query p ∧ read query p < d.INDEX_SIZE := by
  have := h.missing.1
  unfold InRange at this
  rw [hr.fwd_length] at this
  exact this

theorem victim_range (h : MissAt d s query c p) (hr : Request d s query) :
    0 ≤ victimAt d s c p ∧ victimAt d s c p < d.SLOT_COUNT := by
  have := ((mem_evictableSlots hr.wf).mp (victimSlots_subset h.victim)).1
  rw [hr.bwd_length] at this
  exact this

/-- Two misses have two victims. -/
theorem victim_inj (h : MissAt d s query c p) (h' : MissAt d s query c q) (hr : Request d s query)
    (heq : victimAt d s c p = victimAt d s c q) : p = q := by
  have hnd : (evictableSlots s c).Nodup := hr.wf.lru_nodup.filter _
  unfold victimAt at heq
  rw [read_of_lt h.rank_lt, read_of_lt h'.rank_lt] at heq
  exact rank_inj (range_get h.lt) h.reported (range_get h'.lt) h'.reported
    ((List.Nodup.getElem_inj_iff hnd).mp heq)

/-- Two misses have two tokens. -/
theorem token_inj (h : MissAt d s query c p) (h' : MissAt d s query c q)
    (hc : ScanSpec s query query.length c) (heq : read query p = read query q) : p = q :=
  congrArg Prod.fst (hc.miss_inj h.recorded h'.recorded heq)

/-- The token that the victim slot held knows that slot. -/
theorem old_fwd (h : MissAt d s query c p) (hr : Request d s query)
    (h0 : 0 ≤ read s.slot_to_token (victimAt d s c p).toNat) :
    (read s.slot_to_token (victimAt d s c p).toNat).toNat < d.INDEX_SIZE ∧
      read s.token_to_slot (read s.slot_to_token (victimAt d s c p).toNat).toNat
        = victimAt d s c p := by
  have htab : tab s.slot_to_token (victimAt d s c p).toNat
      = some (read s.slot_to_token (victimAt d s c p).toNat).toNat := by
    rw [tab_eq_some]; omega
  have hinv := (hr.wf.inverse.inverse _ _).mpr htab
  have hlt := lt_of_tab_eq_some hinv
  rw [hr.fwd_length] at hlt
  refine ⟨hlt, ?_⟩
  rw [tab_eq_some.mp hinv, Int.toNat_of_nonneg (h.victim_range hr).1]

/-- A token about to be installed was in no victim slot. -/
theorem token_ne_old (h : MissAt d s query c p) (h' : MissAt d s query c q)
    (hr : Request d s query) (h0 : 0 ≤ read s.slot_to_token (victimAt d s c q).toNat) :
    (read query p).toNat ≠ (read s.slot_to_token (victimAt d s c q).toNat).toNat := by
  intro heq
  have h1 := (h'.old_fwd hr h0).2
  rw [← heq, h.missing.2] at h1
  have := (h'.victim_range hr).1
  omega

theorem victim_lt (h : MissAt d s query c p) (hr : Request d s query) :
    (victimAt d s c p).toNat < d.SLOT_COUNT := by
  have hrange := h.victim_range hr
  omega

theorem token_cell_lt (h : MissAt d s query c p) (hr : Request d s query) :
    (read query p).toNat < d.INDEX_SIZE := by
  have hrange := h.token_lt hr
  omega

/-- The rank is a place in the list of evictable slots, which is no longer than the LRU order. -/
theorem rank_lt_slots (h : MissAt d s query c p) (hr : Request d s query) :
    missRank d c p < d.SLOT_COUNT := by
  have hrank := h.rank_lt
  have hlen : (evictableSlots s c).length ≤ s.lru_slots.length := List.length_filter_le _ _
  rw [hr.wf.lru_length, hr.bwd_length] at hlen
  omega

/-- The casts of a miss are harmless. -/
theorem casts (h : MissAt d s query c p) (hr : Request d s query) :
    u32 (missRank d c p) = missRank d c p ∧
      u32 (victimAt d s c p) = (victimAt d s c p).toNat ∧
      u32 (read query p) = (read query p).toNat ∧
      i32 ((victimAt d s c p).toNat : ℤ) = victimAt d s c p := by
  have hidx := hr.fits.index_i32
  have hslot := hr.fits.slot_i16
  have hrank := h.rank_lt_slots hr
  obtain ⟨hv0, hvlt⟩ := h.victim_range hr
  obtain ⟨ht0, htlt⟩ := h.token_lt hr
  refine ⟨u32_natCast (by omega), u32_of_nonneg hv0 (by omega), u32_of_nonneg ht0 (by omega), ?_⟩
  rw [Int.toNat_of_nonneg hv0]
  exact i32_of_lt hv0 (by omega)

end MissAt

/-! ## The tables after the call, cell by cell -/

section Cells

variable (hr : Request d s query) (hc : ScanSpec s query query.length c)
  (h : CallSpec s query c out s') {p : ℕ}

include hr hc h

/-- After the call the token has the victim. -/
theorem fwd_new (hp : MissAt d s query c p) :
    read s'.token_to_slot (read query p).toNat = victimAt d s c p := by
  have htab : tab s'.token_to_slot (read query p).toNat = some (victimAt d s c p).toNat := by
    rw [h.fwd_tab]
    exact installAll_fwd_mem hr.wf.inverse.inverse (missPairs_fresh hr.wf hc h.enough) hp.pair
  rw [tab_eq_some.mp htab, Int.toNat_of_nonneg (hp.victim_range hr).1]

theorem bwd_new (hp : MissAt d s query c p) :
    read s'.slot_to_token (victimAt d s c p).toNat = read query p := by
  have htab : tab s'.slot_to_token (victimAt d s c p).toNat = some (read query p).toNat := by
    rw [h.bwd_tab]
    exact installAll_bwd_mem (missPairs_fresh hr.wf hc h.enough).slots hp.pair
  rw [tab_eq_some.mp htab, Int.toNat_of_nonneg (hp.token_lt hr).1]

/-- Who was in the victim before is not resident any more. -/
theorem fwd_old (hp : MissAt d s query c p)
    (h0 : 0 ≤ read s.slot_to_token (victimAt d s c p).toNat) :
    read s'.token_to_slot (read s.slot_to_token (victimAt d s c p).toNat).toNat = -1 := by
  obtain ⟨_, hfwd⟩ := hp.old_fwd hr h0
  have hv := (hp.victim_range hr).1
  apply h.fwd_sentinel.read_eq_neg_one
  rw [h.fwd_tab, installAll_fwd_notMem hr.wf.inverse.inverse (missPairs_fresh hr.wf hc h.enough)]
  · have htab : tab s.token_to_slot (read s.slot_to_token (victimAt d s c p).toNat).toNat
        = some (victimAt d s c p).toNat := by
      rw [tab_eq_some, hfwd, Int.toNat_of_nonneg hv]
    rw [htab, Option.filter_some, if_neg]
    simp only [decide_eq_true_eq, not_not]
    exact List.mem_map.mpr ⟨_, hp.pair, rfl⟩
  · intro hmem
    obtain ⟨⟨b, a⟩, hba, ha⟩ := List.mem_map.mp hmem
    obtain ⟨q, hq, _, hqa⟩ := exists_missAt hr hc h.enough hba
    exact hq.token_ne_old hp hr h0 (hqa.trans ha)

/-- Tokens that are neither new nor evicted keep their slots. -/
theorem fwd_other {i : ℕ} (hnew : ∀ q, MissAt d s query c q → i ≠ (read query q).toNat)
    (hold : ∀ q, MissAt d s query c q → 0 ≤ read s.slot_to_token (victimAt d s c q).toNat →
      i ≠ (read s.slot_to_token (victimAt d s c q).toNat).toNat) :
    read s'.token_to_slot i = read s.token_to_slot i := by
  have hnot : i ∉ (missPairs s c).map Prod.snd := by
    intro hmem
    obtain ⟨⟨b, a⟩, hba, rfl⟩ := List.mem_map.mp hmem
    obtain ⟨q, hq, _, hqa⟩ := exists_missAt hr hc h.enough hba
    exact hnew q hq hqa.symm
  have htab : tab s'.token_to_slot i = tab s.token_to_slot i := by
    rw [h.fwd_tab, installAll_fwd_notMem hr.wf.inverse.inverse (missPairs_fresh hr.wf hc h.enough)
      hnot]
    rcases hf : tab s.token_to_slot i with _ | b
    · rfl
    rw [Option.filter_some, if_pos]
    simp only [decide_eq_true_eq]
    intro hmem
    obtain ⟨⟨b', a⟩, hba, rfl⟩ := List.mem_map.mp hmem
    obtain ⟨q, hq, hqb, _⟩ := exists_missAt hr hc h.enough hba
    -- the slot's old token would be `i`
    have hb := tab_eq_some.mp ((hr.wf.inverse.inverse _ _).mp hf)
    dsimp only at hb
    rw [← hqb] at hb
    exact hold q hq (by omega) (by omega)
  rcases hf : tab s.token_to_slot i with _ | b
  · rw [hr.wf.fwd_sentinel.read_eq_neg_one hf, h.fwd_sentinel.read_eq_neg_one (htab.trans hf)]
  · rw [tab_eq_some.mp hf, tab_eq_some.mp (htab.trans hf)]

/-- Slots that are no victims keep their tokens. -/
theorem bwd_other {v : ℕ} (hnew : ∀ q, MissAt d s query c q → v ≠ (victimAt d s c q).toNat) :
    read s'.slot_to_token v = read s.slot_to_token v := by
  have hnot : v ∉ (missPairs s c).map Prod.fst := by
    intro hmem
    obtain ⟨⟨b, a⟩, hba, rfl⟩ := List.mem_map.mp hmem
    obtain ⟨q, hq, hqb, _⟩ := exists_missAt hr hc h.enough hba
    exact hnew q hq hqb.symm
  have htab : tab s'.slot_to_token v = tab s.slot_to_token v := by
    rw [h.bwd_tab, installAll_bwd_notMem hnot]
  rcases hf : tab s.slot_to_token v with _ | b
  · rw [hr.wf.bwd_sentinel.read_eq_neg_one hf, h.bwd_sentinel.read_eq_neg_one (htab.trans hf)]
  · rw [tab_eq_some.mp hf, tab_eq_some.mp (htab.trans hf)]

end Cells

/-! ## The install phase -/

/-- The cells that the miss at position `p` writes. -/
def installTouch (d : Sizes) (s : LookupState) (query : List ℤ) (c : Scan) (p : ℕ) (a : Cell) :
    Prop :=
  reports c p = true ∧
    (a = .slot_to_token (victimAt d s c p).toNat ∨ a = .token_to_slot (read query p).toNat ∨
      (0 ≤ read s.slot_to_token (victimAt d s c p).toNat ∧
        a = .token_to_slot (read s.slot_to_token (victimAt d s c p).toNat).toNat) ∨
      a = .slot_ids p)

/-- The memory with the oracle's tables. -/
def installed (d : Sizes) (c : Scan) (out : Outputs) (s' : LookupState) (m0 : Store) : Store
  | .token_to_slot i =>
      if i < d.INDEX_SIZE then some (read s'.token_to_slot i) else m0 (.token_to_slot i)
  | .slot_to_token v =>
      if v < d.SLOT_COUNT then some (read s'.slot_to_token v) else m0 (.slot_to_token v)
  | .slot_ids p =>
      if p < d.QUERY_COUNT ∧ reports c p = true then some (read out.slot_ids p)
      else m0 (.slot_ids p)
  | .counters i => if i = 2 then some c.unique_misses.length else m0 (.counters i)
  | a => m0 a

/-- **No two misses touch the same cell.** -/
theorem installTouch_inj (hr : Request d s query) (hc : ScanSpec s query query.length c) {p q : ℕ}
    {a : Cell} (hp : MissAt d s query c p) (hq : MissAt d s query c q)
    (ha : installTouch d s query c p a) (hb : installTouch d s query c q a) : p = q := by
  have hslot : (victimAt d s c p).toNat = (victimAt d s c q).toNat → p = q := fun heq =>
    hp.victim_inj hq hr (by have := (hp.victim_range hr).1; have := (hq.victim_range hr).1; omega)
  have htok : (read query p).toNat = (read query q).toNat → p = q := fun heq =>
    hp.token_inj hq hc (by have := (hp.token_lt hr).1; have := (hq.token_lt hr).1; omega)
  -- a miss touches its slot, its token, the token that its slot held and its output
  rcases ha.2 with rfl | rfl | ⟨h0, rfl⟩ | rfl
  · rcases hb.2 with h | h | ⟨_, h⟩ | h
    · exact hslot (Cell.slot_to_token.inj h)
    all_goals cases h
  · rcases hb.2 with h | h | ⟨h1, h⟩ | h
    · cases h
    · exact htok (Cell.token_to_slot.inj h)
    · exact absurd (Cell.token_to_slot.inj h) (hp.token_ne_old hq hr h1)
    · cases h
  · rcases hb.2 with h | h | ⟨h1, h⟩ | h
    · cases h
    · exact absurd (Cell.token_to_slot.inj h).symm (hq.token_ne_old hp hr h0)
    · -- one old token, one slot
      have heq := Cell.token_to_slot.inj h
      have hv := (hp.old_fwd hr h0).2
      rw [heq, (hq.old_fwd hr h1).2] at hv
      exact hslot (by rw [hv])
    · cases h
  · rcases hb.2 with h | h | ⟨_, h⟩ | h
    · cases h
    · cases h
    · cases h
    · exact Cell.slot_ids.inj h

def installOwn (d : Sizes) (s : LookupState) (query : List ℤ) (c : Scan) (t : Fin d.SIMT_THREADS)
    (a : Cell) : Prop :=
  (∃ p ∈ queryChunk d t, installTouch d s query c p a) ∨
    t.val = d.SIMT_THREADS - 1 ∧ a = .counters 2

/-- A chunk of the row stays inside it. -/
theorem queryChunk_lt {t p : ℕ} (hp : p ∈ queryChunk d t) : p < d.QUERY_COUNT := chunk_lt hp

/-- What the install phase needs of the memory it starts in. -/
structure Partitioned (d : Sizes) (s : LookupState) (query : List ℤ) (c : Scan) (m : Store) : Prop
    extends Claimed d s query c m where
  evictable : ∀ i < (evictableSlots s c).length,
    m (.evictable_slots i) = some (read (evictableSlots s c) i)
  hits : ∀ i < (hitSlots s c).length, m (.hit_slots i) = some (read (hitSlots s c) i)
  evictable_count : m (.counters 1) = some (evictableSlots s c).length
  misses : ∀ t < d.SIMT_THREADS, m (.thread_miss_counts t) = some (localMisses d c t)

section InstallPhase

variable {m0 : Store} (hr : Request d s query) (hc : ScanSpec s query query.length c)
  (h : CallSpec s query c out s') (hm : Partitioned d s query c m0)

include hr hc h

/-- No two threads install into the same cells: positions, tokens and victims are all distinct. -/
theorem installOwn_disjoint (t u : Fin d.SIMT_THREADS) (a : Cell)
    (ht : installOwn d s query c t a) (hu : installOwn d s query c u a) : t = u := by
  have hne : ∀ p i, ¬ installTouch d s query c p (.counters i) := fun p i hp => by
    rcases hp.2 with h | h | ⟨_, h⟩ | h <;> cases h
  rcases ht with ⟨p, hp, hpa⟩ | ⟨ht, rfl⟩
  · rcases hu with ⟨q, hq, hqa⟩ | ⟨_, rfl⟩
    · have hpq := installTouch_inj hr hc (missAt hr hc h.enough (queryChunk_lt hp) hpa.1)
        (missAt hr hc h.enough (queryChunk_lt hq) hqa.1) hpa hqa
      exact Fin.ext (chunk_unique hp (hpq ▸ hq))
    · exact absurd hpa (hne _ _)
  · rcases hu with ⟨q, hq, hqa⟩ | ⟨hu, _⟩
    · exact absurd hqa (hne _ _)
    · exact Fin.ext (ht.trans hu.symm)

/-- The slot that the call returns for a reported miss. -/
theorem ids_new {p : ℕ} (hp : MissAt d s query c p) :
    read out.slot_ids p = victimAt d s c p := by
  have hq : query[p]? = some (read query p) := hc.miss_pos _ hp.recorded
  rw [h.ids p _ hq, if_pos hp.missing.1, fwd_new hr hc h hp]

/-- What the cells of one miss hold in the end. -/
theorem installed_touch (m0 : Store) {p : ℕ} (hp : MissAt d s query c p) :
    installed d c out s' m0 (.slot_to_token (victimAt d s c p).toNat) = some (read query p) ∧
    installed d c out s' m0 (.token_to_slot (read query p).toNat) = some (victimAt d s c p) ∧
    (0 ≤ read s.slot_to_token (victimAt d s c p).toNat →
      installed d c out s' m0
        (.token_to_slot (read s.slot_to_token (victimAt d s c p).toNat).toNat) = some NOT_FOUND) ∧
    installed d c out s' m0 (.slot_ids p) = some (victimAt d s c p) := by
  have hv := hp.victim_range hr
  have ht := hp.token_lt hr
  have hvlt : (victimAt d s c p).toNat < d.SLOT_COUNT := by omega
  have htlt : (read query p).toNat < d.INDEX_SIZE := by omega
  unfold installed
  dsimp only
  refine ⟨?_, ?_, fun h0 => ?_, ?_⟩
  · rw [if_pos hvlt, bwd_new hr hc h hp]
  · rw [if_pos htlt, fwd_new hr hc h hp]
  · rw [if_pos (hp.old_fwd hr h0).1, fwd_old hr hc h hp h0]
    rfl
  · rw [if_pos ⟨hp.lt, hp.reported⟩, ids_new hr hc h hp]

omit hr hc h in
/-- Nobody writes the cells that the phase reads besides the victims' own. -/
theorem installOwn_reads (u : Fin d.SIMT_THREADS) (i : ℕ) :
    ¬ installOwn d s query c u (.miss_mask i) ∧ ¬ installOwn d s query c u (.evictable_slots i) ∧
      ¬ installOwn d s query c u (.query_token_ids i) ∧
      ¬ installOwn d s query c u (.thread_miss_counts i) := by
  refine ⟨?_, ?_, ?_, ?_⟩
  all_goals
    rintro (⟨p, _, _, h | h | ⟨_, h⟩ | h⟩ | ⟨_, h⟩) <;> cases h

/-- Before its own turn a miss finds its cells as the phase began. -/
theorem untouched {p b : ℕ} {m : Store} (hp : MissAt d s query c p)
    (hw : Written (installTouch d s query c) m0 (installed d c out s' m0) (span b p) m) {a : Cell}
    (ha : installTouch d s query c p a) : m a = m0 a := by
  apply hw.2
  intro q hq htouch
  have hlt := (mem_span.mp hq).2
  have hmq := missAt hr hc h.enough (lt_trans hlt hp.lt) htouch.1
  have := installTouch_inj hr hc hmq hp htouch ha
  omega

omit hc h in
/-- The old token's entry, if the victim slot held a token. -/
theorem invalidate_solo {t : Fin d.SIMT_THREADS} {p : ℕ} {m : Store} (hp : MissAt d s query c p)
    (hmem : p ∈ queryChunk d t) :
    Solo (Cell.Inside d) (fun a => installOwn d s query c t a ∨ ∀ u, ¬ installOwn d s query c u a)
      (installOwn d s query c t)
      (fun e m' => ∃ r, e = .ret r ∧ m' = if 0 ≤ read s.slot_to_token (victimAt d s c p).toNat then
        update m (.token_to_slot (read s.slot_to_token (victimAt d s c p).toNat).toNat)
          (some NOT_FOUND) else m)
      (invalidate d (read s.slot_to_token (victimAt d s c p).toNat)) m := by
  have hidx := hr.fits.index_i32
  unfold invalidate
  by_cases h0 : 0 ≤ read s.slot_to_token (victimAt d s c p).toNat
  · have hlt := (hp.old_fwd hr h0).1
    have hin : read s.slot_to_token (victimAt d s c p).toNat < d.INDEX_SIZE := by omega
    simp only [if_pos h0, if_pos (And.intro h0 hin), u32_of_nonneg h0 (by omega)]
    exact solo_write hlt (Or.inl ⟨p, hmem, hp.reported, Or.inr (Or.inr (Or.inl ⟨h0, rfl⟩))⟩)
      ⟨(), rfl, rfl⟩
  · have hnot : ¬ (read s.slot_to_token (victimAt d s c p).toNat ≥ 0 ∧
        read s.slot_to_token (victimAt d s c p).toNat < d.INDEX_SIZE) := fun hin => h0 hin.1
    simp only [if_neg h0, if_neg hnot]
    exact ⟨(), rfl, rfl⟩

/-- After the writes of a miss its cells are final, and no other cell has changed. -/
theorem written_turn {p b : ℕ} {m m1 : Store} (hp : MissAt d s query c p) (hb : b ≤ p)
    (hw : Written (installTouch d s query c) m0 (installed d c out s' m0) (span b p) m)
    (hm1 : m1 = if 0 ≤ read s.slot_to_token (victimAt d s c p).toNat then
      update m (.token_to_slot (read s.slot_to_token (victimAt d s c p).toNat).toNat)
        (some NOT_FOUND) else m) :
    Written (installTouch d s query c) m0 (installed d c out s' m0) (span b (p + 1))
      (update (update (update m1 (.slot_to_token (victimAt d s c p).toNat) (some (read query p)))
        (.token_to_slot (read query p).toNat) (some (victimAt d s c p)))
        (.slot_ids p) (some (victimAt d s c p))) := by
  obtain ⟨hfin1, hfin2, hfin3, hfin4⟩ := installed_touch hr hc h m0 hp
  rw [span_succ hb]
  refine hw.concat ?_ ?_
  · -- every cell of this miss is final
    rintro a ⟨_, rfl | rfl | ⟨h0, rfl⟩ | rfl⟩
    · rw [Function.update_of_ne (by simp), Function.update_of_ne (by simp), Function.update_self,
        hfin1]
    · rw [Function.update_of_ne (by simp), Function.update_self, hfin2]
    · rw [Function.update_of_ne (by simp), Function.update_of_ne, Function.update_of_ne (by simp),
        hm1, if_pos h0, Function.update_self, hfin3 h0]
      exact fun heq => hp.token_ne_old hp hr h0 (Cell.token_to_slot.inj heq).symm
    · rw [Function.update_self, hfin4]
  · -- no other cell changes
    intro a ha
    have hne : ∀ {b}, installTouch d s query c p b → a ≠ b := fun hb heq => ha (heq ▸ hb)
    rw [Function.update_of_ne (hne ⟨hp.reported, Or.inr (Or.inr (Or.inr rfl))⟩),
      Function.update_of_ne (hne ⟨hp.reported, Or.inr (Or.inl rfl)⟩),
      Function.update_of_ne (hne ⟨hp.reported, Or.inl rfl⟩), hm1]
    split_ifs with h0
    · exact Function.update_of_ne
        (fun heq => ha ⟨hp.reported, Or.inr (Or.inr (Or.inl ⟨h0, heq⟩))⟩) _ _
    · rfl

include hm

/-- One query position of the chunk. -/
theorem installMiss_solo {t : Fin d.SIMT_THREADS} {p : ℕ} {m : Store} (hmem : p ∈ queryChunk d t)
    (hw : Written (installTouch d s query c) m0 (installed d c out s' m0)
      (span (chunkBegin d.QUERY_COUNT d.SIMT_THREADS t) p) m) :
    Solo (Cell.Inside d) (fun a => installOwn d s query c t a ∨ ∀ u, ¬ installOwn d s query c u a)
      (installOwn d s query c t)
      (fun e m => ∃ r, e = .ret r ∧ r = (missRank d c (p + 1) : ℤ) ∧
        Written (installTouch d s query c) m0 (installed d c out s' m0)
          (span (chunkBegin d.QUERY_COUNT d.SIMT_THREADS t) (p + 1)) m)
      (installMiss d (missRank d c p) p) m := by
  have hlt := queryChunk_lt hmem
  have hb := (mem_span.mp hmem).1
  have hkeep : ∀ a, (∀ q, ¬ installTouch d s query c q a) → m a = m0 a := fun a ha =>
    hw.2 a fun q _ => ha q
  have hread : ∀ i, m (.miss_mask i) = m0 (.miss_mask i) ∧
      m (.evictable_slots i) = m0 (.evictable_slots i) ∧
      m (.query_token_ids i) = m0 (.query_token_ids i) := fun i => by
    refine ⟨hkeep _ ?_, hkeep _ ?_, hkeep _ ?_⟩ <;>
      rintro q ⟨_, h | h | ⟨_, h⟩ | h⟩ <;> cases h
  have hsucc : (missRank d c (p + 1) : ℤ) = missRank d c p + if reports c p then 1 else 0 := by
    unfold missRank
    rw [rank_succ (range_get hlt)]
    split_ifs <;> simp
  have hmask : m (.miss_mask p) = some (if reports c p then 1 else 0) := by
    rw [(hread p).1]; exact hm.mask_at hlt
  unfold installMiss
  refine solo_read hlt (Or.inr fun u => (installOwn_reads u p).1) hmask ?_
  rw [hsucc, span_succ hb]
  by_cases hrep : reports c p = true
  swap
  · -- no miss here
    simp only [hrep]
    refine ⟨_, rfl, by simp, hw.concat ?_ fun a _ => rfl⟩
    exact fun a ha => absurd ha.1 hrep
  have hp := missAt hr hc h.enough hlt hrep
  have hvin := hp.victim_lt hr
  have htin := hp.token_cell_lt hr
  obtain ⟨hrank, hvu, htu, hvi⟩ := hp.casts hr
  -- the cells of this miss
  have own : ∀ a, installTouch d s query c p a → installOwn d s query c t a :=
    fun a ha => Or.inl ⟨p, hmem, ha⟩
  have touch1 : installTouch d s query c p (.slot_to_token (victimAt d s c p).toNat) :=
    ⟨hrep, Or.inl rfl⟩
  have touch2 : installTouch d s query c p (.token_to_slot (read query p).toNat) :=
    ⟨hrep, Or.inr (Or.inl rfl)⟩
  have touch4 : installTouch d s query c p (.slot_ids p) := ⟨hrep, Or.inr (Or.inr (Or.inr rfl))⟩
  -- what they hold before its turn
  have hevict : m (.evictable_slots (missRank d c p)) = some (victimAt d s c p) := by
    rw [(hread _).2.1]; exact hm.evictable _ hp.rank_lt
  have hold : m (.slot_to_token (victimAt d s c p).toNat)
      = some (read s.slot_to_token (victimAt d s c p).toNat) := by
    rw [untouched hr hc h hp hw touch1]
    exact hm.bwd _ hvin
  have hquery : m (.query_token_ids p) = some (read query p) := by
    rw [(hread p).2.2]; exact hm.row p hlt
  simp only [hrep, if_true, hrank]
  refine solo_read (hp.rank_lt_slots hr) (Or.inr fun u => (installOwn_reads u _).2.1) hevict ?_
  rw [hvu]
  refine solo_read hvin (Or.inl (own _ touch1)) hold ?_
  refine solo_bind (solo_mono (invalidate_solo hr hp hmem) ?_)
  rintro e m1 ⟨r, rfl, hm1⟩
  refine ⟨r, rfl, ?_⟩
  -- the query is read again after the old token has lost its entry
  have hquery1 : m1 (.query_token_ids p) = some (read query p) := by
    rw [hm1]
    split_ifs
    · rw [Function.update_of_ne (by simp)]; exact hquery
    · exact hquery
  refine solo_read hlt (Or.inr fun u => (installOwn_reads u p).2.2.1) hquery1 ?_
  rw [htu, hvi]
  refine solo_write hvin (own _ touch1) ?_
  refine solo_write htin (own _ touch2) ?_
  refine solo_write hlt (own _ touch4) ⟨_, rfl, rfl, ?_⟩
  rw [← span_succ hb]
  exact written_turn hr hc h hp hb hw hm1

/-- A thread's installs leave in its own cells what the call is to leave there. -/
theorem installMisses_solo (t : Fin d.SIMT_THREADS) :
    Solo (Cell.Inside d) (fun a => installOwn d s query c t a ∨ ∀ u, ¬ installOwn d s query c u a)
      (installOwn d s query c t)
      (fun e m => ∃ r, e = .ret r ∧ r = () ∧
        ∀ a, installOwn d s query c t a → m a = installed d c out s' m0 a)
      (installMisses d t (localMisses d c t)) m0 := by
  unfold installMisses
  apply solo_bind
  -- a thread adds up the counts of the threads below it, which gives the rank of its first miss
  refine solo_mono (solo_span (fun i r m => m = m0 ∧
    r = (missRank d c (chunkBegin d.QUERY_COUNT d.SIMT_THREADS i) : ℤ))
    ⟨rfl, by simp [missRank, chunkBegin]⟩ ?_) ?_
  · -- the count of one lower thread
    rintro i _ _ _ hi ⟨rfl, rfl⟩
    have hlt : i < d.SIMT_THREADS := lt_trans hi t.isLt
    unfold addMissCount
    refine solo_read hlt (Or.inr fun u => (installOwn_reads u i).2.2.2) (hm.misses i hlt) ?_
    refine ⟨_, rfl, rfl, ?_⟩
    unfold localMisses missRank
    rw [← rank_chunkBegin_succ, Nat.cast_add]
  rintro e m ⟨_, rfl, rfl, rfl⟩
  refine ⟨_, rfl, solo_bind ?_⟩
  rw [Nat.sub_zero, Nat.zero_add]
  -- then it goes through its chunk, with the rank of the next miss in hand
  refine solo_mono (solo_span (fun p r m' => r = (missRank d c p : ℤ) ∧
    Written (installTouch d s query c) m (installed d c out s' m)
      (span (chunkBegin d.QUERY_COUNT d.SIMT_THREADS t) p) m')
    ⟨rfl, by rw [span_self]; exact written_nil _ _ _⟩ ?_) ?_
  · rintro p _ m' hb he ⟨rfl, hw⟩
    exact installMiss_solo hr hc h hm (mem_span.mpr ⟨hb, he⟩) hw
  rintro e m' ⟨_, rfl, _, hw⟩
  rw [span_stop] at hw
  -- the cells of all misses of the chunk hold their final values
  have hchunk : ∀ p ∈ queryChunk d t, ∀ a, installTouch d s query c p a →
      m' a = installed d c out s' m a := hw.1
  -- the total is stored in a cell of its own
  have hne : ∀ p a, installTouch d s query c p a → a ≠ .counters 2 := by
    rintro p a ⟨_, h | h | ⟨_, h⟩ | h⟩ heq <;> rw [heq] at h <;> cases h
  refine ⟨_, rfl, ?_⟩
  dsimp only
  split_ifs with ht
  · -- the last thread knows the total
    have hreach : (List.range d.QUERY_COUNT).length ≤
        chunkBegin d.QUERY_COUNT d.SIMT_THREADS (t + 1) := by
      rw [List.length_range, ht, Nat.sub_add_cancel hr.fits.threads_pos]
      exact le_chunkBegin hr.fits.threads_pos
    have htotal : (missRank d c (chunkBegin d.QUERY_COUNT d.SIMT_THREADS t) : ℤ)
        + localMisses d c t = c.unique_misses.length := by
      unfold localMisses missRank
      rw [← Nat.cast_add, rank_chunkBegin_succ, rank_of_length_le _ _ hreach,
        List.countP_eq_length_filter, positions_eq hr hc, List.length_map]
    have hinside : (Cell.counters 2).Inside d := (by omega : 2 < 4)
    rw [htotal]
    refine solo_write hinside (Or.inr ⟨ht, rfl⟩) ⟨(), rfl, rfl, ?_⟩
    rintro a (⟨p, hp, hpa⟩ | ⟨_, rfl⟩)
    · rw [Function.update_of_ne (hne p a hpa)]
      exact hchunk p hp a hpa
    · rw [Function.update_self]
      rfl
  -- the other threads are done
  · refine ⟨(), rfl, rfl, ?_⟩
    rintro a (⟨p, hp, hpa⟩ | ⟨h, _⟩)
    · exact hchunk p hp a hpa
    · exact absurd h ht

/-- The tables differ from what they were only where some miss touches them. -/
theorem installed_frame {a : Cell} (ha : ∀ t, ¬ installOwn d s query c t a) :
    installed d c out s' m0 a = m0 a := by
  have hT := hr.fits.threads_pos
  have huntouched : ∀ p, MissAt d s query c p → ¬ installTouch d s query c p a := by
    intro p hp htouch
    obtain ⟨t, ht, hmem⟩ := chunk_cover hT hp.lt
    exact ha ⟨t, ht⟩ (Or.inl ⟨p, hmem, htouch⟩)
  unfold installed
  split
  · rename_i i
    split_ifs with hi
    · have hnew : ∀ q, MissAt d s query c q → i ≠ (read query q).toNat := fun q hq heq =>
        huntouched q hq ⟨hq.reported, Or.inr (Or.inl (by rw [heq]))⟩
      rw [fwd_other hr hc h hnew fun q hq h0 heq =>
        huntouched q hq ⟨hq.reported, Or.inr (Or.inr (Or.inl ⟨h0, by rw [heq]⟩))⟩, hm.fwd i hi,
        if_neg]
      -- a claimed token is a miss
      intro hmem
      obtain ⟨⟨p, t⟩, hpt, htok⟩ := List.mem_map.mp hmem
      have hlt := lt_of_getElem?_eq_some (hc.miss_pos _ hpt)
      rw [hr.query_length] at hlt
      have hrep : reports c p = true := by simpa [reports] using ⟨_, hpt⟩
      have hq : read query p = t := by
        unfold SentinelTable.read
        rw [List.getD_eq_getElem?_getD, hc.miss_pos _ hpt]
        rfl
      refine hnew p (missAt hr hc h.enough hlt hrep) ?_
      dsimp only at htok
      omega
    · rfl
  · rename_i v
    split_ifs with hv
    · rw [bwd_other hr hc h fun q hq heq =>
        huntouched q hq ⟨hq.reported, Or.inl (by rw [heq])⟩, hm.bwd v hv]
    · rfl
  · rename_i p
    refine if_neg fun hp => ?_
    exact huntouched p (missAt hr hc h.enough hp.1 hp.2) ⟨hp.2, Or.inr (Or.inr (Or.inr rfl))⟩
  · rename_i i
    have hlast : d.SIMT_THREADS - 1 < d.SIMT_THREADS := by omega
    exact if_neg fun hi => ha ⟨_, hlast⟩ (Or.inr ⟨rfl, by rw [hi]⟩)
  · rfl

/-- **The install phase**, for all threads up to the barrier. -/
theorem install_phase {Post : (Fin d.SIMT_THREADS → Unit) → Store → Prop}
    {rest : Fin d.SIMT_THREADS → Thread Unit}
    (hrest : Correct (Cell.Inside d) Post rest (installed d c out s' m0)) :
    Correct (Cell.Inside d) Post
      (fun t => do installMisses d t (localMisses d c t); Prog.barrier; rest t) m0 :=
  correct_determined_next (installOwn d s query c) (installOwn_disjoint hr hc h) (fun _ => ())
    (installed d c out s' m0) (fun _ ha => installed_frame hr hc h hm ha)
    (fun t => installMisses_solo hr hc h hm t) hrest

end InstallPhase

/-! ## The write-back -/

section WriteBack

variable {m0 : Store}

/-- The slot that position `p` has before the write-back. -/
def foundSlot (s : LookupState) (query : List ℤ) (c : Scan) (out : Outputs) (p : ℕ) : ℤ :=
  if reports c p then read out.slot_ids p
  else if Resident s (read query p) then read s.token_to_slot (read query p).toNat
  else NOT_FOUND

/-- What the write-back needs of the memory it starts in. -/
structure Installed (d : Sizes) (s : LookupState) (query : List ℤ) (c : Scan) (out : Outputs)
    (s' : LookupState) (m : Store) : Prop where
  fwd : ∀ i < d.INDEX_SIZE, m (.token_to_slot i) = some (read s'.token_to_slot i)
  row : ∀ p < d.QUERY_COUNT, m (.query_token_ids p) = some (read query p)
  ids : ∀ p < d.QUERY_COUNT, m (.slot_ids p) = some (foundSlot s query c out p)
  evictable : ∀ i < (evictableSlots s c).length,
    m (.evictable_slots i) = some (read (evictableSlots s c) i)
  hits : ∀ i < (hitSlots s c).length, m (.hit_slots i) = some (read (hitSlots s c) i)
  evictable_count : m (.counters 1) = some (evictableSlots s c).length
  miss_count : m (.counters 2) = some c.unique_misses.length

theorem Partitioned.installed (hm : Partitioned d s query c m0) :
    Installed d s query c out s' (installed d c out s' m0) where
  fwd := fun _ hi => if_pos hi
  row := hm.row
  ids := fun p hp => by
    unfold Simt.installed foundSlot
    dsimp only
    by_cases hrep : reports c p = true
    · rw [if_pos ⟨hp, hrep⟩, if_pos hrep]
    · rw [if_neg fun hh => hrep hh.2, if_neg hrep]
      exact hm.ids p hp
  evictable := hm.evictable
  hits := hm.hits
  evictable_count := hm.evictable_count
  miss_count := rfl

/-- The memory at the end: the oracle's LRU order and slots. -/
def writtenBack (d : Sizes) (out : Outputs) (s' : LookupState) (m0 : Store) : Store
  | .lru_slots p => if p < d.SLOT_COUNT then some (read s'.lru_slots p) else m0 (.lru_slots p)
  | .slot_ids p => if p < d.QUERY_COUNT then some (read out.slot_ids p) else m0 (.slot_ids p)
  | a => m0 a

def writeBackOwn (d : Sizes) (t : Fin d.SIMT_THREADS) (a : Cell) : Prop :=
  (∃ p ∈ gridStride t d.SLOT_COUNT d.SIMT_THREADS, a = .lru_slots p) ∨
    ∃ p ∈ gridStride t d.QUERY_COUNT d.SIMT_THREADS, a = .slot_ids p

/-- A read in the first of two lists. -/
theorem read_append_left {xs ys : List ℤ} {i : ℕ} (hi : i < xs.length) :
    read (xs ++ ys) i = read xs i := by
  unfold SentinelTable.read
  rw [List.getD_append _ _ _ _ hi]

theorem read_append_right {xs ys : List ℤ} {i : ℕ} (hi : xs.length ≤ i) :
    read (xs ++ ys) i = read ys (i - xs.length) := by
  unfold SentinelTable.read
  rw [List.getD_append_right _ _ _ _ hi]

/-- A read in the front part of a list. -/
theorem read_take {xs : List ℤ} {n i : ℕ} (hi : i < n) : read (xs.take n) i = read xs i := by
  unfold SentinelTable.read
  rw [List.getD_eq_getElem?_getD, List.getD_eq_getElem?_getD, List.getElem?_take_of_lt hi]

theorem read_drop {xs : List ℤ} {n i : ℕ} : read (xs.drop n) i = read xs (n + i) := by
  unfold SentinelTable.read
  rw [List.getD_eq_getElem?_getD, List.getD_eq_getElem?_getD, List.getElem?_drop]

variable (hr : Request d s query) (hc : ScanSpec s query query.length c)
  (h : CallSpec s query c out s') (hm : Installed d s query c out s' m0)

include hr hc h

omit hc h in
/-- The two groups make up the LRU order. -/
theorem groups_length : (evictableSlots s c).length + (hitSlots s c).length = d.SLOT_COUNT := by
  have hsum := List.length_eq_countP_add_countP (isHit c) (l := s.lru_slots)
  rw [hr.wf.lru_length, hr.bwd_length] at hsum
  rw [evictableSlots_eq, hitSlots_eq, ← List.countP_eq_length_filter,
    ← List.countP_eq_length_filter, hsum, Nat.add_comm]
  congr 2
  funext z
  simp [notHit, isHit]

omit hr hc in
/-- The three groups of the new LRU order, read position by position. -/
theorem lru_value {p : ℕ} :
    read s'.lru_slots p =
      if p < (evictableSlots s c).length - c.unique_misses.length then
        read (evictableSlots s c) (c.unique_misses.length + p)
      else if p < (evictableSlots s c).length then
        read (evictableSlots s c) (p - ((evictableSlots s c).length - c.unique_misses.length))
      else read (hitSlots s c) (p - (evictableSlots s c).length) := by
  have hle := h.enough
  have hdrop : ((evictableSlots s c).drop c.unique_misses.length).length
      = (evictableSlots s c).length - c.unique_misses.length := List.length_drop
  have htake : ((evictableSlots s c).take c.unique_misses.length).length
      = c.unique_misses.length := by rw [List.length_take, Nat.min_eq_left hle]
  rw [h.lru]
  unfold victimSlots
  split_ifs with h1 h2
  · rw [List.append_assoc, read_append_left (by rw [hdrop]; exact h1), read_drop]
  · rw [List.append_assoc, read_append_right (by rw [hdrop]; omega),
      read_append_left (by rw [hdrop, htake]; omega), hdrop, read_take (by omega)]
  · rw [read_append_right (by rw [List.length_append, hdrop, htake]; omega), List.length_append,
      hdrop, htake, Nat.sub_add_cancel hle]

/-- The slots of the new order fit an `int16_t`. -/
theorem lru_cast {p : ℕ} (hp : p < d.SLOT_COUNT) :
    i16 (read s'.lru_slots p) = read s'.lru_slots p := by
  have hwf := h.wf hr.wf hc
  have hlt : p < s'.lru_slots.length := by rw [hwf.lru_length, h.bwd_length, hr.bwd_length]; exact hp
  obtain ⟨h0, h1⟩ := hwf.mem_lru.mp (read_mem hlt)
  have h16 := hr.fits.slot_i16
  rw [h.bwd_length, hr.bwd_length] at h1
  exact i16_of_lt h0 (by omega)

omit hr hc h in
theorem writeBackOwn_reads (u : Fin d.SIMT_THREADS) (i : ℕ) :
    ¬ writeBackOwn d u (.counters i) ∧ ¬ writeBackOwn d u (.evictable_slots i) ∧
      ¬ writeBackOwn d u (.hit_slots i) ∧ ¬ writeBackOwn d u (.query_token_ids i) ∧
      ¬ writeBackOwn d u (.token_to_slot i) := by
  refine ⟨?_, ?_, ?_, ?_, ?_⟩
  all_goals rintro (⟨p, _, h⟩ | ⟨p, _, h⟩) <;> cases h

include hm

/-- One position of the order, written by its own thread. -/
theorem writeLru_solo {t : Fin d.SIMT_THREADS} {p : ℕ} {m : Store}
    (hmem : p ∈ gridStride t d.SLOT_COUNT d.SIMT_THREADS)
    (hkeep : ∀ a, (∀ q, a ≠ .lru_slots q) → m a = m0 a) :
    Solo (Cell.Inside d) (fun a => writeBackOwn d t a ∨ ∀ u, ¬ writeBackOwn d u a)
      (writeBackOwn d t)
      (fun e m' => ∃ r, e = .ret r ∧
        (∀ a, a = .lru_slots p → m' a = writtenBack d out s' m0 a) ∧
        ∀ a, a ≠ .lru_slots p → m' a = m a)
      (writeLru (evictableSlots s c).length c.unique_misses.length
        ((evictableSlots s c).length - c.unique_misses.length) p) m := by
  have hp := ((mem_gridStride t.isLt).mp hmem).1
  have hle := h.enough
  have hsum := groups_length (c := c) hr
  have hcast := lru_cast hr hc h hp
  have hval := lru_value h (p := p)
  -- the write puts the slot in place
  have hend : ∀ z, z = read s'.lru_slots p →
      (∀ a, a = .lru_slots p →
        update m (.lru_slots p) (some (i16 z)) a = writtenBack d out s' m0 a) ∧
      ∀ a, a ≠ .lru_slots p → update m (.lru_slots p) (some (i16 z)) a = m a := by
    rintro z rfl
    refine ⟨?_, fun a ha => Function.update_of_ne ha _ _⟩
    rintro a rfl
    rw [Function.update_self, hcast]
    exact (if_pos hp).symm
  have hown : writeBackOwn d t (.lru_slots p) := Or.inl ⟨p, hmem, rfl⟩
  unfold writeLru
  split_ifs at hval ⊢ with h1 h2
  · have hi : c.unique_misses.length + p < (evictableSlots s c).length := by omega
    have hin : c.unique_misses.length + p < d.SLOT_COUNT := by omega
    refine solo_read hin (Or.inr fun u => (writeBackOwn_reads u _).2.1)
      ((hkeep _ (by simp)).trans (hm.evictable _ hi)) ?_
    exact solo_write hp hown ⟨(), rfl, hend _ hval.symm⟩
  · have hi : p - ((evictableSlots s c).length - c.unique_misses.length)
        < (evictableSlots s c).length := by omega
    have hin : p - ((evictableSlots s c).length - c.unique_misses.length) < d.SLOT_COUNT := by omega
    refine solo_read hin (Or.inr fun u => (writeBackOwn_reads u _).2.1)
      ((hkeep _ (by simp)).trans (hm.evictable _ hi)) ?_
    exact solo_write hp hown ⟨(), rfl, hend _ hval.symm⟩
  · have hi : p - (evictableSlots s c).length < (hitSlots s c).length := by omega
    have hin : p - (evictableSlots s c).length < d.SLOT_COUNT := by omega
    refine solo_read hin (Or.inr fun u => (writeBackOwn_reads u _).2.2.1)
      ((hkeep _ (by simp)).trans (hm.hits _ hi)) ?_
    exact solo_write hp hown ⟨(), rfl, hend _ hval.symm⟩

/-- A position that still has no slot and whose token is in range is a duplicate
miss. -/
theorem resolveDuplicate_solo {t : Fin d.SIMT_THREADS} {p : ℕ} {m : Store}
    (hmem : p ∈ gridStride t d.QUERY_COUNT d.SIMT_THREADS)
    (hkeep : ∀ a, (∀ q, a ≠ .lru_slots q) → (∀ q, a ≠ .slot_ids q) → m a = m0 a)
    (hids : m (.slot_ids p) = m0 (.slot_ids p)) :
    Solo (Cell.Inside d) (fun a => writeBackOwn d t a ∨ ∀ u, ¬ writeBackOwn d u a)
      (writeBackOwn d t)
      (fun e m' => ∃ r, e = .ret r ∧
        (∀ a, a = .slot_ids p → m' a = writtenBack d out s' m0 a) ∧
        ∀ a, a ≠ .slot_ids p → m' a = m a)
      (resolveDuplicate d p) m := by
  have hp := ((mem_gridStride t.isLt).mp hmem).1
  have hidx := hr.fits.index_i32
  have hown : writeBackOwn d t (.slot_ids p) := Or.inr ⟨p, hmem, rfl⟩
  have hquery : query[p]? = some (read query p) := by
    have hlt : p < query.length := by rw [hr.query_length]; exact hp
    rw [read_of_lt hlt]
    exact List.getElem?_eq_getElem hlt
  have hout := h.ids p _ hquery
  have hrange : InRange s (read query p) ↔ read query p ≥ 0 ∧ read query p < d.INDEX_SIZE := by
    unfold InRange; rw [hr.fwd_length]
  -- the slot found so far is the final one, or the token is a missing one
  have hfound : foundSlot s query c out p = read out.slot_ids p ∨
      foundSlot s query c out p = NOT_FOUND ∧ InRange s (read query p) := by
    unfold foundSlot
    split_ifs with h1 h2
    · exact Or.inl rfl
    · refine Or.inl ?_
      rw [hout, if_pos h2.1, h.kept hr.wf hc h2 (List.mem_of_getElem? hquery)]
    · by_cases h3 : InRange s (read query p)
      · exact Or.inr ⟨rfl, h3⟩
      · refine Or.inl ?_
        rw [hout, if_neg h3]
        rfl
  have hfinal : ∀ z, z = read out.slot_ids p →
      some z = writtenBack d out s' m0 (.slot_ids p) := by
    rintro z rfl
    exact (if_pos hp).symm
  unfold resolveDuplicate
  refine solo_read hp (Or.inr fun u => (writeBackOwn_reads u p).2.2.2.1)
    ((hkeep _ (by simp) (by simp)).trans (hm.row p hp)) ?_
  refine solo_read hp (Or.inl hown) (hids.trans (hm.ids p hp)) ?_
  split_ifs with hdup
  · -- a duplicate reads the mapping that its canonical occurrence installed
    have hin : (read query p).toNat < d.INDEX_SIZE := by omega
    have hu : u32 (read query p) = (read query p).toNat := u32_of_nonneg hdup.2.1 (by omega)
    rw [hu]
    refine solo_read hin (Or.inr fun u => (writeBackOwn_reads u _).2.2.2.2)
      ((hkeep _ (by simp) (by simp)).trans (hm.fwd _ hin)) ?_
    refine solo_write hp hown ⟨(), rfl, ?_, fun a ha => Function.update_of_ne ha _ _⟩
    rintro a rfl
    rw [Function.update_self]
    apply hfinal
    rw [hout, if_pos (hrange.mpr hdup.2)]
  · refine ⟨(), rfl, ?_, fun _ _ => rfl⟩
    rintro a rfl
    rw [hids, hm.ids p hp]
    apply hfinal
    rcases hfound with hf | ⟨hf, hin⟩
    · exact hf
    · exact absurd ⟨hf, hrange.mp hin⟩ hdup

/-- All positions of a thread, first in the order and then in the output. -/
theorem writeBack_solo (t : Fin d.SIMT_THREADS) :
    Solo (Cell.Inside d) (fun a => writeBackOwn d t a ∨ ∀ u, ¬ writeBackOwn d u a)
      (writeBackOwn d t)
      (fun e m => ∃ r, e = .ret r ∧ r = () ∧
        ∀ a, writeBackOwn d t a → m a = writtenBack d out s' m0 a) (writeBack d t) m0 := by
  have hle := h.enough
  have hsum := groups_length (c := c) hr
  have h16 := hr.fits.slot_i16
  -- the unsigned subtraction does not wrap
  have hE : u32 ((evictableSlots s c).length : ℤ) = (evictableSlots s c).length :=
    u32_natCast (by omega)
  have hk : u32 (c.unique_misses.length : ℤ) = c.unique_misses.length := u32_natCast (by omega)
  have hstale : u32 (((evictableSlots s c).length : ℤ) - (c.unique_misses.length : ℤ))
      = (evictableSlots s c).length - c.unique_misses.length := by
    rw [← Nat.cast_sub hle]; exact u32_natCast (by omega)
  unfold writeBack
  refine solo_read (by exact (by omega : 1 < 4)) (Or.inr fun u => (writeBackOwn_reads u 1).1)
    hm.evictable_count ?_
  refine solo_read (by exact (by omega : 2 < 4)) (Or.inr fun u => (writeBackOwn_reads u 2).1)
    hm.miss_count ?_
  rw [hE, hk]
  dsimp only
  rw [hstale]
  apply solo_bind
  refine solo_mono (solo_forEach_written (fun p a => a = .lru_slots p) (writtenBack d out s' m0) _
    ?_) ?_
  · intro pre p suf m hsplit hw
    refine writeLru_solo hr hc h hm (by rw [hsplit]; simp) fun a ha => ?_
    exact hw.2 a fun q _ => ha q
  rintro e m ⟨_, rfl, hlru, hother⟩
  refine ⟨(), rfl, ?_⟩
  refine solo_mono (solo_forEach_written (fun p a => a = .slot_ids p) (writtenBack d out s' m0) _
    ?_) ?_
  · intro pre p suf m' hsplit hw
    have hnodup : (gridStride t d.QUERY_COUNT d.SIMT_THREADS).Nodup := gridStride_nodup t.pos
    refine resolveDuplicate_solo hr hc h hm (by rw [hsplit]; simp) (fun a ha ha' => ?_) ?_
    · rw [hw.2 a fun q _ => ha' q, hother a fun q _ => ha q]
    · rw [hw.2 _ fun q hq heq => ?_, hother _ fun q _ heq => by cases heq]
      rw [hsplit] at hnodup
      obtain rfl := Cell.slot_ids.inj heq
      exact (List.nodup_append.mp hnodup).2.2 _ hq _ (by simp) rfl
  rintro e m' ⟨_, rfl, hids, hother'⟩
  refine ⟨(), rfl, rfl, ?_⟩
  rintro a (⟨p, hp, rfl⟩ | ⟨p, hp, rfl⟩)
  · rw [hother' _ fun q _ heq => by cases heq]
    exact hlru p hp _ rfl
  · exact hids p hp _ rfl

/-- **The last phase**: after it all threads have returned. -/
theorem writeBack_phase {Post : (Fin d.SIMT_THREADS → Unit) → Store → Prop}
    (hpost : Post (fun _ => ()) (writtenBack d out s' m0)) :
    Correct (Cell.Inside d) Post (fun t => writeBack d t) m0 := by
  have hT := hr.fits.threads_pos
  refine correct_determined_last (writeBackOwn d) ?_ (fun _ => ()) (writtenBack d out s' m0) ?_
    (fun t => writeBack_solo hr hc h hm t) hpost
  · rintro t u a (⟨p, hp, rfl⟩ | ⟨p, hp, rfl⟩) (⟨q, hq, heq⟩ | ⟨q, hq, heq⟩)
    · cases heq; exact Fin.ext (gridStride_unique t.isLt u.isLt hp hq)
    · cases heq
    · cases heq
    · cases heq; exact Fin.ext (gridStride_unique t.isLt u.isLt hp hq)
  · intro a ha
    unfold writtenBack
    split
    · rename_i p
      exact if_neg fun hp =>
        ha ⟨p % d.SIMT_THREADS, Nat.mod_lt _ hT⟩ (Or.inl ⟨p, gridStride_cover hT hp, rfl⟩)
    · rename_i p
      exact if_neg fun hp =>
        ha ⟨p % d.SIMT_THREADS, Nat.mod_lt _ hT⟩ (Or.inr ⟨p, gridStride_cover hT hp, rfl⟩)
    · rfl

end WriteBack

end Misses

end AsuAscend.Simt
