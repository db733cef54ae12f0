/-
The residents in the order in which they have been used.

The LRU order is a list of slots. Read through `slot_to_token` it is a list of tokens
(`tokenOrder`), and on these a call that returns is one batch of the batch LRU of
`BatchLru`, whatever slots the tokens sit in (`CallSpec.tokenOrder`): the slot numbers,
the victims and the empty slots leave no trace. So two caches with the same residents in
the same order stay comparable if one of them has more slots: it never reports a miss
that the smaller one does not report (`more_slots_fewer_misses`).

## What is proved

* `residents_follow_batch_lru`: over any run of returning calls the residents, read in the
  order of their last use, are those of the batch LRU on the rows, and a position reports a
  miss exactly if its token is not among them and comes up there first.
* `more_slots_fewer_misses`: of two caches with comparable contents the larger one reports no
  miss that the smaller one does not.

Both are about caches whose empty slots come first: an empty slot in the middle of the order
would let a resident be evicted before it is used.
-/
import AsuAscend.Lib.BatchLru
import AsuAscend.Lookup.EmptyFirst

set_option autoImplicit false

open SentinelTable InverseTables Compaction

namespace AsuAscend.Lookup

/-- The tokens in some slots, those of empty ones left out. -/
def contents (s : LookupState) (slots : List ℤ) : List ℤ :=
  (slots.map fun z => read s.slot_to_token z.toNat).filter (· ≠ NOT_FOUND)

/-- The residents, the least recently used first. -/
def tokenOrder (s : LookupState) : List ℤ := contents s s.lru_slots

/-- The row without padding. -/
def inRangeRow (s : LookupState) (query : List ℤ) : List ℤ := query.filter (InRange s ·)

section

variable {s s' : LookupState} {slots slots' : List ℤ}

theorem contents_append : contents s (slots ++ slots') = contents s slots ++ contents s slots' := by
  unfold contents
  rw [List.map_append, List.filter_append]

/-- Only the tokens in the slots that are listed matter. -/
theorem contents_congr
    (h : ∀ z ∈ slots, read s'.slot_to_token z.toNat = read s.slot_to_token z.toNat) :
    contents s' slots = contents s slots := by
  unfold contents
  rw [List.map_congr_left h]

/-- A token is in the list if it is in one of the slots. -/
theorem mem_contents {t : ℤ} : t ∈ contents s slots ↔
    (∃ z ∈ slots, read s.slot_to_token z.toNat = t) ∧ t ≠ -1 := by
  unfold contents NOT_FOUND
  rw [List.mem_filter, List.mem_map, decide_eq_true_eq]

/-- A selection of slots is a selection of their tokens. -/
theorem contents_filter {P Q : ℤ → Bool} (h : ∀ z ∈ slots, read s.slot_to_token z.toNat ≠ -1 →
    P z = Q (read s.slot_to_token z.toNat)) :
    contents s (slots.filter P) = (contents s slots).filter Q := by
  unfold contents NOT_FOUND
  rw [List.filter_map, List.filter_map, List.filter_map, List.filter_filter, List.filter_filter]
  congr 1
  refine List.filter_congr fun z hz => ?_
  simp only [Function.comp_apply]
  by_cases hne : read s.slot_to_token z.toNat = -1
  · simp [hne]
  · rw [h z hz hne]
    exact Bool.and_comm _ _

/-- Slots with the empty ones first lose tokens once the empty ones have gone. -/
theorem contents_drop (h : MarkedFirst (isEmpty s) slots) (k : ℕ) :
    contents s (slots.drop k) = (contents s slots).drop (k - slots.countP (isEmpty s)) := by
  set empty := slots.filter (isEmpty s) with hempty
  set occupied := slots.filter fun z => !isEmpty s z with hocc
  have hsplit : slots = empty ++ occupied := h.eq_filter_append
  have hnone : ∀ k, contents s (empty.drop k) = [] := by
    intro k
    refine List.eq_nil_iff_forall_not_mem.mpr fun t ht => ?_
    obtain ⟨⟨z, hz, rfl⟩, hne⟩ := mem_contents.mp ht
    exact hne (isEmpty_iff.mp (List.of_mem_filter (List.mem_of_mem_drop hz)))
  have hall : ∀ k, contents s (occupied.drop k) =
      (occupied.drop k).map fun z => read s.slot_to_token z.toNat := by
    intro k
    refine List.filter_eq_self.mpr fun t ht => ?_
    obtain ⟨z, hz, rfl⟩ := List.mem_map.mp ht
    have hz' := List.of_mem_filter (List.mem_of_mem_drop hz)
    rw [Bool.not_eq_true', ← Bool.not_eq_true, isEmpty_iff] at hz'
    exact decide_eq_true hz'
  have hcount : slots.countP (isEmpty s) = empty.length := List.countP_eq_length_filter
  have hnone0 := hnone 0
  have hall0 := hall 0
  rw [List.drop_zero] at hnone0 hall0
  rw [hcount, hsplit, List.drop_append, contents_append, contents_append, hnone, hall, hnone0, hall0,
    List.nil_append, List.nil_append, List.map_drop]

/-- Each slot is empty or holds one token. -/
theorem contents_length : (contents s slots).length + slots.countP (isEmpty s) = slots.length := by
  have hocc : (contents s slots).length = slots.countP fun z => !isEmpty s z := by
    unfold contents
    rw [List.filter_map, List.length_map, List.countP_eq_length_filter]
    congr 1
    refine List.filter_congr fun z _ => ?_
    rw [Bool.eq_iff_iff, Function.comp_apply, decide_eq_true_eq, Bool.not_eq_true', ← Bool.not_eq_true,
      isEmpty_iff]
    rfl
  rw [hocc, List.length_eq_countP_add_countP (isEmpty s) (l := slots), Nat.add_comm]
  congr 2
  funext z
  cases isEmpty s z <;> rfl

theorem Wf.mem_tokenOrder (hwf : Wf s) {t : ℤ} : t ∈ tokenOrder s ↔ Resident s t := by
  unfold tokenOrder
  rw [mem_contents]
  constructor
  · rintro ⟨⟨z, hz, rfl⟩, hne⟩
    have h0 := (hwf.mem_lru.mp hz).1
    have hocc : isEmpty s z = false := by
      rw [← Bool.not_eq_true, isEmpty_iff]
      exact hne
    obtain ⟨i, hr, rfl⟩ := hwf.occupied h0 hocc
    have hheld := hwf.slot_holds hr
    rw [Int.toNat_natCast] at hheld
    rw [hheld]
    exact hr
  · intro hr
    have h0 := hr.1.1
    exact ⟨⟨_, hwf.mem_lru.mpr ⟨hr.2, hwf.slot_lt hr.2⟩, hwf.slot_holds hr⟩, by omega⟩

/-- A token in range that is not in the order is missing. -/
theorem Wf.missing_iff (hwf : Wf s) {t : ℤ} : Missing s t ↔ InRange s t ∧ t ∉ tokenOrder s := by
  rw [hwf.mem_tokenOrder]
  constructor
  · intro hm
    refine ⟨hm.1, fun hr => ?_⟩
    have := hr.2
    have := hm.2
    omega
  · rintro ⟨hin, hnr⟩
    exact (hwf.resident_or_missing hin).resolve_left hnr

theorem Wf.tokenOrder_nodup (hwf : Wf s) : (tokenOrder s).Nodup := by
  unfold tokenOrder contents NOT_FOUND
  rw [List.filter_map]
  refine List.Nodup.map_on ?_ (hwf.lru_nodup.filter _)
  -- a token has one slot
  intro z hz z' hz' heq
  have hslot : ∀ {z : ℤ}, z ∈ s.lru_slots → read s.slot_to_token z.toNat ≠ -1 →
      ∃ t, Resident s t ∧ read s.slot_to_token z.toNat = t ∧ read s.token_to_slot t.toNat = z := by
    intro z hz hne
    have hocc : isEmpty s z = false := by
      rw [← Bool.not_eq_true, isEmpty_iff]
      exact hne
    obtain ⟨i, hr, rfl⟩ := hwf.occupied (hwf.mem_lru.mp hz).1 hocc
    have hheld := hwf.slot_holds hr
    rw [Int.toNat_natCast] at hheld
    exact ⟨i, hr, hheld, by rw [Int.toNat_natCast]⟩
  obtain ⟨hmem, hne⟩ := List.mem_filter.mp hz
  obtain ⟨hmem', hne'⟩ := List.mem_filter.mp hz'
  obtain ⟨t, _, ht, rfl⟩ := hslot hmem (by simpa using hne)
  obtain ⟨t', _, ht', rfl⟩ := hslot hmem' (by simpa using hne')
  rw [← ht, ← ht', heq]

/-- The resident tokens and the empty slots make up the cache. -/
theorem Wf.tokenOrder_length (hwf : Wf s) :
    (tokenOrder s).length + s.lru_slots.countP (isEmpty s) = s.slot_to_token.length :=
  contents_length.trans hwf.lru_length

end

/-! ## One call -/

section

variable {s s' : LookupState} {query : List ℤ} {c : Scan} {out : Outputs}

/-- A slot that holds a token is hit if the row asks for the token. -/
theorem hit_iff_asked (hwf : Wf s) (hc : ScanSpec s query query.length c) {z : ℤ}
    (hz : z ∈ s.lru_slots) (hne : read s.slot_to_token z.toNat ≠ -1) :
    z ∈ c.hit_slot_set ↔ read s.slot_to_token z.toNat ∈ inRangeRow s query := by
  have hocc : isEmpty s z = false := by
    rw [← Bool.not_eq_true, isEmpty_iff]
    exact hne
  obtain ⟨i, hr, rfl⟩ := hwf.occupied (hwf.mem_lru.mp hz).1 hocc
  have hheld := hwf.slot_holds hr
  rw [Int.toNat_natCast] at hheld
  rw [hheld, hc.hit_iff]
  unfold inRangeRow
  rw [List.mem_filter, decide_eq_true_eq]
  constructor
  · rintro ⟨t, ht, hrt, heq⟩
    obtain rfl : t = (i : ℤ) := hwf.slot_inj hrt hr (by rw [heq, Int.toNat_natCast])
    exact ⟨ht, hrt.1⟩
  · rintro ⟨ht, hin⟩
    exact ⟨i, ht, hr, by rw [Int.toNat_natCast]⟩

/-- The tokens that are hit, in their order. -/
theorem contents_hitSlots (hwf : Wf s) (hc : ScanSpec s query query.length c) :
    contents s (hitSlots s c) = (tokenOrder s).filter (· ∈ inRangeRow s query) :=
  contents_filter fun z hz hne => by
    rw [Bool.eq_iff_iff, decide_eq_true_eq, decide_eq_true_eq]
    exact hit_iff_asked hwf hc hz hne

theorem contents_evictableSlots (hwf : Wf s) (hc : ScanSpec s query query.length c) :
    contents s (evictableSlots s c) = (tokenOrder s).filter (· ∉ inRangeRow s query) :=
  contents_filter fun z hz hne => by
    rw [Bool.eq_iff_iff, decide_eq_true_eq, decide_eq_true_eq]
    exact not_congr (hit_iff_asked hwf hc hz hne)

/-- The misses come in the order of the row. -/
theorem unique_misses_eq (hwf : Wf s) (hc : ScanSpec s query query.length c)
    (hfirst : FirstOccurrences query c) : c.unique_misses.map Prod.snd =
      (BatchLru.firsts (inRangeRow s query)).filter (· ∉ tokenOrder s) := by
  unfold inRangeRow
  rw [BatchLru.firsts_filter, List.filter_filter]
  refine BatchLru.eq_filter_firsts (fun t => ?_) hc.miss_nodup ?_
  · rw [hc.miss_iff, Bool.and_eq_true, decide_eq_true_eq, decide_eq_true_eq, hwf.missing_iff,
      and_comm (a := InRange s t)]
  · -- a miss is reported where its token first occurs
    have hidx : ∀ m ∈ c.unique_misses, query.idxOf m.2 = m.1 := by
      intro m hm
      have hpos := hc.miss_pos m hm
      obtain ⟨hlt, hget⟩ := List.getElem?_eq_some_iff.mp hpos
      refine le_antisymm ?_ ?_
      · by_contra hgt
        have hne := List.not_of_lt_findIdx (not_le.mp hgt)
        rw [hget, beq_self_eq_true] at hne
        cases hne
      · exact hfirst m hm _ (List.getElem?_idxOf (List.mem_of_getElem? hpos))
    rw [List.pairwise_map]
    refine List.Pairwise.imp_of_mem ?_ (List.pairwise_map.mp hc.pos_sorted)
    intro m m' hm hm' hlt
    rw [hidx m hm, hidx m' hm']
    exact hlt

/-- The tokens in the victim slots afterwards, slot by slot. -/
theorem CallSpec.contents_victimSlots (h : CallSpec s query c out s') (hwf : Wf s)
    (hc : ScanSpec s query query.length c) :
    contents s' (victimSlots s c) = c.unique_misses.map Prod.snd := by
  have hlen : (victimSlots s c).length = c.unique_misses.length := by
    unfold victimSlots
    rw [List.length_take, Nat.min_eq_left h.enough]
  have hheld : ((victimSlots s c).map fun z => read s'.slot_to_token z.toNat) =
      c.unique_misses.map Prod.snd := by
    refine List.ext_getElem (by rw [List.length_map, List.length_map, hlen]) fun i h1 h2 => ?_
    rw [List.length_map] at h1 h2
    have hie : i < (evictableSlots s c).length := lt_of_lt_of_le h2 h.enough
    -- the `i`-th miss is installed in the `i`-th victim slot
    have hpair : ((evictableSlots s c)[i].toNat, (c.unique_misses[i].2).toNat) ∈ missPairs s c := by
      refine List.mem_map.mpr ⟨(c.unique_misses[i].2, (evictableSlots s c)[i]), ?_, rfl⟩
      refine List.mem_iff_getElem.mpr ⟨i, by simp [h2, hie], ?_⟩
      rw [List.getElem_zip, List.getElem_map]
    have hinst := installAll_bwd_mem (p := (tab s.token_to_slot, tab s.slot_to_token))
      (missPairs_fresh hwf hc h.enough).slots hpair
    rw [← h.bwd_tab, tab_eq_some] at hinst
    have h0 := ((hc.miss_iff _).mp (List.mem_map_of_mem (List.getElem_mem h2))).2.1.1
    rw [List.getElem_map, List.getElem_map]
    simp only [victimSlots, List.getElem_take]
    rw [hinst]
    omega
  unfold contents
  rw [hheld, List.filter_eq_self]
  intro t ht
  have h0 := ((hc.miss_iff t).mp ht).2.1.1
  unfold NOT_FOUND
  rw [decide_eq_true_eq]
  omega

/-- **A call is a batch of the LRU.** -/
theorem CallSpec.tokenOrder (h : CallSpec s query c out s') (hwf : Wf s)
    (hc : ScanSpec s query query.length c) (hfirst : FirstOccurrences query c) (hempty : EmptyFirst s) :
    tokenOrder s' =
      BatchLru.step s.slot_to_token.length (tokenOrder s) (inRangeRow s query) := by
  set k := c.unique_misses.length with hk
  set held := contents s (evictableSlots s c) with hheld
  have hfirstEmpty := evictable_emptyFirst (c := c) hempty
  have hstale : contents s' ((evictableSlots s c).drop k) =
      held.drop (k - s.lru_slots.countP (isEmpty s)) := by
    rw [contents_congr fun z hz => ?_, contents_drop hfirstEmpty, countP_evictable hwf hc,
      hwf.countP_isEmpty]
    have h0 := ((mem_evictableSlots hwf).mp (List.mem_of_mem_drop hz)).1.1
    refine h.bwd_kept hwf ?_
    rw [Int.toNat_of_nonneg h0]
    exact stale_notVictim hwf hz
  have hhit : contents s' (hitSlots s c) = contents s (hitSlots s c) := by
    refine contents_congr fun z hz => h.bwd_kept hwf ?_
    obtain ⟨⟨h0, _⟩, hin⟩ := (mem_hitSlots hwf).mp hz
    rw [Int.toNat_of_nonneg h0]
    exact fun hv => ((mem_evictableSlots hwf).mp (victimSlots_subset hv)).2 hin
  have hnew : Lookup.tokenOrder s' = held.drop (k - s.lru_slots.countP (isEmpty s)) ++
      c.unique_misses.map Prod.snd ++ contents s (hitSlots s c) := by
    unfold Lookup.tokenOrder
    rw [h.lru, contents_append, contents_append, hstale, hhit, h.contents_victimSlots hwf hc]
  have htouch : BatchLru.touch (Lookup.tokenOrder s) (inRangeRow s query) =
      held ++ c.unique_misses.map Prod.snd ++ contents s (hitSlots s c) := by
    unfold BatchLru.touch
    rw [hheld, contents_evictableSlots hwf hc, unique_misses_eq hwf hc hfirst,
      contents_hitSlots hwf hc]
  -- the residents that leave are as many as the misses that found no empty slot
  have hsplit : held.length + (contents s (hitSlots s c)).length = (Lookup.tokenOrder s).length := by
    have hperm := (List.filter_append_perm (· ∈ inRangeRow s query) (Lookup.tokenOrder s)).length_eq
    have hnot : ((Lookup.tokenOrder s).filter fun t => !decide (t ∈ inRangeRow s query)) =
        (Lookup.tokenOrder s).filter (· ∉ inRangeRow s query) := by simp
    rw [List.length_append, hnot] at hperm
    rw [hheld, contents_evictableSlots hwf hc, contents_hitSlots hwf hc]
    omega
  have hlen := hwf.tokenOrder_length
  have hroom : k - s.lru_slots.countP (isEmpty s) ≤ held.length := by
    have hle := h.enough
    have hevict : held.length + (evictableSlots s c).countP (isEmpty s) = (evictableSlots s c).length :=
      contents_length
    rw [countP_evictable hwf hc, ← hwf.countP_isEmpty] at hevict
    omega
  rw [hnew, BatchLru.step, htouch]
  simp only [List.length_append, List.length_map]
  rw [show held.length + c.unique_misses.length + (contents s (hitSlots s c)).length -
      s.slot_to_token.length = k - s.lru_slots.countP (isEmpty s) by omega,
    List.append_assoc, List.append_assoc, List.drop_append_of_le_length hroom]

/-- What counts as a token is the same for every call of a run. -/
theorem CallSpec.inRangeRow_eq (h : CallSpec s query c out s') : inRangeRow s' = inRangeRow s := by
  funext row
  unfold inRangeRow
  simp only [h.inRange_iff]

/-- The positions that report a miss: where a missing token first occurs. -/
theorem CallSpec.mask_first (h : CallSpec s query c out s') (hc : ScanSpec s query query.length c)
    (hfirst : FirstOccurrences query c) {p : ℕ} : out.miss_mask.getD p false = true ↔
      ∃ t, query[p]? = some t ∧ Missing s t ∧ t ∉ query.take p := by
  rw [h.mask_iff hc]
  constructor
  · rintro ⟨t, ht⟩
    refine ⟨t, hc.miss_pos _ ht, ((hc.miss_iff t).mp (List.mem_map_of_mem ht)).2, fun hbefore => ?_⟩
    obtain ⟨q, hq, hget⟩ := List.mem_take_iff_getElem.mp hbefore
    have := hfirst _ ht q (List.getElem?_eq_some_iff.mpr ⟨by omega, hget⟩)
    dsimp only at this
    omega
  · rintro ⟨t, hp, hm, hnot⟩
    obtain ⟨⟨q, t'⟩, hmem, rfl⟩ :=
      List.mem_map.mp ((hc.miss_iff t).mpr ⟨List.mem_of_getElem? hp, hm⟩)
    have hle : q ≤ p := hfirst _ hmem p hp
    obtain ⟨hlt, hget⟩ := List.getElem?_eq_some_iff.mp (hc.miss_pos _ hmem)
    rcases Nat.lt_or_eq_of_le hle with hlt' | rfl
    · exact absurd (List.mem_take_iff_getElem.mpr ⟨q, by omega, hget⟩) hnot
    · exact ⟨t', hmem⟩

end

/-! ## Runs -/

/-- **Residents follow the batch LRU.** Whatever slots the tokens are in, after every call of a run
the residents are those of the LRU of this capacity that is given the rows as batches, in its
order; a token misses exactly if that LRU does not hold it when the call begins, and is reported
once, where the row first asks for it. -/
theorem residents_follow_batch_lru (s : LookupState) (hwf : Wf s) (hempty : EmptyFirst s)
    (rows : List (List ℤ)) {calls : List LookupCall} (hrun : runCalls s rows = .ok calls) (i : ℕ)
    (hi : i < calls.length) : rows[i]? = some calls[i].query ∧
    tokenOrder calls[i].after = BatchLru.run s.slot_to_token.length (tokenOrder s)
        ((rows.take (i + 1)).map (inRangeRow s)) ∧
      ∀ p, calls[i].out.miss_mask.getD p false = true ↔
        ∃ t, calls[i].query[p]? = some t ∧ InRange s t ∧ t ∉ calls[i].query.take p ∧
          t ∉ BatchLru.run s.slot_to_token.length (tokenOrder s)
            ((rows.take i).map (inRangeRow s)) := by
  induction rows generalizing s calls i with
  | nil =>
      rw [← Except.ok.inj hrun] at hi
      exact absurd hi (Nat.not_lt_zero i)
  | cons query rows ih =>
      obtain ⟨out, s', rest, hcall, hrest, rfl⟩ := runCalls_cons hrun
      obtain ⟨c, hc, hfirst, h⟩ := lookup_ok hwf hcall
      have horder := h.tokenOrder hwf hc hfirst hempty
      cases i with
      | zero =>
          refine ⟨rfl, horder, fun p => ?_⟩
          show out.miss_mask.getD p false = true ↔ _
          rw [h.mask_first hc hfirst]
          refine exists_congr fun t => and_congr_right fun _ => ?_
          rw [hwf.missing_iff, and_assoc, and_comm (a := t ∉ tokenOrder s)]
          rfl
      | succ i =>
          -- the calls after the first one are a run from the state it leaves
          have := ih s' (h.wf hwf hc) (h.emptyFirst hwf hc hempty) hrest i
            (by simpa using hi)
          rw [h.inRangeRow_eq, h.bwd_length, horder] at this
          simp only [h.inRange_iff] at this
          exact this

/-- Two calls on a cache of four slots. -/
theorem residents_follow_batch_lru_two_calls : ∃ calls,
    runCalls ⟨[0, 1, 2, 3, -1, -1], [0, 1, 2, 3], [0, 1, 2, 3]⟩ [[4, 4, -1, 1], [5, 4, 9]] = .ok calls ∧
      ∃ hi : 1 < calls.length, tokenOrder calls[1].after =
        BatchLru.run 4 [0, 1, 2, 3] ([[4, 4, -1, 1], [5, 4, 9]].map
          (inRangeRow ⟨[0, 1, 2, 3, -1, -1], [0, 1, 2, 3], [0, 1, 2, 3]⟩)) := by
  refine ⟨[⟨[4, 4, -1, 1], ⟨[0, 0, -1, 1], [true, false, false, false]⟩,
      ⟨[-1, 1, 2, 3, 0, -1], [4, 1, 2, 3], [2, 3, 0, 1]⟩⟩,
    ⟨[5, 4, 9], ⟨[2, 0, -1], [true, false, false]⟩,
      ⟨[-1, 1, -1, 3, 0, 2], [4, 1, 5, 3], [3, 1, 2, 0]⟩⟩], by decide, by decide, ?_⟩
  exact (residents_follow_batch_lru ⟨[0, 1, 2, 3, -1, -1], [0, 1, 2, 3], [0, 1, 2, 3]⟩ (by decide)
    (by decide) [[4, 4, -1, 1], [5, 4, 9]] (by decide) 1 (by decide)).2.1

/-! ## More slots

`Comparable` relates two states of different sizes (`BatchLru.Stacked`). As long as the smaller one
has never been full they have the same residents in the same order. After that its residents are
among those of the larger one, and what the larger one has behind each of them, besides, fits
into the additional slots. A call keeps this because the batch LRU does; the slots themselves
are not compared. -/

/-- The second cache has more slots and, as far as the first one can tell, the same history. -/
structure Comparable (s₁ s₂ : LookupState) (d : ℕ) : Prop where
  wf₁ : Wf s₁
  wf₂ : Wf s₂
  empty₁ : EmptyFirst s₁
  empty₂ : EmptyFirst s₂
  index : s₂.token_to_slot.length = s₁.token_to_slot.length
  slots : s₂.slot_to_token.length = s₁.slot_to_token.length + d
  stacked : BatchLru.Stacked s₁.slot_to_token.length d (tokenOrder s₁) (tokenOrder s₂)

/-- The second call hits wherever the first one does, and leaves the same tokens resident and
more. -/
structure FewerMisses (c₁ c₂ : LookupCall) : Prop where
  query : c₂.query = c₁.query
  mask : ∀ p, c₂.out.miss_mask.getD p false = true → c₁.out.miss_mask.getD p false = true
  resident : ∀ t, Resident c₁.after t → Resident c₂.after t

section

variable {s₁ s₂ s₁' : LookupState} {query : List ℤ} {d : ℕ} {out₁ : Outputs}

/-- The two caches have the same tokens in range. -/
theorem Comparable.inRange_iff (h : Comparable s₁ s₂ d) {t : ℤ} : InRange s₂ t ↔ InRange s₁ t := by
  unfold InRange
  rw [h.index]

/-- What is resident in the smaller cache is so in the larger one. -/
theorem Comparable.resident (h : Comparable s₁ s₂ d) {t : ℤ} (hr : Resident s₁ t) : Resident s₂ t :=
  h.wf₂.mem_tokenOrder.mp (h.stacked.subset (h.wf₁.mem_tokenOrder.mpr hr))

/-- A call that returns has asked for no more tokens than there are slots. -/
theorem rowTokens_card_le (hwf : Wf s₁) (hcall : lookup_allocate_evict query s₁ = .ok (out₁, s₁')) :
    (rowTokens s₁ query).card ≤ s₁.slot_to_token.length := by
  obtain ⟨c, hc, _, h⟩ := lookup_ok hwf hcall
  have hwf' := h.wf hwf hc
  have hsub : rowTokens s₁ query ⊆ (tokenOrder s₁').toFinset := by
    intro t ht
    obtain ⟨htq, hin⟩ := mem_rowTokens.mp ht
    exact List.mem_toFinset.mpr (hwf'.mem_tokenOrder.mpr (h.resident hwf hc htq hin))
  have hle := Finset.card_le_card hsub
  rw [List.toFinset_card_of_nodup hwf'.tokenOrder_nodup] at hle
  have := hwf'.tokenOrder_length
  rw [h.bwd_length] at this
  omega

/-- **One call.** -/
theorem Comparable.call (h : Comparable s₁ s₂ d)
    (hcall : lookup_allocate_evict query s₁ = .ok (out₁, s₁')) : ∃ out₂ s₂',
      lookup_allocate_evict query s₂ = .ok (out₂, s₂') ∧ Comparable s₁' s₂' d ∧
      FewerMisses ⟨query, out₁, s₁'⟩ ⟨query, out₂, s₂'⟩ := by
  have hrow : inRangeRow s₂ query = inRangeRow s₁ query := by
    unfold inRangeRow
    simp only [h.inRange_iff]
  -- what fits in fewer slots fits in more
  have hfit : (∅ ∪ rowTokens s₂ query).card ≤ s₂.slot_to_token.length := by
    have hsame : rowTokens s₂ query = rowTokens s₁ query := congrArg List.toFinset hrow
    have := rowTokens_card_le h.wf₁ hcall
    rw [Finset.empty_union, hsame, h.slots]
    omega
  obtain ⟨_, out₂, s₂', hcall₂, _, _, _, _⟩ := window_step h.wf₂ (windowInv_empty s₂) hfit
  obtain ⟨c₁, hc₁, hfirst₁, h₁⟩ := lookup_ok h.wf₁ hcall
  obtain ⟨c₂, hc₂, hfirst₂, h₂⟩ := lookup_ok h.wf₂ hcall₂
  have hnext : Comparable s₁' s₂' d := by
    refine ⟨h₁.wf h.wf₁ hc₁, h₂.wf h.wf₂ hc₂, h₁.emptyFirst h.wf₁ hc₁ h.empty₁,
      h₂.emptyFirst h.wf₂ hc₂ h.empty₂, ?_, ?_, ?_⟩
    · rw [h₂.fwd_length, h₁.fwd_length, h.index]
    · rw [h₂.bwd_length, h₁.bwd_length, h.slots]
    · rw [h₁.tokenOrder h.wf₁ hc₁ hfirst₁ h.empty₁, h₂.tokenOrder h.wf₂ hc₂ hfirst₂ h.empty₂,
        hrow, h₁.bwd_length, h.slots]
      exact h.stacked.step _
  refine ⟨out₂, s₂', hcall₂, hnext, rfl, fun p hp => ?_, fun t => hnext.resident⟩
  obtain ⟨t, hget, hm, hnot⟩ := (h₂.mask_first hc₂ hfirst₂).mp hp
  rw [h.wf₂.missing_iff] at hm
  refine (h₁.mask_first hc₁ hfirst₁).mpr ⟨t, hget, h.wf₁.missing_iff.mpr ⟨?_, fun hheld => ?_⟩, hnot⟩
  · exact h.inRange_iff.mp hm.1
  · exact hm.2 (h.stacked.subset hheld)

end

/-- **More slots, fewer misses.** Take two caches with the same residents in the same LRU order, the
second one with more slots. Whatever rows they are then given, as long as the first one raises
nothing the second one raises nothing; in every call it reports a miss only where the first one
does, and after it, it holds all that the first one holds. -/
theorem more_slots_fewer_misses (s₁ s₂ : LookupState) (h₁ : Wf s₁) (h₂ : Wf s₂)
    (hempty₁ : EmptyFirst s₁) (hempty₂ : EmptyFirst s₂)
    (hindex : s₂.token_to_slot.length = s₁.token_to_slot.length)
    (hslots : s₁.slot_to_token.length ≤ s₂.slot_to_token.length)
    (horder : tokenOrder s₂ = tokenOrder s₁) (rows : List (List ℤ)) {calls₁ : List LookupCall}
    (hrun : runCalls s₁ rows = .ok calls₁) :
    ∃ calls₂, runCalls s₂ rows = .ok calls₂ ∧ List.Forall₂ FewerMisses calls₁ calls₂ := by
  obtain ⟨d, hd⟩ := Nat.exists_eq_add_of_le hslots
  have hlen := h₁.tokenOrder_length
  have h : Comparable s₁ s₂ d := ⟨h₁, h₂, hempty₁, hempty₂, hindex, hd,
    Or.inl ⟨horder.symm, h₁.tokenOrder_nodup, by omega⟩⟩
  clear hlen horder hslots hindex hd
  induction rows generalizing s₁ s₂ calls₁ with
  | nil =>
      rw [← Except.ok.inj hrun]
      exact ⟨[], rfl, .nil⟩
  | cons query rows ih =>
      obtain ⟨out₁, s₁', rest, hcall, hrest, rfl⟩ := runCalls_cons hrun
      obtain ⟨out₂, s₂', hcall₂, hnext, hfewer⟩ := h.call hcall
      obtain ⟨calls₂, hrun₂, hall⟩ := ih s₁' s₂' hnext.wf₁ hnext.wf₂ hnext.empty₁ hnext.empty₂
        hrest hnext
      refine ⟨⟨query, out₂, s₂'⟩ :: calls₂, ?_, .cons hfewer hall⟩
      rw [runCalls, hcall₂]
      simp only [bind, Except.bind, hrun₂, pure, Except.pure]

/-- Two slots against three: the row that comes again misses in the smaller cache alone. -/
theorem more_slots_fewer_misses_three_slots :
    ∃ calls₂, runCalls ⟨[-1, -1, -1, -1], [-1, -1, -1], [0, 1, 2]⟩ [[0, 1], [2], [0, 0]] = .ok calls₂ ∧
      List.Forall₂ FewerMisses
        [⟨[0, 1], ⟨[0, 1], [true, true]⟩, ⟨[0, 1, -1, -1], [0, 1], [0, 1]⟩⟩,
          ⟨[2], ⟨[0], [true]⟩, ⟨[-1, 1, 0, -1], [2, 1], [1, 0]⟩⟩,
          ⟨[0, 0], ⟨[1, 1], [true, false]⟩, ⟨[1, -1, 0, -1], [2, 0], [0, 1]⟩⟩] calls₂ :=
  more_slots_fewer_misses ⟨[-1, -1, -1, -1], [-1, -1], [0, 1]⟩
    ⟨[-1, -1, -1, -1], [-1, -1, -1], [0, 1, 2]⟩ (by decide) (by decide) (by decide) (by decide)
    (by decide) (by decide) (by decide) [[0, 1], [2], [0, 0]] (by decide)

end AsuAscend.Lookup
