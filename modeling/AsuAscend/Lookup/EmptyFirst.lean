/-
Empty slots are used before residents, if the LRU order begins with them.

Nothing in `lookup_allocate_evict` looks at emptiness when it chooses victims. But the
slots that are empty before a call are never hit, so that they lie at the front of
the evictable ones; the slots that a call fills or hits go to the end of the order.
`EmptyFirst` is therefore kept by every call (`CallSpec.emptyFirst`), and a call with
more misses than empty slots takes over all of these and invalidates one resident for
each other miss (`CallSpec.invalidated_card`).

## Why the condition is kept

The order after a call consists of three pieces: the evictable slots that were not needed, the
victims and the hit slots. The empty slots that are left are among the first, where they keep
their places; the other two pieces have no empty slot in them. So the only thing to show of a
run is its first state, and a raising call shows nothing at all since it changes nothing.
-/
import AsuAscend.Lib.Compaction
import AsuAscend.Lookup.TwoCalls
import AsuAscend.Lookup.WorkingSet

set_option autoImplicit false

open SentinelTable InverseTables Compaction

namespace AsuAscend.Lookup

/-! ## Empty slots and invalidated tokens

`invalidated` are the residents that a call evicts. The tokens that miss are counted as a set:
a token that comes up twice in a row misses once. -/

def isEmpty (s : LookupState) (slot : ℤ) : Bool := read s.slot_to_token slot.toNat == NOT_FOUND

/-- Every empty slot precedes every occupied slot in the LRU order. -/
def EmptyFirst (s : LookupState) : Prop := MarkedFirst (isEmpty s) s.lru_slots

instance (s : LookupState) : Decidable (EmptyFirst s) :=
  inferInstanceAs (Decidable (List.Pairwise _ _))

/-- The unique misses of a row. -/
def missTokens (s : LookupState) (query : List ℤ) : Finset ℤ := (query.filter (Missing s ·)).toFinset

/-- The tokens that are resident in `s` and no longer in `s'`. -/
def invalidated (s s' : LookupState) : Finset ℕ := present s.token_to_slot \ present s'.token_to_slot

/-- A slot is empty if no token is in it. -/
theorem isEmpty_iff {s : LookupState} {slot : ℤ} :
    isEmpty s slot = true ↔ read s.slot_to_token slot.toNat = -1 := beq_iff_eq

/-- The LRU order holds each empty slot once. -/
theorem Wf.countP_isEmpty {s : LookupState} (hwf : Wf s) :
    s.lru_slots.countP (isEmpty s) = s.slot_to_token.count NOT_FOUND := by
  have htable : s.slot_to_token = (List.range s.slot_to_token.length).map (read s.slot_to_token) := by
    apply List.ext_getElem
    · rw [List.length_map, List.length_range]
    · intro i h1 h2
      rw [List.getElem_map, List.getElem_range, read_of_lt h1]
  rw [hwf.perm.countP_eq, List.countP_map, List.count]
  conv_rhs => rw [htable, List.countP_map]
  rfl

/-- A token is resident if there is an entry for it. -/
theorem Wf.resident_iff_present {s : LookupState} (hwf : Wf s) {i : ℕ} :
    Resident s i ↔ i ∈ present s.token_to_slot := by
  have hsent := hwf.fwd_sentinel.read i
  rw [mem_present]
  unfold Resident InRange
  rw [Int.toNat_natCast]
  constructor
  · rintro ⟨_, h0⟩
    omega
  · intro hne
    have hlt : i < s.token_to_slot.length := by
      by_contra hge
      exact hne (read_of_ge (by omega))
    omega

section

variable {s s' : LookupState} {query : List ℤ} {c : Scan} {out : Outputs}

/-- A resident token's slot is not empty. -/
theorem Wf.not_isEmpty (hwf : Wf s) {t : ℤ} (hr : Resident s t) :
    isEmpty s (read s.token_to_slot t.toNat) = false := by
  rw [← Bool.not_eq_true, isEmpty_iff, hwf.slot_holds hr]
  have := hr.1.1
  omega

/-- An occupied slot is some resident's. -/
theorem Wf.occupied (hwf : Wf s) {slot : ℤ} (h0 : 0 ≤ slot) (hocc : isEmpty s slot = false) :
    ∃ i : ℕ, Resident s i ∧ read s.token_to_slot i = slot := by
  have hne : read s.slot_to_token slot.toNat ≠ -1 := by
    rw [← Bool.not_eq_true, isEmpty_iff] at hocc
    exact hocc
  have hsent := hwf.bwd_sentinel.read slot.toNat
  obtain ⟨i, hi⟩ := Int.eq_ofNat_of_zero_le (show 0 ≤ read s.slot_to_token slot.toNat by omega)
  have hback : tab s.token_to_slot i = some slot.toNat :=
    (hwf.inverse.inverse i slot.toNat).mpr (tab_eq_some.mpr hi)
  rw [tab_eq_some] at hback
  refine ⟨i, hwf.resident_iff_present.mpr (mem_present.mpr ?_), ?_⟩
  · omega
  · omega

/-! ## One call -/

/-- A victim slot is occupied afterwards. -/
theorem CallSpec.victim_filled (h : CallSpec s query c out s') (hwf : Wf s)
    (hc : ScanSpec s query query.length c) {z : ℤ} (hz : z ∈ victimSlots s c) :
    isEmpty s' z = false := by
  obtain ⟨t, htq, hm, rfl⟩ := h.victim_holds hwf hc hz
  exact (h.wf hwf hc).not_isEmpty (h.resident hwf hc htq hm.1)

/-- A slot that was hit is occupied afterwards. -/
theorem CallSpec.hit_filled (h : CallSpec s query c out s') (hwf : Wf s)
    (hc : ScanSpec s query query.length c) {z : ℤ} (hz : z ∈ hitSlots s c) : isEmpty s' z = false := by
  obtain ⟨t, htq, hr, rfl⟩ := (hc.hit_iff z).mp ((mem_hitSlots hwf).mp hz).2
  rw [← h.kept hwf hc hr htq]
  exact (h.wf hwf hc).not_isEmpty (h.resident hwf hc htq hr.1)

/-- An evictable slot that is no victim is empty or occupied as before. -/
theorem CallSpec.stale_kept (h : CallSpec s query c out s') (hwf : Wf s) {z : ℤ}
    (hz : z ∈ (evictableSlots s c).drop c.unique_misses.length) : isEmpty s' z = isEmpty s z := by
  have h0 := ((mem_evictableSlots hwf).mp (List.mem_of_mem_drop hz)).1.1
  have hnot : ((z.toNat : ℕ) : ℤ) ∉ victimSlots s c := by
    rw [Int.toNat_of_nonneg h0]
    exact stale_notVictim hwf hz
  unfold isEmpty
  rw [h.bwd_kept hwf hnot]

/-- The evictable slots begin with all empty slots. -/
theorem evictable_emptyFirst (hempty : EmptyFirst s) : MarkedFirst (isEmpty s) (evictableSlots s c) :=
  MarkedFirst.sublist hempty List.filter_sublist

/-- All empty slots are evictable: an empty slot is never hit. -/
theorem countP_evictable (hwf : Wf s) (hc : ScanSpec s query query.length c) :
    (evictableSlots s c).countP (isEmpty s) = s.slot_to_token.count NOT_FOUND := by
  rw [← hwf.countP_isEmpty, evictableSlots, List.countP_filter]
  apply List.countP_congr
  intro z hz
  rw [Bool.and_eq_true, decide_eq_true_iff]
  constructor
  · exact And.left
  · intro hmark
    refine ⟨hmark, fun hhit => ?_⟩
    obtain ⟨t, _, hr, rfl⟩ := (hc.hit_iff z).mp hhit
    rw [hwf.not_isEmpty hr] at hmark
    cases hmark

/-- **The order is kept.** -/
theorem CallSpec.emptyFirst (h : CallSpec s query c out s') (hwf : Wf s)
    (hc : ScanSpec s query query.length c) (hempty : EmptyFirst s) : EmptyFirst s' := by
  have hstale : MarkedFirst (isEmpty s') ((evictableSlots s c).drop c.unique_misses.length) := by
    refine List.Pairwise.imp_of_mem ?_
      ((evictable_emptyFirst hempty).sublist (List.drop_sublist c.unique_misses.length _))
    intro x y hx hy hxy
    rw [h.stale_kept hwf hx, h.stale_kept hwf hy]
    exact hxy
  have hfilled : ∀ z ∈ victimSlots s c ++ hitSlots s c, isEmpty s' z = false := by
    intro z hz
    rcases List.mem_append.mp hz with hz | hz
    · exact h.victim_filled hwf hc hz
    · exact h.hit_filled hwf hc hz
  unfold EmptyFirst
  rw [h.lru, List.append_assoc]
  refine List.pairwise_append.mpr ⟨hstale, ?_, fun x _ y hy hmark => ?_⟩
  · refine List.pairwise_of_forall_mem_list fun x _ y hy hmark => ?_
    rw [hfilled y hy] at hmark
    cases hmark
  · rw [hfilled y hy] at hmark
    cases hmark

/-- The tokens that leave are those of the victim slots. -/
theorem CallSpec.mem_invalidated (h : CallSpec s query c out s') (hwf : Wf s)
    (hc : ScanSpec s query query.length c) {i : ℕ} :
    i ∈ invalidated s s' ↔ Resident s i ∧ read s.token_to_slot i ∈ victimSlots s c := by
  unfold invalidated
  rw [Finset.mem_sdiff, ← hwf.resident_iff_present, ← (h.wf hwf hc).resident_iff_present,
    h.resident_iff hwf hc, Int.toNat_natCast]
  constructor
  · rintro ⟨hr, hgone⟩
    refine ⟨hr, ?_⟩
    by_contra hv
    exact hgone ⟨hr.1, Or.inr ⟨hr, hv⟩⟩
  · rintro ⟨hr, hv⟩
    refine ⟨hr, ?_⟩
    rintro ⟨_, htq | ⟨_, hkeep⟩⟩
    · exact hit_notVictim hwf hc hr htq hv
    · exact hkeep hv

/-- One token leaves for each victim slot that was occupied. -/
theorem CallSpec.invalidated_countP (h : CallSpec s query c out s') (hwf : Wf s)
    (hc : ScanSpec s query query.length c) :
    (invalidated s s').card = (victimSlots s c).countP fun z => !isEmpty s z := by
  have himage : (invalidated s s').image (fun i => read s.token_to_slot i) =
      ((victimSlots s c).filter fun z => !isEmpty s z).toFinset := by
    ext z
    rw [Finset.mem_image, List.mem_toFinset, List.mem_filter, Bool.not_eq_true']
    constructor
    · rintro ⟨i, hi, rfl⟩
      obtain ⟨hr, hv⟩ := (h.mem_invalidated hwf hc).mp hi
      exact ⟨hv, hwf.not_isEmpty hr⟩
    · rintro ⟨hv, hocc⟩
      have h0 := ((mem_evictableSlots hwf).mp (victimSlots_subset hv)).1.1
      obtain ⟨i, hr, rfl⟩ := hwf.occupied h0 hocc
      exact ⟨i, (h.mem_invalidated hwf hc).mpr ⟨hr, hv⟩, rfl⟩
  have hinj : Set.InjOn (fun i => read s.token_to_slot i) (invalidated s s') := by
    intro i hi j hj hij
    have hri := ((h.mem_invalidated hwf hc).mp hi).1
    have hrj := ((h.mem_invalidated hwf hc).mp hj).1
    exact_mod_cast hwf.slot_inj hri hrj hij
  rw [← Finset.card_image_of_injOn hinj, himage,
    List.toFinset_card_of_nodup ((victimSlots_nodup hwf c).filter _), List.countP_eq_length_filter]

/-- **The residents that a call invalidates**: one for each miss that finds no empty slot. -/
theorem CallSpec.invalidated_card (h : CallSpec s query c out s') (hwf : Wf s)
    (hc : ScanSpec s query query.length c) (hempty : EmptyFirst s) :
    (invalidated s s').card = c.unique_misses.length - s.slot_to_token.count NOT_FOUND := by
  rw [h.invalidated_countP hwf hc, victimSlots,
    (evictable_emptyFirst hempty).countP_take h.enough, countP_evictable hwf hc]

/-- The empty slots that a call leaves. -/
theorem CallSpec.empty_left (h : CallSpec s query c out s') (hwf : Wf s)
    (hc : ScanSpec s query query.length c) (hempty : EmptyFirst s) :
    s'.slot_to_token.count NOT_FOUND = s.slot_to_token.count NOT_FOUND - c.unique_misses.length := by
  have hstale : ((evictableSlots s c).drop c.unique_misses.length).countP (isEmpty s') =
      ((evictableSlots s c).drop c.unique_misses.length).countP (isEmpty s) :=
    List.countP_congr fun z hz => by rw [h.stale_kept hwf hz]
  have hvict : (victimSlots s c).countP (isEmpty s') = 0 :=
    List.countP_eq_zero.mpr fun z hz => by rw [h.victim_filled hwf hc hz]; decide
  have hhit : (hitSlots s c).countP (isEmpty s') = 0 :=
    List.countP_eq_zero.mpr fun z hz => by rw [h.hit_filled hwf hc hz]; decide
  rw [← (h.wf hwf hc).countP_isEmpty, h.lru, List.countP_append, List.countP_append, hstale, hvict,
    hhit, (evictable_emptyFirst hempty).countP_drop, countP_evictable hwf hc]
  rfl

/-- As many tokens miss as there are unique misses. -/
theorem missTokens_card (hc : ScanSpec s query query.length c) :
    (missTokens s query).card = c.unique_misses.length := by
  have hset : missTokens s query = (c.unique_misses.map Prod.snd).toFinset := by
    ext t
    unfold missTokens
    rw [List.mem_toFinset, List.mem_toFinset, hc.miss_iff, List.mem_filter, decide_eq_true_iff]
  rw [hset, List.toFinset_card_of_nodup hc.miss_nodup, List.length_map]

end

/-! ## Runs -/

/-- One call keeps the empty slots in front, whether it returns or raises. -/
theorem execCall_emptyFirst {s : LookupState} (hwf : Wf s) (hempty : EmptyFirst s) (query : List ℤ) :
    EmptyFirst (execCall s query) := by
  obtain ⟨c, hc, _, hcall⟩ := lookup_spec hwf query
  unfold execCall
  split_ifs at hcall with hle
  · obtain ⟨out, s', hok, h⟩ := hcall
    rw [hok]
    exact h.emptyFirst hwf hc hempty
  · rw [hcall]
    exact hempty

theorem execCalls_emptyFirst {s : LookupState} (hwf : Wf s) (hempty : EmptyFirst s)
    (rows : List (List ℤ)) : Wf (rows.foldl execCall s) ∧ EmptyFirst (rows.foldl execCall s) := by
  refine Folds.foldl_prefix (fun _ s' => Wf s' ∧ EmptyFirst s') rows ⟨hwf, hempty⟩ ?_
  rintro pre row suf s1 _ ⟨h1, h2⟩
  exact ⟨(execCall_wf h1 row).1, execCall_emptyFirst h1 h2 row⟩

/-- What a call that returns does with the empty slots. -/
structure EmptyUsedFirst (s : LookupState) (query : List ℤ) (out : Outputs) (s' : LookupState) :
    Prop where
  order : EmptyFirst s'
  misses : (missPositions out).length = (missTokens s query).card
  invalidated : ((invalidated s s').card : ℤ) =
    max 0 ((missTokens s query).card - (s.slot_to_token.count NOT_FOUND : ℤ))
  exhausted : (Lookup.invalidated s s').Nonempty → s'.slot_to_token.count NOT_FOUND = 0

/-- **Empty slots first**, in every call of every run, whether the calls before it have returned or
raised. -/
theorem empty_slots_first (s : LookupState) (hwf : Wf s) (hempty : EmptyFirst s)
    (before : List (List ℤ)) (query : List ℤ) {out : Outputs} {s' : LookupState}
    (hcall : lookup_allocate_evict query (before.foldl execCall s) = .ok (out, s')) :
    EmptyUsedFirst (before.foldl execCall s) query out s' := by
  obtain ⟨hwf0, hempty0⟩ := execCalls_emptyFirst hwf hempty before
  obtain ⟨c, hc, _, h⟩ := lookup_ok hwf0 hcall
  have hcard := h.invalidated_card hwf0 hc hempty0
  have hmiss := missTokens_card hc
  refine ⟨h.emptyFirst hwf0 hc hempty0, ?_, ?_, fun hsome => ?_⟩
  · rw [missPositions_length h hc, hmiss]
  · rw [hcard, hmiss]
    omega
  · rw [h.empty_left hwf0 hc hempty0]
    have := hsome.card_pos
    omega

/-- A call with three misses and two empty slots, after one that has raised. -/
theorem empty_slots_first_three_misses :
    EmptyUsedFirst (([[0, 1, 2, 3, 4]] : List (List ℤ)).foldl execCall
        ⟨[2, 3, -1, -1, -1], [-1, -1, 0, 1], [1, 0, 2, 3]⟩) [2, 4, 2, 3]
      ⟨[1, 0, 1, 2], [true, true, false, true]⟩ ⟨[-1, 3, 1, 2, 0], [4, 2, 3, 1], [3, 1, 0, 2]⟩ :=
  empty_slots_first ⟨[2, 3, -1, -1, -1], [-1, -1, 0, 1], [1, 0, 2, 3]⟩ (by decide) (by decide)
    [[0, 1, 2, 3, 4]] [2, 4, 2, 3] (by decide)

end AsuAscend.Lookup
