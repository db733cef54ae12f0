/-
Two calls with the same tokens, beside each other and one after the other.

A call depends on its row only through the set of tokens in range: the hit slots, the
number of misses and with them the victims are the same for every order and
repetition of these tokens (`lookup_order_insensitive`). Called once more with the
same row, every token is a hit, and the three pieces of the new LRU order fall into
place again (`lookup_again`).

## Two runs of one function

The proofs relate two scans without going through the function twice: `ScanSpec` determines the
hit set and, up to their order, the misses, so that any two scans with the same tokens agree on
both (`hit_slot_set_eq`, `unique_misses_perm`). What depends on the order of the row is only
which victim goes to which missing token.
-/
import AsuAscend.Lookup.Runs

set_option autoImplicit false

open SentinelTable InverseTables

namespace AsuAscend.Lookup

/-- The slots that a call takes over, in LRU order. -/
def victims (query : List ℤ) (s : LookupState) : List ℤ :=
  match scanQueries s query with
  | .ok c => victimSlots s c
  | .error _ => []

/-! ## What a scan depends on -/

/-- The rows hold the same tokens, apart from padding, order and repetition. -/
def SameTokens (s : LookupState) (query query' : List ℤ) : Prop :=
  ∀ t, InRange s t → (t ∈ query ↔ t ∈ query')

section

variable {s : LookupState} {query query' : List ℤ} {n n' : ℕ} {c c' : Scan}

/-- The hits are a set, which the order of the row does not change. -/
theorem hit_slot_set_eq (hc : ScanSpec s query n c) (hc' : ScanSpec s query' n' c')
    (h : SameTokens s query query') : c.hit_slot_set = c'.hit_slot_set := by
  ext z
  rw [hc.hit_iff, hc'.hit_iff]
  constructor
  · rintro ⟨t, ht, hr, hz⟩
    exact ⟨t, (h t hr.1).mp ht, hr, hz⟩
  · rintro ⟨t, ht, hr, hz⟩
    exact ⟨t, (h t hr.1).mpr ht, hr, hz⟩

/-- The misses are the same tokens, though perhaps in another order. -/
theorem unique_misses_perm (hc : ScanSpec s query n c) (hc' : ScanSpec s query' n' c')
    (h : SameTokens s query query') :
    (c.unique_misses.map Prod.snd).Perm (c'.unique_misses.map Prod.snd) := by
  rw [List.perm_ext_iff_of_nodup hc.miss_nodup hc'.miss_nodup]
  intro t
  rw [hc.miss_iff, hc'.miss_iff]
  constructor
  · rintro ⟨ht, hm⟩
    exact ⟨(h t hm.1).mp ht, hm⟩
  · rintro ⟨ht, hm⟩
    exact ⟨(h t hm.1).mpr ht, hm⟩

/-- The same slots are hit, and as many tokens are missing. -/
theorem same_groups (hc : ScanSpec s query n c) (hc' : ScanSpec s query' n' c')
    (h : SameTokens s query query') : hitSlots s c = hitSlots s c' ∧
      evictableSlots s c = evictableSlots s c' ∧
      c.unique_misses.length = c'.unique_misses.length ∧ victimSlots s c = victimSlots s c' := by
  have hset := hit_slot_set_eq hc hc' h
  have hhit : hitSlots s c = hitSlots s c' := by rw [hitSlots, hset, hitSlots]
  have hev : evictableSlots s c = evictableSlots s c' := by rw [evictableSlots, hset, evictableSlots]
  have hlen := (unique_misses_perm hc hc' h).length_eq
  rw [List.length_map, List.length_map] at hlen
  exact ⟨hhit, hev, hlen, by rw [victimSlots, hev, hlen, victimSlots]⟩

/-- So there are as many victims, and they are the same slots. -/
theorem victims_eq (hwf : Wf s) (hc : ScanSpec s query n c) : victims query s = victimSlots s c := by
  obtain ⟨c0, hscan, hc0, _⟩ := scanQueries_spec hwf query
  unfold victims
  rw [hscan]
  exact (same_groups hc0 hc fun _ _ => Iff.rfl).2.2.2

/-- As many positions report a miss as there are unique misses. -/
theorem missPositions_length {s' : LookupState} {out : Outputs}
    (h : CallSpec s query c out s') (hc : ScanSpec s query query.length c) :
    (missPositions out).length = c.unique_misses.length := by
  have hperm : (missPositions out).Perm (c.unique_misses.map Prod.fst) := by
    have hnd : (missPositions out).Nodup := List.nodup_range.filter _
    rw [List.perm_ext_iff_of_nodup hnd (hc.pos_sorted.imp fun hlt => hlt.ne)]
    intro p
    rw [mem_missPositions h hc, List.mem_map]
    constructor
    · rintro ⟨t, ht⟩
      exact ⟨(p, t), ht, rfl⟩
    · rintro ⟨⟨_, t⟩, ht, rfl⟩
      exact ⟨t, ht⟩
  rw [hperm.length_eq, List.length_map]

end

/-! ## Beside each other -/

/-- What two calls on one state have in common. `tokens` and `placed` leave open only which
missing token has which victim slot. -/
structure SameEffect (s : LookupState) (query query' : List ℤ) (out out' : Outputs)
    (after after' : LookupState) : Prop where
  lru : after.lru_slots = after'.lru_slots
  residents : ∀ t, Resident after t ↔ Resident after' t
  victims : victims query s = victims query' s
  slots : ∀ slot : ℕ, (slot : ℤ) ∉ Lookup.victims query s →
    read after.slot_to_token slot = read after'.slot_to_token slot
  hits : ∀ p p' t, query[p]? = some t → query'[p']? = some t → Resident s t →
    read out.slot_ids p = read out'.slot_ids p'
  misses : (missPositions out).length = (missPositions out').length
  tokens : ∀ t, InRange s t → ¬ (t ∈ query ∧ Missing s t) →
    read after.token_to_slot t.toNat = read after'.token_to_slot t.toNat
  placed : ∀ t ∈ query, Missing s t → read after.token_to_slot t.toNat ∈ Lookup.victims query s ∧
    read after'.token_to_slot t.toNat ∈ Lookup.victims query s
  ids : ∀ p t, query[p]? = some t →
    read out.slot_ids p = if InRange s t then read after.token_to_slot t.toNat else -1
  ids' : ∀ p t, query'[p]? = some t →
    read out'.slot_ids p = if InRange s t then read after'.token_to_slot t.toNat else -1
  lengths : after.token_to_slot.length = after'.token_to_slot.length ∧
    after.slot_to_token.length = after'.slot_to_token.length

/-- **Insensitivity to order and repetition.** -/
theorem lookup_order_insensitive {s : LookupState} (hwf : Wf s) {query query' : List ℤ}
    (hsame : SameTokens s query query') {out out' : Outputs} {after after' : LookupState}
    (hcall : lookup_allocate_evict query s = .ok (out, after))
    (hcall' : lookup_allocate_evict query' s = .ok (out', after')) :
    SameEffect s query query' out out' after after' := by
  obtain ⟨c, hc, _, h⟩ := lookup_ok hwf hcall
  obtain ⟨c', hc', _, h'⟩ := lookup_ok hwf hcall'
  -- both calls have the same hits, and as many misses; so they have the same victims
  obtain ⟨hhit, hev, hlen, hvict⟩ := same_groups hc hc' hsame
  have hv := victims_eq hwf hc
  have hv' := victims_eq hwf hc'
  refine ⟨?_, fun t => ?_, ?_, fun slot hslot => ?_, fun p p' t hp hp' hr => ?_, ?_, fun t ht hold => ?_,
    fun t ht hm => ⟨?_, ?_⟩, h.ids, h'.ids, ?_⟩
  -- the order is made of hits, misses and the rest, of which none depends on the row
  · rw [h.lru, h'.lru, hhit, hev, hlen, hvict]
  -- the residents are those of the row and those that were not evicted
  · rw [h.resident_iff hwf hc, h'.resident_iff hwf hc', hvict]
    constructor
    · rintro ⟨hin, ht | hr⟩
      · exact ⟨hin, Or.inl ((hsame t hin).mp ht)⟩
      · exact ⟨hin, Or.inr hr⟩
    · rintro ⟨hin, ht | hr⟩
      · exact ⟨hin, Or.inl ((hsame t hin).mpr ht)⟩
      · exact ⟨hin, Or.inr hr⟩
  · rw [hv, hv', hvict]
  · rw [hv] at hslot
    rw [h.bwd_kept hwf hslot, h'.bwd_kept hwf (by rw [← hvict]; exact hslot)]
  · -- a hit keeps its slot in both calls
    rw [h.ids p t hp, h'.ids p' t hp', if_pos hr.1, if_pos hr.1,
      h.kept hwf hc hr (List.mem_of_getElem? hp), h'.kept hwf hc' hr (List.mem_of_getElem? hp')]
  -- as many positions report a miss
  · rw [missPositions_length h hc, missPositions_length h' hc', hlen]
  -- a token that stays keeps its entry
  · apply read_eq_of_tab_eq h.fwd_sentinel h'.fwd_sentinel
    rw [h.fwd_kept hwf hc ht hold, hvict]
    exact (h'.fwd_kept hwf hc' ht fun hm => hold ⟨(hsame t ht).mpr hm.1, hm.2⟩).symm
  -- and a token that comes in gets one of the same slots
  · rw [hv]
    exact h.installed hwf hc ht hm
  · rw [hv, hvict]
    exact h'.installed hwf hc' ((hsame t hm.1).mp ht) hm
  · exact ⟨h.fwd_length.trans h'.fwd_length.symm, h.bwd_length.trans h'.bwd_length.symm⟩

/-- Two rows with the same three tokens, one with padding and one with a token out of range. -/
theorem lookup_order_insensitive_two_rows :
    SameEffect ⟨[0, 1, 2, 3, -1, -1], [0, 1, 2, 3], [0, 1, 2, 3]⟩ [4, 4, -1, 1, 5] [5, 1, 4, 9, 1]
      ⟨[0, 0, -1, 1, 2], [true, false, false, false, true]⟩
      ⟨[0, 1, 2, -1, 1], [true, false, true, false, false]⟩
      ⟨[-1, 1, -1, 3, 0, 2], [4, 1, 5, 3], [3, 0, 2, 1]⟩
      ⟨[-1, 1, -1, 3, 2, 0], [5, 1, 4, 3], [3, 0, 2, 1]⟩ := by
  refine lookup_order_insensitive (by decide) (fun t ht => ?_) (by decide) (by decide)
  obtain ⟨h0, h1⟩ := ht
  have hlt : t < 6 := h1
  simp only [List.mem_cons, List.not_mem_nil, or_false]
  omega

/-! ## One after the other

After a call its tokens are the last ones of the order, hits behind misses. The second call hits
them all and moves them to the end again, in the order in which they stand there already. -/

section

variable {s s' : LookupState} {query : List ℤ} {c c' : Scan} {out : Outputs}

/-- After a call no token of its row is missing. -/
theorem no_misses_again (h : CallSpec s query c out s') (hwf : Wf s)
    (hc : ScanSpec s query query.length c) (hc' : ScanSpec s' query query.length c') :
    c'.unique_misses = [] := by
  rw [← List.map_eq_nil_iff (f := Prod.snd), List.eq_nil_iff_forall_not_mem]
  intro t ht
  obtain ⟨htq, hm⟩ := (hc'.miss_iff t).mp ht
  have hr := (h.resident hwf hc htq (h.inRange_iff.mp hm.1)).2
  have hneg := hm.2
  omega

/-- The slots hit by the second call are those the first one has moved to the end. -/
theorem hit_again (h : CallSpec s query c out s') (hwf : Wf s)
    (hc : ScanSpec s query query.length c) (hc' : ScanSpec s' query query.length c') {z : ℤ} :
    z ∈ c'.hit_slot_set ↔ z ∈ victimSlots s c ∨ z ∈ hitSlots s c := by
  rw [hc'.hit_iff]
  constructor
  · rintro ⟨t, htq, hr', rfl⟩
    rcases hwf.resident_or_missing (h.inRange_iff.mp hr'.1) with hr | hm
    · right
      rw [h.kept hwf hc hr htq]
      exact (mem_hitSlots hwf).mpr ⟨⟨hr.2, hwf.slot_lt hr.2⟩, (hc.hit_iff _).mpr ⟨t, htq, hr, rfl⟩⟩
    · exact Or.inl (h.installed hwf hc htq hm)
  · rintro (hz | hz)
    · obtain ⟨t, htq, hm, rfl⟩ := h.victim_holds hwf hc hz
      exact ⟨t, htq, h.resident hwf hc htq hm.1, rfl⟩
    · obtain ⟨t, htq, hr, rfl⟩ := (hc.hit_iff z).mp ((mem_hitSlots hwf).mp hz).2
      exact ⟨t, htq, h.resident hwf hc htq hr.1, h.kept hwf hc hr htq⟩

/-- The stable partition of the new LRU order is the new LRU order. -/
theorem lru_again (h : CallSpec s query c out s') (hwf : Wf s)
    (hc : ScanSpec s query query.length c) (hc' : ScanSpec s' query query.length c') :
    evictableSlots s' c' ++ hitSlots s' c' = s'.lru_slots := by
  have hstale : ∀ z ∈ (evictableSlots s c).drop c.unique_misses.length, z ∉ c'.hit_slot_set := by
    intro z hz hhit
    rcases (hit_again h hwf hc hc').mp hhit with hv | hh
    · exact stale_notVictim hwf hz hv
    · exact ((mem_evictableSlots hwf).mp (List.mem_of_mem_drop hz)).2 ((mem_hitSlots hwf).mp hh).2
  have hmoved : ∀ z ∈ victimSlots s c ++ hitSlots s c, z ∈ c'.hit_slot_set := by
    intro z hz
    exact (hit_again h hwf hc hc').mpr (List.mem_append.mp hz)
  have hsplit : s'.lru_slots = (evictableSlots s c).drop c.unique_misses.length ++
      (victimSlots s c ++ hitSlots s c) := by rw [h.lru, List.append_assoc]
  have hev : evictableSlots s' c' = (evictableSlots s c).drop c.unique_misses.length := by
    rw [evictableSlots, hsplit, List.filter_append,
      List.filter_eq_self.mpr fun z hz => decide_eq_true (hstale z hz),
      List.filter_eq_nil_iff.mpr fun z hz => by simpa using hmoved z hz, List.append_nil]
  have hhit : hitSlots s' c' = victimSlots s c ++ hitSlots s c := by
    rw [hitSlots, hsplit, List.filter_append,
      List.filter_eq_nil_iff.mpr fun z hz => by simpa using hstale z hz,
      List.filter_eq_self.mpr fun z hz => decide_eq_true (hmoved z hz), List.nil_append]
  rw [hev, hhit, hsplit]

end

/-- **Once more with the same row**: the same slots, no miss, and the state as it was. -/
theorem lookup_again {s s' : LookupState} (hwf : Wf s) {query : List ℤ} {out : Outputs}
    (hcall : lookup_allocate_evict query s = .ok (out, s')) :
    lookup_allocate_evict query s' = .ok (⟨out.slot_ids, List.replicate query.length false⟩, s') := by
  obtain ⟨c, hc, _, h⟩ := lookup_ok hwf hcall
  have hwf' := h.wf hwf hc
  obtain ⟨c', hc', _, hspec⟩ := lookup_spec hwf' query
  have hnone := no_misses_again h hwf hc hc'
  rw [hnone, List.length_nil, if_pos (Nat.zero_le _)] at hspec
  obtain ⟨out', s'', hagain, h'⟩ := hspec
  -- nothing is installed
  have hpairs : missPairs s' c' = [] := by
    unfold missPairs
    rw [hnone]
    rfl
  have hfwd : s''.token_to_slot = s'.token_to_slot := by
    apply ext_of_tab h'.fwd_sentinel h.fwd_sentinel h'.fwd_length
    intro i
    rw [h'.fwd_tab, hpairs, installAll_nil]
  have hbwd : s''.slot_to_token = s'.slot_to_token := by
    apply ext_of_tab h'.bwd_sentinel h.bwd_sentinel h'.bwd_length
    intro i
    rw [h'.bwd_tab, hpairs, installAll_nil]
  have hlru : s''.lru_slots = s'.lru_slots := by
    rw [h'.lru, victimSlots, hnone, List.length_nil, List.drop_zero, List.take_zero, List.append_nil]
    exact lru_again h hwf hc hc'
  have hstate : s'' = s' := by
    rw [LookupState.mk.injEq]
    exact ⟨hfwd, hbwd, hlru⟩
  have hids : out'.slot_ids = out.slot_ids := by
    apply ext_of_read (h'.ids_length.trans h.ids_length.symm)
    intro p hp
    rw [h'.ids_length] at hp
    have hget := List.getElem?_eq_getElem hp
    rw [h.ids p _ hget, h'.ids p _ hget, hfwd]
    simp only [h.inRange_iff]
  have hmask : out'.miss_mask = List.replicate query.length false := by
    rw [h'.mask, List.eq_replicate_iff]
    refine ⟨hc'.mask_length, fun b hb => ?_⟩
    obtain ⟨p, hp, rfl⟩ := List.mem_iff_getElem.mp hb
    have hfalse := mt (hc'.mask_iff p).mp (by rw [hnone]; exact List.not_mem_nil)
    rw [List.getD_eq_getElem _ _ hp, Bool.not_eq_true] at hfalse
    exact hfalse
  rw [hagain, hstate, ← hids, ← hmask]

/-- The row of the two-call example, asked for again. -/
theorem lookup_again_mixed_row :
    lookup_allocate_evict [4, 4, -1, 1] ⟨[-1, 1, 2, 3, 0, -1], [4, 1, 2, 3], [2, 3, 0, 1]⟩ =
      .ok (⟨[0, 0, -1, 1], [false, false, false, false]⟩,
        ⟨[-1, 1, 2, 3, 0, -1], [4, 1, 2, 3], [2, 3, 0, 1]⟩) := by
  have hcall : lookup_allocate_evict [4, 4, -1, 1] ⟨[0, 1, 2, 3, -1, -1], [0, 1, 2, 3], [0, 1, 2, 3]⟩ =
      .ok (⟨[0, 0, -1, 1], [true, false, false, false]⟩,
        ⟨[-1, 1, 2, 3, 0, -1], [4, 1, 2, 3], [2, 3, 0, 1]⟩) := by decide
  exact lookup_again (by decide) hcall

end AsuAscend.Lookup
