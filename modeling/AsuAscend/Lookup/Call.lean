/-
Consequences of one returning call, in the operator's own terms.

`scanQueries_spec` and `allocate_spec` describe the call by its locals. What the
caller sees follows here: the README invariants hold again (`CallSpec.wf`), a
resident queried token keeps its slot (`CallSpec.kept`), a missing one gets a
victim slot of its own (`CallSpec.installed`), and only tokens in victim slots
leave (`CallSpec.evicted`).

## How the facts hang together

The tables after a call are the tables before it with a list of installs applied
(`CallSpec.fwd_tab`, `CallSpec.bwd_tab`); the installs are fresh in the sense of
`Lib.InverseTables`, and from that library it follows that the tables are inverse again and
which entries have changed. The order after a call is the unhit remainder, the victims and the
hit slots, in this sequence. Everything that later modules say of a call is read off these two.
-/
import AsuAscend.Lookup.Spec

set_option autoImplicit false

open SentinelTable InverseTables

namespace AsuAscend.Lookup

/-! ## Raising and returning -/

/-- The permutation check passes. -/
theorem lru_sorted_of_perm {xs : List ℤ} {n : ℕ} (h : xs.Perm ((List.range n).map Int.ofNat)) :
    xs.insertionSort (· ≤ ·) = (List.range n).map Int.ofNat := by
  refine List.Perm.eq_of_pairwise (fun a b _ _ => le_antisymm)
    (List.pairwise_insertionSort _ _) ?_ ((List.perm_insertionSort _ _).trans h)
  exact List.pairwise_map.mpr
    (List.pairwise_lt_range.imp fun hlt => Int.ofNat_le.mpr (Nat.le_of_lt hlt))

/-- A call gets as far as the allocation. -/
theorem lookup_eq_allocate {s : LookupState} {query : List ℤ} {c : Scan}
    (hperm : s.lru_slots.Perm ((List.range s.slot_to_token.length).map Int.ofNat))
    (hscan : scanQueries s query = .ok c) :
    lookup_allocate_evict query s = allocate query s c := by
  have hlen : s.lru_slots.length = s.slot_to_token.length := by rw [hperm.length_eq]; simp
  unfold lookup_allocate_evict
  dsimp only
  rw [if_neg (fun hne => hne hlen), if_neg (fun hne => hne (lru_sorted_of_perm hperm)), hscan]
  rfl

/-- A call from a well-formed state returns exactly when the misses fit, and
raises without touching the state otherwise. -/
theorem lookup_spec {s : LookupState} (hwf : Wf s) (query : List ℤ) :
    ∃ c, ScanSpec s query query.length c ∧ FirstOccurrences query c ∧
      if c.unique_misses.length ≤ (evictableSlots s c).length then
        ∃ out s', lookup_allocate_evict query s = .ok (out, s') ∧ CallSpec s query c out s'
      else lookup_allocate_evict query s =
        .error ⟨"unique misses exceed evictable slot count", s⟩ := by
  obtain ⟨c, hc, hspec, hfirst⟩ := scanQueries_spec hwf query
  refine ⟨c, hspec, hfirst, ?_⟩
  rw [lookup_eq_allocate hwf.perm hc]
  exact allocate_spec hwf hspec

/-- The scan and the allocation behind a call that returned. -/
theorem lookup_ok {s s' : LookupState} (hwf : Wf s) {query : List ℤ} {out : Outputs}
    (h : lookup_allocate_evict query s = .ok (out, s')) :
    ∃ c, ScanSpec s query query.length c ∧ FirstOccurrences query c ∧
      CallSpec s query c out s' := by
  obtain ⟨c, hspec, hfirst, hcall⟩ := lookup_spec hwf query
  refine ⟨c, hspec, hfirst, ?_⟩
  split_ifs at hcall with hle
  · obtain ⟨out', s'', heq, hcs⟩ := hcall
    rw [h] at heq
    obtain ⟨rfl, rfl⟩ := Prod.mk.inj (Except.ok.inj heq)
    exact hcs
  · rw [h] at hcall
    exact absurd hcall (by simp)

/-! ## The state after the call -/

section After

variable {s s' : LookupState} {query : List ℤ} {n : ℕ} {c : Scan} {out : Outputs}

/-- A call does not change which tokens are in range: the tables keep their lengths. -/
theorem CallSpec.inRange_iff (h : CallSpec s query c out s') {t : ℤ} :
    InRange s' t ↔ InRange s t := by
  unfold InRange; rw [h.fwd_length]

/-- The forward table after the call, as a partial function: the misses installed one after the
other. -/
theorem CallSpec.fwd_tab (h : CallSpec s query c out s') :
    tab s'.token_to_slot =
      (installAll (missPairs s c) (tab s.token_to_slot, tab s.slot_to_token)).1 :=
  congrArg Prod.fst h.tables

theorem CallSpec.bwd_tab (h : CallSpec s query c out s') :
    tab s'.slot_to_token =
      (installAll (missPairs s c) (tab s.token_to_slot, tab s.slot_to_token)).2 :=
  congrArg Prod.snd h.tables

/-- The slots returned are `-1` or slots. -/
theorem CallSpec.ids_sentinel (h : CallSpec s query c out s') : Sentinel out.slot_ids := by
  intro z hz
  obtain ⟨p, hp, rfl⟩ := mem_iff_read.mp hz
  rw [h.ids_length] at hp
  rw [h.ids p _ (List.getElem?_eq_getElem hp)]
  split_ifs
  · exact h.fwd_sentinel.read _
  · exact le_refl _

/-- So the tables are inverse to each other again. -/
theorem CallSpec.inverse (h : CallSpec s query c out s') (hwf : Wf s) (hc : ScanSpec s query n c) :
    MutuallyInverse s'.token_to_slot s'.slot_to_token := by
  refine MutuallyInverse.of_inverse h.fwd_sentinel h.bwd_sentinel ?_
  rw [h.fwd_tab, h.bwd_tab]
  exact hwf.inverse.inverse.installAll (missPairs_fresh hwf hc h.enough)

/-- The three groups of the new LRU order are the old order's two groups. -/
theorem CallSpec.perm (h : CallSpec s query c out s') (hwf : Wf s) :
    s'.lru_slots.Perm ((List.range s'.slot_to_token.length).map Int.ofNat) := by
  rw [h.lru, h.bwd_length]
  refine List.Perm.trans ?_ hwf.perm
  have hsplit : (hitSlots s c ++ evictableSlots s c).Perm s.lru_slots := by
    have := List.filter_append_perm (· ∈ c.hit_slot_set) s.lru_slots
    simpa [hitSlots, evictableSlots] using this
  refine List.Perm.trans (List.perm_append_comm.trans ?_) hsplit
  apply List.Perm.append_left
  refine List.perm_append_comm.trans ?_
  rw [victimSlots, List.take_append_drop]

/-- **The README invariants hold again.** -/
theorem CallSpec.wf (h : CallSpec s query c out s') (hwf : Wf s) (hc : ScanSpec s query n c) :
    Wf s' := ⟨h.perm hwf, h.inverse hwf hc⟩

/-- A resident token's entry, as a slot. -/
theorem Resident.tab {t : ℤ} (hr : Resident s t) :
    tab s.token_to_slot t.toNat = some (read s.token_to_slot t.toNat).toNat := by
  have hpos := hr.2
  rw [tab_eq_some]
  omega

/-- A token that the call does not install keeps its entry, or loses it with its slot. -/
theorem CallSpec.fwd_kept (h : CallSpec s query c out s') (hwf : Wf s) (hc : ScanSpec s query n c)
    {t : ℤ} (ht : InRange s t) (hold : ¬ (t ∈ query ∧ Missing s t)) :
    tab s'.token_to_slot t.toNat =
      (tab s.token_to_slot t.toNat).filter fun b => b ∉ (victimSlots s c).map Int.toNat := by
  have hnot : t.toNat ∉ (missPairs s c).map Prod.snd := by
    rw [missPairs_snd h.enough]
    intro hmem
    obtain ⟨u, hu, hut⟩ := List.mem_map.mp hmem
    obtain ⟨huq, hm⟩ := (hc.miss_iff u).mp hu
    have h0 := hm.1.1
    have h1 := ht.1
    have htu : u = t := by omega
    rw [htu] at huq hm
    exact hold ⟨huq, hm⟩
  rw [h.fwd_tab, installAll_fwd_notMem hwf.inverse.inverse (missPairs_fresh hwf hc h.enough) hnot,
    missPairs_fst]

/-- A token that is resident and whose slot is no victim keeps its slot. -/
theorem CallSpec.kept_of_notVictim (h : CallSpec s query c out s') (hwf : Wf s)
    (hc : ScanSpec s query n c) {t : ℤ} (hr : Resident s t)
    (hv : read s.token_to_slot t.toNat ∉ victimSlots s c) :
    read s'.token_to_slot t.toNat = read s.token_to_slot t.toNat := by
  have hpos := hr.2
  have hold : ¬ (t ∈ query ∧ Missing s t) := by
    intro hm
    have hneg := hm.2.2
    omega
  have hslot : (read s.token_to_slot t.toNat).toNat ∉ (victimSlots s c).map Int.toNat := by
    intro hmem
    obtain ⟨z, hz, hzeq⟩ := List.mem_map.mp hmem
    have h0 := ((mem_evictableSlots hwf).mp (victimSlots_subset hz)).1.1
    exact hv (by rw [show read s.token_to_slot t.toNat = z by omega]; exact hz)
  have hnew := h.fwd_kept hwf hc hr.1 hold
  rw [hr.tab, Option.filter_some, if_pos (by simpa using hslot), tab_eq_some] at hnew
  omega

/-- An evictable slot behind the victims is none of them. -/
theorem stale_notVictim (hwf : Wf s) {z : ℤ}
    (hz : z ∈ (evictableSlots s c).drop c.unique_misses.length) : z ∉ victimSlots s c := by
  have hnd : (victimSlots s c ++ (evictableSlots s c).drop c.unique_misses.length).Nodup := by
    rw [victimSlots, List.take_append_drop]
    exact hwf.lru_nodup.filter _
  exact fun hv => (List.nodup_append.mp hnd).2.2 z hv z hz rfl

/-- A queried token's slot is a hit slot, never a victim. -/
theorem hit_notVictim (hwf : Wf s) (hc : ScanSpec s query n c) {t : ℤ} (hr : Resident s t)
    (ht : t ∈ query) : read s.token_to_slot t.toNat ∉ victimSlots s c := fun hv =>
  ((mem_evictableSlots hwf).mp (victimSlots_subset hv)).2 ((hc.hit_iff _).mpr ⟨t, ht, hr, rfl⟩)

/-- **Hits are protected**: a resident queried token keeps its slot. -/
theorem CallSpec.kept (h : CallSpec s query c out s') (hwf : Wf s) (hc : ScanSpec s query n c)
    {t : ℤ} (hr : Resident s t) (ht : t ∈ query) :
    read s'.token_to_slot t.toNat = read s.token_to_slot t.toNat :=
  h.kept_of_notVictim hwf hc hr (hit_notVictim hwf hc hr ht)

/-- The `(slot, token)` pair behind a missing queried token. -/
theorem exists_missPair (hc : ScanSpec s query n c)
    (hle : c.unique_misses.length ≤ (evictableSlots s c).length) {t : ℤ} (ht : t ∈ query)
    (hm : Missing s t) : ∃ v ∈ victimSlots s c, (v.toNat, t.toNat) ∈ missPairs s c := by
  have hmem := (hc.miss_iff t).mpr ⟨ht, hm⟩
  obtain ⟨i, hi, hti⟩ := List.mem_iff_getElem.mp hmem
  rw [List.length_map] at hi
  have hie : i < (evictableSlots s c).length := lt_of_lt_of_le hi hle
  refine ⟨(evictableSlots s c)[i], ?_, ?_⟩
  · rw [victimSlots, List.mem_take_iff_getElem]
    exact ⟨i, by omega, rfl⟩
  · refine List.mem_map.mpr ⟨(t, (evictableSlots s c)[i]), ?_, rfl⟩
    refine List.mem_iff_getElem.mpr ⟨i, by simp [hi, hie], ?_⟩
    rw [List.getElem_zip, hti]

/-- **A missing queried token gets a victim slot.** -/
theorem CallSpec.installed (h : CallSpec s query c out s') (hwf : Wf s)
    (hc : ScanSpec s query n c) {t : ℤ} (ht : t ∈ query) (hm : Missing s t) :
    read s'.token_to_slot t.toNat ∈ victimSlots s c := by
  obtain ⟨v, hv, hpair⟩ := exists_missPair hc h.enough ht hm
  have h0 := ((mem_evictableSlots hwf).mp (victimSlots_subset hv)).1.1
  have hnew : tab s'.token_to_slot t.toNat = some v.toNat := by
    rw [h.fwd_tab]
    exact installAll_fwd_mem hwf.inverse.inverse (missPairs_fresh hwf hc h.enough) hpair
  rw [tab_eq_some] at hnew
  rw [show read s'.token_to_slot t.toNat = v by omega]
  exact hv

/-- Every victim slot holds one of the row's missing tokens afterwards. -/
theorem CallSpec.victim_holds (h : CallSpec s query c out s') (hwf : Wf s)
    (hc : ScanSpec s query n c) {v : ℤ} (hv : v ∈ victimSlots s c) :
    ∃ t ∈ query, Missing s t ∧ read s'.token_to_slot t.toNat = v := by
  have hmem : v.toNat ∈ (missPairs s c).map Prod.fst := by
    rw [missPairs_fst]; exact List.mem_map.mpr ⟨v, hv, rfl⟩
  obtain ⟨⟨b, a⟩, hba, hb⟩ := List.mem_map.mp hmem
  have ha : a ∈ (missPairs s c).map Prod.snd := List.mem_map.mpr ⟨_, hba, rfl⟩
  rw [missPairs_snd h.enough] at ha
  obtain ⟨t, ht, rfl⟩ := List.mem_map.mp ha
  obtain ⟨htq, hm⟩ := (hc.miss_iff t).mp ht
  have hnew : tab s'.token_to_slot t.toNat = some b := by
    rw [h.fwd_tab]
    exact installAll_fwd_mem hwf.inverse.inverse (missPairs_fresh hwf hc h.enough) hba
  rw [tab_eq_some] at hnew
  have h0 := ((mem_evictableSlots hwf).mp (victimSlots_subset hv)).1.1
  dsimp only at hb
  exact ⟨t, htq, hm, by omega⟩

/-- An in-range token is resident or missing, never in between. -/
theorem Wf.resident_or_missing (hwf : Wf s) {t : ℤ} (ht : InRange s t) :
    Resident s t ∨ Missing s t := by
  have := hwf.fwd_sentinel.read t.toNat
  by_cases h0 : 0 ≤ read s.token_to_slot t.toNat
  · exact Or.inl ⟨ht, h0⟩
  · exact Or.inr ⟨ht, by omega⟩

/-- Every in-range queried token is resident afterwards. -/
theorem CallSpec.resident (h : CallSpec s query c out s') (hwf : Wf s)
    (hc : ScanSpec s query n c) {t : ℤ} (ht : t ∈ query) (hr : InRange s t) : Resident s' t := by
  refine ⟨h.inRange_iff.mpr hr, ?_⟩
  rcases hwf.resident_or_missing hr with hres | hmiss
  · rw [h.kept hwf hc hres ht]; exact hres.2
  · have := h.installed hwf hc ht hmiss
    exact ((mem_evictableSlots hwf).mp (victimSlots_subset this)).1.1

/-- A slot that is no victim keeps its content. -/
theorem CallSpec.bwd_kept (h : CallSpec s query c out s') (hwf : Wf s) {slot : ℕ}
    (hv : (slot : ℤ) ∉ victimSlots s c) :
    read s'.slot_to_token slot = read s.slot_to_token slot := by
  apply read_eq_of_tab_eq h.bwd_sentinel hwf.bwd_sentinel
  rw [h.bwd_tab]
  apply installAll_bwd_notMem
  rw [missPairs_fst]
  intro hin
  obtain ⟨z, hz, hzs⟩ := List.mem_map.mp hin
  have h0 := ((mem_evictableSlots hwf).mp (victimSlots_subset hz)).1.1
  exact hv (by rw [show (slot : ℤ) = z by omega]; exact hz)

/-- Which tokens are resident afterwards. -/
theorem CallSpec.resident_iff (h : CallSpec s query c out s') (hwf : Wf s)
    (hc : ScanSpec s query n c) {t : ℤ} : Resident s' t ↔ InRange s t ∧
      (t ∈ query ∨ Resident s t ∧ read s.token_to_slot t.toNat ∉ victimSlots s c) := by
  constructor
  · intro hr
    have hin := h.inRange_iff.mp hr.1
    refine ⟨hin, ?_⟩
    by_cases htq : t ∈ query
    · exact Or.inl htq
    · right
      have htab := h.fwd_kept hwf hc hin fun hm => htq hm.1
      rw [hr.tab] at htab
      obtain ⟨hold, hv⟩ := Option.filter_eq_some_iff.mp htab.symm
      rw [tab_eq_some] at hold
      refine ⟨⟨hin, by omega⟩, fun hvict => ?_⟩
      rw [decide_eq_true_iff] at hv
      exact hv (List.mem_map.mpr ⟨_, hvict, by omega⟩)
  · rintro ⟨hin, htq | ⟨hr, hv⟩⟩
    · exact h.resident hwf hc htq hin
    · refine ⟨h.inRange_iff.mpr hin, ?_⟩
      rw [h.kept_of_notVictim hwf hc hr hv]
      exact hr.2

/-- A resident token's slot holds it. -/
theorem Wf.slot_holds (hwf : Wf s) {t : ℤ} (hr : Resident s t) :
    read s.slot_to_token (read s.token_to_slot t.toNat).toNat = t := by
  have := tab_eq_some.mp ((hwf.inverse.inverse _ _).mp hr.tab)
  rw [this, Int.toNat_of_nonneg hr.1.1]

/-- Two resident tokens in one slot are one token. -/
theorem Wf.slot_inj (hwf : Wf s) {t u : ℤ} (ht : Resident s t) (hu : Resident s u)
    (heq : read s.token_to_slot t.toNat = read s.token_to_slot u.toNat) : t = u := by
  rw [← hwf.slot_holds ht, heq, hwf.slot_holds hu]

/-- The positions that report a miss are those the scan recorded. -/
theorem CallSpec.mask_iff (h : CallSpec s query c out s') (hc : ScanSpec s query n c) {p : ℕ} :
    out.miss_mask.getD p false = true ↔ ∃ t, (p, t) ∈ c.unique_misses := by
  rw [h.mask, hc.mask_iff, List.mem_map]
  constructor
  · rintro ⟨⟨p', t⟩, hm, rfl⟩; exact ⟨t, hm⟩
  · rintro ⟨t, hm⟩; exact ⟨(p, t), hm, rfl⟩

/-- One position per missing token: the token determines the position. -/
theorem ScanSpec.miss_inj (hc : ScanSpec s query n c) {m m' : ℕ × ℤ} (hm : m ∈ c.unique_misses)
    (hm' : m' ∈ c.unique_misses) (heq : m.2 = m'.2) : m = m' :=
  List.inj_on_of_nodup_map hc.miss_nodup hm hm' heq

end After

end AsuAscend.Lookup
