/-
What one call of `lookup_allocate_evict` does from a state that meets the README
invariants.

## Two specs, one per half of the function

`scanQueries_spec`: the query scan cannot raise, and its locals are what their
names say (`ScanSpec`). `allocate_spec`: for *any* scan result of that shape, the
rest of the function either raises before touching the tables, because the misses
outnumber the evictable slots, or returns the tables with the misses installed in
the leading evictable slots (`CallSpec`).

The second spec does not ask which position reports a repeated missing token.
The SIMT kernel leaves that choice to a race, so its refinement proof needs the
allocation for every choice; the oracle's own choice, the first occurrence, is the
last two clauses of `scanQueries_spec`.

## The invariant

`Wf` is what the README asks of its callers: the two tables are inverse to each other and the
order is a permutation of the slots. Nothing is asked of the row. `EntryOk` is what the scan
checks of an entry; with `Wf` it always holds (`Wf.entryOk`), which is why a call from such a
state can raise for a shortage of slots only.
-/
import AsuAscend.Lib.Folds
import AsuAscend.Lookup.Reference

set_option autoImplicit false

open SentinelTable InverseTables

namespace AsuAscend.Lookup

/-! ## Slots of a well-formed state -/

theorem Wf.lru_nodup {s : LookupState} (h : Wf s) : s.lru_slots.Nodup :=
  h.perm.nodup_iff.mpr (List.nodup_range.map fun _ _ => Int.ofNat.inj)

/-- All slots are in it, and nothing else. -/
theorem Wf.mem_lru {s : LookupState} (h : Wf s) {z : ℤ} :
    z ∈ s.lru_slots ↔ 0 ≤ z ∧ z < s.slot_to_token.length := by
  rw [h.perm.mem_iff, List.mem_map]
  constructor
  · rintro ⟨n, hn, rfl⟩
    have := List.mem_range.mp hn
    exact ⟨Int.natCast_nonneg n, Int.ofNat_lt.mpr this⟩
  · rintro ⟨h0, hlt⟩
    exact ⟨z.toNat, List.mem_range.mpr (by omega), Int.toNat_of_nonneg h0⟩

/-- So it has one entry for each slot. -/
theorem Wf.lru_length {s : LookupState} (h : Wf s) :
    s.lru_slots.length = s.slot_to_token.length := by
  rw [h.perm.length_eq]; simp

/-- The entries of both tables are numbers or `-1`: here of the forward one. -/
theorem Wf.fwd_sentinel {s : LookupState} (h : Wf s) : Sentinel s.token_to_slot :=
  h.inverse.sentinel_fwd

theorem Wf.bwd_sentinel {s : LookupState} (h : Wf s) : Sentinel s.slot_to_token :=
  h.inverse.symm.sentinel_fwd

/-- A resident token's slot is inside the slot table. -/
theorem Wf.slot_lt {s : LookupState} (h : Wf s) {i : ℕ} (hi : 0 ≤ read s.token_to_slot i) :
    read s.token_to_slot i < s.slot_to_token.length := by
  have ht : tab s.token_to_slot i = some (read s.token_to_slot i).toNat := by
    rw [tab_eq_some]; omega
  have := lt_of_tab_eq_some ((h.inverse.inverse _ _).mp ht)
  omega

/-! ## The query scan -/

/-- The token sits in a slot. -/
def Resident (s : LookupState) (token : ℤ) : Prop :=
  InRange s token ∧ 0 ≤ read s.token_to_slot token.toNat

instance (s : LookupState) (token : ℤ) : Decidable (Resident s token) :=
  inferInstanceAs (Decidable (_ ∧ _))

/-- The token can be held and is not. -/
def Missing (s : LookupState) (token : ℤ) : Prop :=
  InRange s token ∧ read s.token_to_slot token.toNat = -1

instance (s : LookupState) (token : ℤ) : Decidable (Missing s token) :=
  inferInstanceAs (Decidable (_ ∧ _))

/-- The locals of a scan that has read the queries `query`, with `n` queries in
the row, whichever of them it recorded as misses. -/
structure ScanShape (s : LookupState) (query : List ℤ) (n : ℕ) (c : Scan) : Prop where
  ids_length : c.slot_ids.length = n
  mask_length : c.miss_mask.length = n
  ids_padding : ∀ p, (∀ t, query[p]? = some t → ¬ InRange s t) → read c.slot_ids p = -1
  mask_iff : ∀ p, c.miss_mask.getD p false = true ↔ p ∈ c.unique_misses.map Prod.fst
  hit_iff : ∀ z, z ∈ c.hit_slot_set ↔
    ∃ t ∈ query, Resident s t ∧ read s.token_to_slot t.toNat = z
  miss_pos : ∀ m ∈ c.unique_misses, query[m.1]? = some m.2
  pos_sorted : (c.unique_misses.map Prod.fst).Pairwise (· < ·)

/-- The scan recorded each missing token once. -/
structure ScanSpec (s : LookupState) (query : List ℤ) (n : ℕ) (c : Scan) : Prop
    extends ScanShape s query n c where
  miss_iff : ∀ t, t ∈ c.unique_misses.map Prod.snd ↔ t ∈ query ∧ Missing s t
  miss_nodup : (c.unique_misses.map Prod.snd).Nodup

/-- The scan reports a repeated missing token at its first occurrence. -/
def FirstOccurrences (query : List ℤ) (c : Scan) : Prop :=
  ∀ m ∈ c.unique_misses, ∀ p, query[p]? = some m.2 → m.1 ≤ p

/-- Before the first query, the lists of the scan. -/
theorem scanShape_init (s : LookupState) (n : ℕ) : ScanShape s [] n (Scan.init n) where
  ids_length := List.length_replicate
  mask_length := List.length_replicate
  ids_padding := fun p _ => by
    unfold SentinelTable.read Scan.init
    by_cases hp : p < n
    · rw [List.getD_eq_getElem _ _ (by simpa using hp)]; simp [NOT_FOUND]
    · rw [List.getD_eq_default _ _ (by simpa using hp)]
  mask_iff := fun p => by
    by_cases hp : p < n
    · rw [List.getD_eq_getElem _ _ (by simpa [Scan.init] using hp)]; simp [Scan.init]
    · rw [List.getD_eq_default _ _ (by simpa [Scan.init] using hp)]; simp [Scan.init]
  hit_iff := fun z => by simp [Scan.init]
  miss_pos := fun m hm => by simp [Scan.init] at hm
  pos_sorted := List.Pairwise.nil

/-- Before the first query, all of what the scan says. -/
theorem scanSpec_init (s : LookupState) (n : ℕ) : ScanSpec s [] n (Scan.init n) :=
  { scanShape_init s n with
    miss_iff := fun t => by simp [Scan.init]
    miss_nodup := List.nodup_nil }

/-- Reading one more query at `pre.length`: what is known about `pre ++ [t]`. -/
theorem getElem?_concat {pre : List ℤ} {t u : ℤ} {p : ℕ} :
    (pre ++ [t])[p]? = some u ↔ pre[p]? = some u ∨ p = pre.length ∧ u = t := by
  rcases Nat.lt_trichotomy p pre.length with h | h | h
  · rw [List.getElem?_append_left h]
    constructor
    · exact Or.inl
    · rintro (h1 | ⟨h1, _⟩)
      · exact h1
      · omega
  · subst h
    rw [List.getElem?_concat_length, List.getElem?_eq_none (le_refl _)]
    simp [eq_comm]
  · rw [List.getElem?_eq_none (by simp; omega), List.getElem?_eq_none (by omega)]
    simp; omega

/-- A position with an entry is one of the list. -/
theorem lt_of_getElem?_eq_some {xs : List ℤ} {p : ℕ} {t : ℤ} (h : xs[p]? = some t) :
    p < xs.length := by
  by_contra hge
  rw [List.getElem?_eq_none (by omega)] at h
  cases h

/-- A query that records nothing: padding, or a missing token reported elsewhere. -/
theorem ScanShape.skip {s : LookupState} {pre : List ℤ} {t : ℤ} {n : ℕ} {c : Scan}
    (h : ScanShape s pre n c) (hres : ¬ Resident s t) : ScanShape s (pre ++ [t]) n c where
  ids_length := h.ids_length
  mask_length := h.mask_length
  ids_padding := fun p hp => h.ids_padding p fun u hu => hp u (getElem?_concat.mpr (Or.inl hu))
  mask_iff := h.mask_iff
  hit_iff := fun z => by
    rw [h.hit_iff]
    constructor
    · rintro ⟨u, hu, hr⟩; exact ⟨u, List.mem_append_left _ hu, hr⟩
    · rintro ⟨u, hu, hr⟩
      rcases List.mem_append.mp hu with hu | hu
      · exact ⟨u, hu, hr⟩
      · rw [List.mem_singleton.mp hu] at hr; exact absurd hr.1 hres
  miss_pos := fun m hm => getElem?_concat.mpr (Or.inl (h.miss_pos m hm))
  pos_sorted := h.pos_sorted

/-- A query that is out of range, or a miss that has come up before, adds nothing. -/
theorem ScanSpec.skip {s : LookupState} {pre : List ℤ} {t : ℤ} {n : ℕ} {c : Scan}
    (h : ScanSpec s pre n c) (hres : ¬ Resident s t) (hmiss : Missing s t → t ∈ pre) :
    ScanSpec s (pre ++ [t]) n c :=
  { h.toScanShape.skip hres with
    miss_iff := fun u => by
      rw [h.miss_iff]
      constructor
      · rintro ⟨hu, hm⟩; exact ⟨List.mem_append_left _ hu, hm⟩
      · rintro ⟨hu, hm⟩
        rcases List.mem_append.mp hu with hu | hu
        · exact ⟨hu, hm⟩
        · rw [List.mem_singleton.mp hu] at hm ⊢; exact ⟨hmiss hm, hm⟩
    miss_nodup := h.miss_nodup }

/-- A query that finds its token resident. -/
theorem ScanShape.hit {s : LookupState} {pre : List ℤ} {t : ℤ} {n : ℕ} {c : Scan}
    (h : ScanShape s pre n c) (hres : Resident s t) (hn : pre.length < n) :
    ScanShape s (pre ++ [t]) n { c with
      slot_ids := c.slot_ids.set pre.length (read s.token_to_slot t.toNat)
      hit_slot_set := insert (read s.token_to_slot t.toNat) c.hit_slot_set } where
  ids_length := by rw [List.length_set]; exact h.ids_length
  mask_length := h.mask_length
  ids_padding := fun p hp => by
    -- the position of a hit is not padding
    have hne : p ≠ pre.length := fun heq =>
      hp t (getElem?_concat.mpr (Or.inr ⟨heq, rfl⟩)) hres.1
    rw [read_set (by rw [h.ids_length]; exact hn), if_neg hne]
    exact h.ids_padding p fun u hu => hp u (getElem?_concat.mpr (Or.inl hu))
  mask_iff := h.mask_iff
  hit_iff := fun z => by
    rw [Finset.mem_insert, h.hit_iff]
    constructor
    · rintro (rfl | ⟨u, hu, hr⟩)
      · exact ⟨t, by simp, hres, rfl⟩
      · exact ⟨u, List.mem_append_left _ hu, hr⟩
    · rintro ⟨u, hu, hr⟩
      rcases List.mem_append.mp hu with hu | hu
      · exact Or.inr ⟨u, hu, hr⟩
      · rw [List.mem_singleton.mp hu] at hr; exact Or.inl hr.2.symm
  miss_pos := fun m hm => getElem?_concat.mpr (Or.inl (h.miss_pos m hm))
  pos_sorted := h.pos_sorted

/-- A hit writes its slot and marks it. -/
theorem ScanSpec.hit {s : LookupState} {pre : List ℤ} {t : ℤ} {n : ℕ} {c : Scan}
    (h : ScanSpec s pre n c) (hres : Resident s t) (hn : pre.length < n) :
    ScanSpec s (pre ++ [t]) n { c with
      slot_ids := c.slot_ids.set pre.length (read s.token_to_slot t.toNat)
      hit_slot_set := insert (read s.token_to_slot t.toNat) c.hit_slot_set } :=
  { h.toScanShape.hit hres hn with
    miss_iff := fun u => by
      rw [h.miss_iff]
      constructor
      · rintro ⟨hu, hm⟩; exact ⟨List.mem_append_left _ hu, hm⟩
      · rintro ⟨hu, hm⟩
        rcases List.mem_append.mp hu with hu | hu
        · exact ⟨hu, hm⟩
        · rw [List.mem_singleton.mp hu] at hm
          have h1 := hres.2
          have h2 := hm.2
          omega
    miss_nodup := h.miss_nodup }

/-- A query whose absent token is recorded here. -/
theorem ScanShape.miss {s : LookupState} {pre : List ℤ} {t : ℤ} {n : ℕ} {c : Scan}
    (h : ScanShape s pre n c) (hmiss : Missing s t) (hn : pre.length < n) :
    ScanShape s (pre ++ [t]) n { c with
      pending_misses := insert t c.pending_misses
      unique_misses := c.unique_misses ++ [(pre.length, t)]
      miss_mask := c.miss_mask.set pre.length true } where
  ids_length := h.ids_length
  mask_length := by rw [List.length_set]; exact h.mask_length
  ids_padding := fun p hp => h.ids_padding p fun u hu => hp u (getElem?_concat.mpr (Or.inl hu))
  -- one position more is set, the one behind all entries so far
  mask_iff := fun p => by
    simp only [List.map_append, List.mem_append, List.map_cons, List.map_nil,
      List.mem_singleton, ← h.mask_iff p]
    rw [List.getD_eq_getElem?_getD, List.getD_eq_getElem?_getD, List.getElem?_set]
    by_cases hp : pre.length = p
    · subst hp; simp [h.mask_length, hn]
    · rw [if_neg hp]
      constructor
      · exact Or.inl
      · rintro (h1 | h1)
        · exact h1
        · exact absurd h1.symm hp
  -- the new entry is missing, so no slot is hit by it
  hit_iff := fun z => by
    rw [h.hit_iff]
    constructor
    · rintro ⟨u, hu, hr⟩; exact ⟨u, List.mem_append_left _ hu, hr⟩
    · rintro ⟨u, hu, hr⟩
      rcases List.mem_append.mp hu with hu | hu
      · exact ⟨u, hu, hr⟩
      · rw [List.mem_singleton.mp hu] at hr
        have h1 := hr.1.2
        have h2 := hmiss.2
        omega
  -- its position is recorded with it
  miss_pos := fun m hm => by
    rcases List.mem_append.mp hm with hm | hm
    · exact getElem?_concat.mpr (Or.inl (h.miss_pos m hm))
    · rw [List.mem_singleton.mp hm]; exact getElem?_concat.mpr (Or.inr ⟨rfl, rfl⟩)
  -- behind all positions that are recorded
  pos_sorted := by
    rw [List.map_append, List.map_singleton]
    refine List.pairwise_append.mpr ⟨h.pos_sorted, List.pairwise_singleton _ _, ?_⟩
    intro a ha b hb
    obtain ⟨m, hm, rfl⟩ := List.mem_map.mp ha
    rw [List.mem_singleton.mp hb]
    exact lt_of_getElem?_eq_some (h.miss_pos m hm)

/-- A query for an absent token that was not queried before. -/
theorem ScanSpec.miss {s : LookupState} {pre : List ℤ} {t : ℤ} {n : ℕ} {c : Scan}
    (h : ScanSpec s pre n c) (hmiss : Missing s t) (hnew : t ∉ pre) (hn : pre.length < n) :
    ScanSpec s (pre ++ [t]) n { c with
      pending_misses := insert t c.pending_misses
      unique_misses := c.unique_misses ++ [(pre.length, t)]
      miss_mask := c.miss_mask.set pre.length true } :=
  { h.toScanShape.miss hmiss hn with
    miss_iff := fun u => by
      rw [List.map_append, List.mem_append, h.miss_iff, List.map_singleton, List.mem_singleton,
        List.mem_append, List.mem_singleton]
      constructor
      · rintro (⟨hu, hm⟩ | rfl)
        · exact ⟨Or.inl hu, hm⟩
        · exact ⟨Or.inr rfl, hmiss⟩
      · rintro ⟨hu | rfl, hm⟩
        · exact Or.inl ⟨hu, hm⟩
        · exact Or.inr rfl
    miss_nodup := by
      rw [List.map_append, List.map_singleton]
      refine List.nodup_append.mpr ⟨h.miss_nodup, List.nodup_singleton _, ?_⟩
      intro a ha b hb heq
      rw [heq, List.mem_singleton.mp hb] at ha
      exact hnew ((h.miss_iff t).mp ha).1 }

/-- The pending tokens, after a query that adds none. -/
theorem pending_skip {s : LookupState} {pre : List ℤ} {t : ℤ} {pending : Finset ℤ}
    (hpend : ∀ u, u ∈ pending ↔ u ∈ pre ∧ Missing s u) (ht : Missing s t → t ∈ pre) (u : ℤ) :
    u ∈ pending ↔ u ∈ pre ++ [t] ∧ Missing s u := by
  rw [hpend, List.mem_append, List.mem_singleton]
  constructor
  · rintro ⟨hu, hm⟩
    exact ⟨Or.inl hu, hm⟩
  · rintro ⟨hu | rfl, hm⟩
    · exact ⟨hu, hm⟩
    · exact ⟨ht hm, hm⟩

/-- What the scan asks of a queried token: its entry is `-1` or a slot of the table. -/
def EntryOk (s : LookupState) (token : ℤ) : Prop :=
  InRange s token → -1 ≤ read s.token_to_slot token.toNat ∧
    read s.token_to_slot token.toNat < s.slot_to_token.length

/-- With tables in order no entry of the scan raises. -/
theorem Wf.entryOk {s : LookupState} (hwf : Wf s) (t : ℤ) : EntryOk s t := by
  intro _
  have hge := hwf.fwd_sentinel.read t.toNat
  refine ⟨hge, ?_⟩
  by_cases h0 : 0 ≤ read s.token_to_slot t.toNat
  · exact hwf.slot_lt h0
  · omega

/-- One turn of the query scan: it succeeds and extends the spec by one query.
`pending_misses` is exactly the set of missing tokens seen so far. -/
theorem scanQuery_spec {s : LookupState} {pre : List ℤ} {t : ℤ} {n : ℕ} {c : Scan}
    (hok : EntryOk s t) (h : ScanSpec s pre n c) (hpend : ∀ u, u ∈ c.pending_misses ↔ u ∈ pre ∧ Missing s u)
    (hfirst : FirstOccurrences pre c) (hn : pre.length < n) :
    ∃ c', scanQuery s c (t, pre.length) = .ok c' ∧ ScanSpec s (pre ++ [t]) n c' ∧
      (∀ u, u ∈ c'.pending_misses ↔ u ∈ pre ++ [t] ∧ Missing s u) ∧
      FirstOccurrences (pre ++ [t]) c' := by
  -- where a token was first seen does not change with one entry more
  have hold : FirstOccurrences (pre ++ [t]) c := by
    intro m hm p hp
    rcases getElem?_concat.mp hp with hp | ⟨hp, _⟩
    · exact hfirst m hm p hp
    · have := lt_of_getElem?_eq_some (h.miss_pos m hm)
      omega
  unfold scanQuery
  dsimp only
  by_cases hout : t < 0 ∨ t ≥ s.token_to_slot.length
  · -- padding
    rw [if_pos hout]
    have hnr : ¬ InRange s t := by unfold InRange; omega
    exact ⟨c, rfl, h.skip (fun hr => hnr hr.1) (fun hm => absurd hm.1 hnr),
      pending_skip hpend fun hm => absurd hm.1 hnr, hold⟩
  · rw [if_neg hout]
    have hr : InRange s t := by unfold InRange; omega
    by_cases hpos : read s.token_to_slot t.toNat ≥ 0
    · -- the slot is in the table, so `ValueError` is not raised
      rw [if_pos hpos, if_neg (by have := (hok hr).2; omega)]
      refine ⟨_, rfl, h.hit ⟨hr, hpos⟩ hn, pending_skip hpend fun hm => ?_, hold⟩
      have hnone := hm.2
      omega
    -- the entry is `-1`: a miss, which counts once
    · rw [if_neg hpos]
      have hval : read s.token_to_slot t.toNat = -1 := by
        have := (hok hr).1; omega
      have hmiss : Missing s t := ⟨hr, hval⟩
      by_cases hp : t ∈ c.pending_misses
      -- not the first time that it is asked for
      · rw [if_neg (fun hc => hc.2 hp), if_neg (by rw [hval]; decide)]
        have hpre := ((hpend t).mp hp).1
        exact ⟨c, rfl, h.skip (fun hres => hpos hres.2) (fun _ => hpre),
          pending_skip hpend fun _ => hpre, hold⟩
      -- the first time: it joins the unique misses, with this position
      · rw [if_pos ⟨hval, hp⟩]
        have hnew : t ∉ pre := fun hin => hp ((hpend t).mpr ⟨hin, hmiss⟩)
        refine ⟨_, rfl, h.miss hmiss hnew hn, fun u => ?_, ?_⟩
        · rw [Finset.mem_insert, hpend, List.mem_append, List.mem_singleton]
          constructor
          · rintro (rfl | ⟨hu, hm⟩)
            · exact ⟨Or.inr rfl, hmiss⟩
            · exact ⟨Or.inl hu, hm⟩
          · rintro ⟨hu | rfl, hm⟩
            · exact Or.inr ⟨hu, hm⟩
            · exact Or.inl rfl
        · intro m hm p hp
          rcases List.mem_append.mp hm with hm | hm
          · exact hold m hm p hp
          · rw [List.mem_singleton.mp hm] at hp ⊢
            rcases getElem?_concat.mp hp with hp | ⟨hp, _⟩
            · exact absurd (List.mem_of_getElem? hp) hnew
            · exact le_of_eq hp.symm

/-- **The query scan** returns when every queried token's entry is in order. -/
theorem scanQueries_of_entries {s : LookupState} {query : List ℤ} (hok : ∀ t ∈ query, EntryOk s t) :
    ∃ c, scanQueries s query = .ok c ∧ ScanSpec s query query.length c ∧
      FirstOccurrences query c := by
  obtain ⟨c, hc, h, _, hf⟩ := Folds.foldlM_zipIdx (f := scanQuery s)
    (fun pre c => ScanSpec s pre query.length c ∧
      (∀ u, u ∈ c.pending_misses ↔ u ∈ pre ∧ Missing s u) ∧ FirstOccurrences pre c)
    query (s := Scan.init query.length)
    ⟨scanSpec_init s _, fun u => by simp [Scan.init], fun m hm => by simp [Scan.init] at hm⟩
    (fun pre t suf c hq hI => by
      obtain ⟨h, hp, hf⟩ := hI
      have hn : pre.length < query.length := by rw [hq]; simp
      obtain ⟨c', hc', h', hp', hf'⟩ := scanQuery_spec (hok t (by rw [hq]; simp)) h hp hf hn
      exact ⟨c', hc', h', hp', hf'⟩)
  exact ⟨c, hc, h, hf⟩

/-- From a well-formed state the scan cannot raise. -/
theorem scanQueries_spec {s : LookupState} (hwf : Wf s) (query : List ℤ) :
    ∃ c, scanQueries s query = .ok c ∧ ScanSpec s query query.length c ∧
      FirstOccurrences query c :=
  scanQueries_of_entries fun t _ => hwf.entryOk t

/-! ## The allocation -/

/-- The slots hit by this row, in LRU order. -/
def hitSlots (s : LookupState) (c : Scan) : List ℤ := s.lru_slots.filter (· ∈ c.hit_slot_set)

/-- The slots not hit by this row, empty ones included, in LRU order. -/
def evictableSlots (s : LookupState) (c : Scan) : List ℤ :=
  s.lru_slots.filter (· ∉ c.hit_slot_set)

/-- The slots the misses take over. -/
def victimSlots (s : LookupState) (c : Scan) : List ℤ :=
  (evictableSlots s c).take c.unique_misses.length

/-- Each missing token with its victim slot, as table indices. -/
def missPairs (s : LookupState) (c : Scan) : List (ℕ × ℕ) :=
  ((c.unique_misses.map Prod.snd).zip (evictableSlots s c)).map fun m => (m.2.toNat, m.1.toNat)

/-- What a call that returns has done. -/
structure CallSpec (s : LookupState) (query : List ℤ) (c : Scan) (out : Outputs)
    (s' : LookupState) : Prop where
  enough : c.unique_misses.length ≤ (evictableSlots s c).length
  fwd_length : s'.token_to_slot.length = s.token_to_slot.length
  bwd_length : s'.slot_to_token.length = s.slot_to_token.length
  fwd_sentinel : Sentinel s'.token_to_slot
  bwd_sentinel : Sentinel s'.slot_to_token
  tables : (tab s'.token_to_slot, tab s'.slot_to_token) =
    installAll (missPairs s c) (tab s.token_to_slot, tab s.slot_to_token)
  lru : s'.lru_slots = (evictableSlots s c).drop c.unique_misses.length ++
    victimSlots s c ++ hitSlots s c
  ids_length : out.slot_ids.length = query.length
  ids : ∀ p t, query[p]? = some t →
    read out.slot_ids p = if InRange s t then read s'.token_to_slot t.toNat else -1
  mask : out.miss_mask = c.miss_mask

/-- Distinct numbers that are not negative stay distinct as natural numbers. -/
theorem toNat_nodup {xs : List ℤ} (hnd : xs.Nodup) (h0 : ∀ z ∈ xs, 0 ≤ z) :
    (xs.map Int.toNat).Nodup := by
  refine List.Nodup.map_on ?_ hnd
  intro x hx y hy hxy
  have := h0 x hx
  have := h0 y hy
  omega

/-- The installs go into the victims, in order. -/
theorem missPairs_fst (s : LookupState) (c : Scan) :
    (missPairs s c).map Prod.fst = (victimSlots s c).map Int.toNat := by
  unfold missPairs victimSlots
  rw [List.map_map, List.zip_eq_zip_take_min]
  have hmin : min (c.unique_misses.map Prod.snd).length (evictableSlots s c).length
      ≤ (c.unique_misses.map Prod.snd).length := Nat.min_le_left _ _
  rw [show (Prod.fst ∘ fun m : ℤ × ℤ => (m.2.toNat, m.1.toNat)) = Int.toNat ∘ Prod.snd from rfl,
    ← List.map_map, List.map_snd_zip (by simp), List.length_map]
  congr 1
  rw [List.take_eq_take_iff]
  omega

/-- And they bring in the misses, in the order in which they first came up. -/
theorem missPairs_snd {s : LookupState} {c : Scan}
    (h : c.unique_misses.length ≤ (evictableSlots s c).length) :
    (missPairs s c).map Prod.snd = (c.unique_misses.map Prod.snd).map Int.toNat := by
  unfold missPairs
  rw [List.map_map,
    show (Prod.snd ∘ fun m : ℤ × ℤ => (m.2.toNat, m.1.toNat)) = Int.toNat ∘ Prod.fst from rfl,
    ← List.map_map, List.map_fst_zip (by simpa using h)]

/-- A slot can be evicted if no query hits it. -/
theorem mem_evictableSlots {s : LookupState} (hwf : Wf s) {c : Scan} {z : ℤ} :
    z ∈ evictableSlots s c ↔ (0 ≤ z ∧ z < s.slot_to_token.length) ∧ z ∉ c.hit_slot_set := by
  unfold evictableSlots
  rw [List.mem_filter, hwf.mem_lru, decide_eq_true_iff]

theorem mem_hitSlots {s : LookupState} (hwf : Wf s) {c : Scan} {z : ℤ} :
    z ∈ hitSlots s c ↔ (0 ≤ z ∧ z < s.slot_to_token.length) ∧ z ∈ c.hit_slot_set := by
  unfold hitSlots
  rw [List.mem_filter, hwf.mem_lru, decide_eq_true_iff]

theorem victimSlots_subset {s : LookupState} {c : Scan} {z : ℤ} (h : z ∈ victimSlots s c) :
    z ∈ evictableSlots s c := List.mem_of_mem_take h

theorem victimSlots_nodup {s : LookupState} (hwf : Wf s) (c : Scan) :
    (victimSlots s c).Nodup :=
  (hwf.lru_nodup.filter _).sublist (List.take_sublist _ _)

/-- The installs are fresh: the tokens were missing, and no slot and no token comes up twice.
This is what keeps the tables inverse to each other. -/
theorem missPairs_fresh {s : LookupState} (hwf : Wf s) {query : List ℤ} {n : ℕ} {c : Scan}
    (hc : ScanSpec s query n c)
    (h : c.unique_misses.length ≤ (evictableSlots s c).length) :
    Fresh (missPairs s c) (tab s.token_to_slot) where
  slots := by
    rw [missPairs_fst]
    refine toNat_nodup (victimSlots_nodup hwf c) fun z hz => ?_
    exact ((mem_evictableSlots hwf).mp (victimSlots_subset hz)).1.1
  names := by
    rw [missPairs_snd h]
    exact toNat_nodup hc.miss_nodup fun t ht => ((hc.miss_iff t).mp ht).2.1.1
  absent := fun a ha => by
    rw [missPairs_snd h] at ha
    obtain ⟨t, ht, rfl⟩ := List.mem_map.mp ha
    rw [tab_eq_none, ((hc.miss_iff t).mp ht).2.2]
    decide

/-- `s'` is `s` with the pairs `ps` installed, and the LRU order as it was. -/
structure Installed (s : LookupState) (ps : List (ℕ × ℕ)) (s' : LookupState) : Prop where
  fwd_length : s'.token_to_slot.length = s.token_to_slot.length
  bwd_length : s'.slot_to_token.length = s.slot_to_token.length
  fwd_sentinel : Sentinel s'.token_to_slot
  bwd_sentinel : Sentinel s'.slot_to_token
  lru : s'.lru_slots = s.lru_slots
  tables : (tab s'.token_to_slot, tab s'.slot_to_token) =
    installAll ps (tab s.token_to_slot, tab s.slot_to_token)

/-- One install: the token is in range, the victim is a slot of the table. -/
theorem installMiss_spec {s : LookupState} (hx : Sentinel s.token_to_slot)
    (hy : Sentinel s.slot_to_token) (hinv : Inverse (tab s.token_to_slot) (tab s.slot_to_token))
    {t v : ℤ} (ht : InRange s t) (hv : 0 ≤ v ∧ v < s.slot_to_token.length) :
    ∃ s', installMiss s (t, v) = .ok s' ∧
      Installed s [(v.toNat, t.toNat)] s' := by
  have hti : t.toNat < s.token_to_slot.length := by have := ht.2; have := ht.1; omega
  have hvi : v.toNat < s.slot_to_token.length := by omega
  have hcells : ∃ s', installMiss s (t, v) = .ok s' ∧ s'.lru_slots = s.lru_slots ∧
      (s'.token_to_slot, s'.slot_to_token)
        = installCells (s.token_to_slot, s.slot_to_token) v.toNat t.toNat := by
    unfold installMiss installCells
    dsimp only
    rw [Int.toNat_of_nonneg ht.1, Int.toNat_of_nonneg hv.1]
    -- the token of an occupied victim is in the table, as the other table knows it
    by_cases hocc : read s.slot_to_token v.toNat ≥ 0
    · have htab : tab s.slot_to_token v.toNat = some (read s.slot_to_token v.toNat).toNat := by
        rw [tab_eq_some]; omega
      have hlt := lt_of_tab_eq_some ((hinv _ _).mpr htab)
      rw [if_pos hocc, if_neg (by omega), if_pos hocc]
      exact ⟨_, rfl, rfl, rfl⟩
    · rw [if_neg hocc, if_neg hocc]
      exact ⟨_, rfl, rfl, rfl⟩
  obtain ⟨s', hs', hlru, hpair⟩ := hcells
  have h1 : s'.token_to_slot = _ := congrArg Prod.fst hpair
  have h2 : s'.slot_to_token = _ := congrArg Prod.snd hpair
  have hlen := installCells_length (s.token_to_slot, s.slot_to_token) v.toNat t.toNat
  have hsent := installCells_sentinel (p := (s.token_to_slot, s.slot_to_token)) hx hy v.toNat t.toNat
  refine ⟨s', hs', ?_, ?_, ?_, ?_, hlru, ?_⟩
  · rw [h1]; exact hlen.1
  · rw [h2]; exact hlen.2
  · rw [h1]; exact hsent.1
  · rw [h2]; exact hsent.2
  · rw [h1, h2]
    exact installCells_tab (p := (s.token_to_slot, s.slot_to_token)) hinv hti hvi

/-- All installs of a call. -/
theorem installMisses_spec {s : LookupState} (hwf : Wf s) {query : List ℤ} {n : ℕ} {c : Scan}
    (hc : ScanSpec s query n c)
    (h : c.unique_misses.length ≤ (evictableSlots s c).length) :
    ∃ s', ((c.unique_misses.map Prod.snd).zip (evictableSlots s c)).foldlM installMiss s = .ok s' ∧
      Installed s (missPairs s c) s' := by
  have hfresh := missPairs_fresh hwf hc h
  refine Folds.foldlM_prefix
    (fun (pre : List (ℤ × ℤ)) s' => Installed s (pre.map fun m => (m.2.toNat, m.1.toNat)) s') _
    ⟨rfl, rfl, hwf.fwd_sentinel, hwf.bwd_sentinel, rfl, rfl⟩ ?_
  rintro pre ⟨t, v⟩ suf s1 hsplit h1
  -- the prefix installed so far is fresh, so the tables are still inverse
  have hpre : Fresh (pre.map fun m : ℤ × ℤ => (m.2.toNat, m.1.toNat)) (tab s.token_to_slot) := by
    unfold missPairs at hfresh
    rw [hsplit, List.map_append] at hfresh
    exact hfresh.prefix
  have hinv := hwf.inverse.inverse.installAll hpre
  rw [← h1.tables] at hinv
  have hmem : (t, v) ∈ (c.unique_misses.map Prod.snd).zip (evictableSlots s c) := by
    rw [hsplit]; simp
  have ht : InRange s1 t := by
    have := ((hc.miss_iff t).mp (List.of_mem_zip hmem).1).2.1
    unfold InRange at this ⊢
    rw [h1.fwd_length]; exact this
  have hv := ((mem_evictableSlots hwf).mp (List.of_mem_zip hmem).2).1
  obtain ⟨s2, hs2, h2⟩ := installMiss_spec h1.fwd_sentinel h1.bwd_sentinel hinv ht
    (by rw [h1.bwd_length]; exact hv)
  refine ⟨s2, hs2, h2.fwd_length.trans h1.fwd_length, h2.bwd_length.trans h1.bwd_length,
    h2.fwd_sentinel, h2.bwd_sentinel, h2.lru.trans h1.lru, ?_⟩
  rw [h2.tables, h1.tables, List.map_append, List.map_singleton, installAll_concat]
  rfl

/-- The last loop leaves padding alone and reads every other position's slot. -/
theorem resolveQueries_spec (s : LookupState) (query ids : List ℤ)
    (hlen : ids.length = query.length) :
    (query.zipIdx.foldl (resolveQuery s) ids).length = query.length ∧
    ∀ p t, query[p]? = some t → read (query.zipIdx.foldl (resolveQuery s) ids) p =
      if InRange s t then read s.token_to_slot t.toNat else read ids p := by
  have key := Folds.foldl_zipIdx (f := resolveQuery s) (fun pre ids' =>
      ids'.length = query.length ∧ (∀ p, pre.length ≤ p → read ids' p = read ids p) ∧
      ∀ p t, pre[p]? = some t → read ids' p =
        if InRange s t then read s.token_to_slot t.toNat else read ids p)
    query (s := ids) ⟨hlen, fun _ _ => rfl, fun p t hp => by simp at hp⟩ ?_
  · exact ⟨key.1, key.2.2⟩
  rintro pre t suf ids' hq ⟨hl, hrest, hdone⟩
  have hn : pre.length < query.length := by rw [hq]; simp
  unfold resolveQuery
  dsimp only
  refine ⟨by split_ifs <;> simp [hl], fun p hp => ?_, fun p u hp => ?_⟩
  · rw [List.length_append, List.length_singleton] at hp
    split_ifs
    · rw [read_set (by omega), if_neg (by omega)]; exact hrest p (by omega)
    · exact hrest p (by omega)
  · rcases getElem?_concat.mp hp with hp | ⟨rfl, rfl⟩
    · have hlt := lt_of_getElem?_eq_some hp
      rw [← hdone p u hp]
      split_ifs
      · rw [read_set (by omega), if_neg (by omega)]
      · rfl
    · split_ifs
      · rw [read_set (by omega), if_pos rfl]
      · exact hrest _ (le_refl _)

/-- **The allocation**, whichever position reports a repeated missing token. -/
theorem allocate_spec {s : LookupState} (hwf : Wf s) {query : List ℤ} {c : Scan}
    (hc : ScanSpec s query query.length c) :
    if c.unique_misses.length ≤ (evictableSlots s c).length then
      ∃ out s', allocate query s c = .ok (out, s') ∧ CallSpec s query c out s'
    else allocate query s c = .error ⟨"unique misses exceed evictable slot count", s⟩ := by
  split_ifs with h
  · obtain ⟨s1, hs1, h1⟩ := installMisses_spec hwf hc h
    have hrange : ∀ t, InRange s1 t ↔ InRange s t := fun t => by
      unfold InRange; rw [h1.fwd_length]
    obtain ⟨hil, hids⟩ := resolveQueries_spec s1 query c.slot_ids hc.ids_length
    have hret : allocate query s c = .ok
        (⟨query.zipIdx.foldl (resolveQuery s1) c.slot_ids, c.miss_mask⟩, { s1 with
          lru_slots := (evictableSlots s c).drop c.unique_misses.length ++
            victimSlots s c ++ hitSlots s c }) := by
      unfold allocate
      unfold evictableSlots at hs1 h
      dsimp only
      rw [if_neg (by omega), hs1]
      rfl
    refine ⟨_, _, hret, h, h1.fwd_length, h1.bwd_length, h1.fwd_sentinel, h1.bwd_sentinel,
      h1.tables, rfl, hil, fun p t hp => ?_, rfl⟩
    · rw [hids p t hp]
      by_cases hr : InRange s t
      · rw [if_pos ((hrange t).mpr hr), if_pos hr]
      · rw [if_neg (fun h1 => hr ((hrange t).mp h1)), if_neg hr]
        -- only padding keeps what the scan wrote
        refine hc.ids_padding p fun u hu => ?_
        rw [hp] at hu
        exact Option.some.inj hu ▸ hr
  · unfold allocate
    unfold evictableSlots at h
    dsimp only
    rw [if_pos (by omega)]

end AsuAscend.Lookup
