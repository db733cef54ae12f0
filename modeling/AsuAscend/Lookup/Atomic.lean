/-
What a call of `lookup_allocate_evict` that raises leaves behind, from any state.

Five of the six checks run before the tables are touched. The sixth, that a victim
slot holds a token the tables can hold, runs in the loop that installs the misses, so
the misses before it are installed already. `lookup_atomic_iff` says exactly when
nothing has changed: when the check fails at all, it fails at the first victim.

## What can raise, and when

* the order has not one entry for each slot, or is no permutation of them: at once;
* a token of the row maps outside the slot table, or to a negative entry other than `-1`: within
  the scan, which stores nothing (`scanQueries_error`);
* there are more misses than evictable slots: between scan and installs;
* a victim holds a token that is out of range: within the installs. `HoldsStray` is this
  condition on the tables before the call, and `StrayFirst` that it meets the first victim.

No invariant is asked of the state here: the theorem is about every state and every row, so
that also a caller with spoilt tables learns what is left of them.
-/
import AsuAscend.Lookup.Call

set_option autoImplicit false

open SentinelTable

namespace AsuAscend.Lookup

/-! ## The condition on the state and the row -/

/-- The distinct missing tokens of the row. -/
def missingTokens (s : LookupState) (query : List ℤ) : Finset ℤ :=
  query.toFinset.filter fun t => Missing s t

/-- The slots that no queried token sits in, in LRU order. -/
def unhitSlots (s : LookupState) (query : List ℤ) : List ℤ :=
  s.lru_slots.filter fun z => ∀ t ∈ query, ¬ (Resident s t ∧ read s.token_to_slot t.toNat = z)

/-- The slots that the missing tokens would take over. -/
def takenSlots (s : LookupState) (query : List ℤ) : List ℤ :=
  (unhitSlots s query).take (missingTokens s query).card

/-- The slot holds a token outside the token table. -/
def HoldsStray (s : LookupState) (slot : ℤ) : Prop :=
  s.token_to_slot.length ≤ read s.slot_to_token slot.toNat

/-- The checks before the allocation pass. -/
structure Allocates (s : LookupState) (query : List ℤ) : Prop where
  perm : s.lru_slots.Perm ((List.range s.slot_to_token.length).map Int.ofNat)
  entries : ∀ t ∈ query, EntryOk s t
  enough : (missingTokens s query).card ≤ (unhitSlots s query).length

/-- If some victim of a call that allocates holds a stray token, the first one does. -/
def StrayFirst (s : LookupState) (query : List ℤ) : Prop :=
  Allocates s query → (∃ z ∈ takenSlots s query, HoldsStray s z) →
    ∃ z, (takenSlots s query).head? = some z ∧ HoldsStray s z

/-! ## The checks before the allocation -/

section Checks

variable {s : LookupState} {query : List ℤ}

/-- A turn of the scan changes nothing when it raises. -/
theorem scanQuery_error {c : Scan} {q : ℤ × ℕ} {r : Raised} (h : scanQuery s c q = .error r) :
    r.state = s := by
  unfold scanQuery at h
  dsimp only at h
  split_ifs at h <;> cases h <;> rfl

/-- The scan raises before anything has been stored. -/
theorem scanQueries_error {r : Raised} (h : scanQueries s query = .error r) : r.state = s := by
  obtain ⟨_, q, _, c, -, -, hq⟩ := Folds.error_of_foldlM h
  exact scanQuery_error hq

/-- A turn of the scan that does not raise has found a good entry. -/
theorem scanQuery_ok {c c' : Scan} {q : ℤ × ℕ} (h : scanQuery s c q = .ok c') : EntryOk s q.1 := by
  intro hr
  have hin : ¬ (q.1 < 0 ∨ q.1 ≥ s.token_to_slot.length) := by
    have h0 := hr.1
    have h1 := hr.2
    omega
  unfold scanQuery at h
  dsimp only at h
  rw [if_neg hin] at h
  split_ifs at h with h1 h2 h3 h4
  · omega
  · have hval := h3.1
    unfold NOT_FOUND at hval
    omega
  · unfold NOT_FOUND at h4
    omega

/-- A scan that goes through has found nothing wrong with any entry. -/
theorem scanQueries_ok {c : Scan} (h : scanQueries s query = .ok c) : ∀ t ∈ query, EntryOk s t := by
  intro t ht
  obtain ⟨p, hp, hpt⟩ := List.mem_iff_getElem.mp ht
  have hmem : (t, p) ∈ query.zipIdx := by
    rw [List.mem_zipIdx_iff_getElem?, List.getElem?_eq_getElem hp, hpt]
  obtain ⟨pre, suf, hsplit⟩ := List.append_of_mem hmem
  unfold scanQueries at h
  rw [hsplit] at h
  obtain ⟨c1, -, h1⟩ := Folds.ok_of_foldlM_append h
  rw [List.foldlM_cons] at h1
  obtain ⟨c2, h2, -⟩ := Folds.ok_of_bind h1
  exact scanQuery_ok h2

/-- A row that does not get as far as the allocation changes nothing. -/
theorem lookup_error_early (hno : ¬ (s.lru_slots.Perm
    ((List.range s.slot_to_token.length).map Int.ofNat) ∧ ∀ t ∈ query, EntryOk s t)) {r : Raised}
    (h : lookup_allocate_evict query s = .error r) : r.state = s := by
  unfold lookup_allocate_evict at h
  dsimp only at h
  split_ifs at h with hlen hsort
  · cases h; rfl
  · cases h; rfl
  · -- the permutation check has passed, so the scan raises
    have hperm : s.lru_slots.Perm ((List.range s.slot_to_token.length).map Int.ofNat) := by
      rw [← not_not.mp hsort]
      exact (List.perm_insertionSort _ _).symm
    cases hscan : scanQueries s query with
    | error e =>
        rw [hscan] at h
        cases h
        exact scanQueries_error hscan
    | ok c => exact absurd ⟨hperm, scanQueries_ok hscan⟩ hno

end Checks

/-! ## The loop that installs the misses

Each turn checks its victim and then stores, so a turn that raises has stored nothing of its
own. What has changed is what the turns before it stored, and a turn that stores always changes
the order's victim: `installMisses_atomic` turns that into "nothing has changed exactly if no
turn came before". -/

section Install

variable {s s' : LookupState}

theorem read_set_of_ne {xs : List ℤ} {i k : ℕ} (h : k ≠ i) (v : ℤ) :
    read (xs.set i v) k = read xs k := by
  unfold SentinelTable.read
  rw [List.getD_eq_getElem?_getD, List.getD_eq_getElem?_getD, List.getElem?_set_ne h.symm]

/-- An install that raises has changed nothing and met a stray token. -/
theorem installMiss_error {m : ℤ × ℤ} {r : Raised} (h : installMiss s m = .error r) :
    r.state = s ∧ HoldsStray s m.2 := by
  unfold installMiss at h
  dsimp only at h
  split_ifs at h with h1 h2
  cases h
  exact ⟨rfl, h2⟩

/-- What an install that returns has done, whatever the state. -/
theorem installMiss_ok {t v : ℤ} (h : installMiss s (t, v) = .ok s') :
    ¬ HoldsStray s v ∧ s'.token_to_slot.length = s.token_to_slot.length ∧
      (∀ k, k ≠ v.toNat → read s'.slot_to_token k = read s.slot_to_token k) ∧
      (InRange s t → read s'.token_to_slot t.toNat = v) := by
  unfold installMiss at h
  dsimp only at h
  unfold HoldsStray
  split_ifs at h with h1 h2 <;> cases h
  · refine ⟨by omega, by simp, fun k hk => read_set_of_ne hk _, fun ht => ?_⟩
    have h0 := ht.1
    have hlt := ht.2
    rw [read_set (by rw [List.length_set]; omega), if_pos rfl]
  · refine ⟨by omega, by simp, fun k hk => read_set_of_ne hk _, fun ht => ?_⟩
    have h0 := ht.1
    have hlt := ht.2
    rw [read_set (by omega), if_pos rfl]

/-- Installs leave the slots that they do not take alone. -/
theorem installMisses_ok {ps : List (ℤ × ℤ)} (h : ps.foldlM installMiss s = .ok s') :
    s'.token_to_slot.length = s.token_to_slot.length ∧
      ∀ k, (∀ m ∈ ps, k ≠ m.2.toNat) → read s'.slot_to_token k = read s.slot_to_token k := by
  refine Folds.foldlM_keeps (fun s' => s'.token_to_slot.length = s.token_to_slot.length ∧
    ∀ k, (∀ m ∈ ps, k ≠ m.2.toNat) → read s'.slot_to_token k = read s.slot_to_token k) ?_
    ⟨rfl, fun _ _ => rfl⟩ h
  rintro s1 s2 ⟨t, v⟩ hm ⟨hlen, hread⟩ h2
  obtain ⟨-, hlen2, hread2, -⟩ := installMiss_ok h2
  exact ⟨hlen2.trans hlen, fun k hk => (hread2 k (hk _ hm)).trans (hread k hk)⟩

variable {ps : List (ℤ × ℤ)} (hnodup : (ps.map fun m => m.2.toNat).Nodup)
  (hmiss : ∀ m ∈ ps, Missing s m.1 ∧ 0 ≤ m.2)

include hnodup in
/-- When an install is due, its victim holds what it held before the loop. -/
theorem stray_before {pre suf : List (ℤ × ℤ)} {m : ℤ × ℤ} (hsplit : ps = pre ++ m :: suf)
    (hpre : pre.foldlM installMiss s = .ok s') : HoldsStray s' m.2 ↔ HoldsStray s m.2 := by
  obtain ⟨hlen, hread⟩ := installMisses_ok hpre
  unfold HoldsStray
  rw [hlen, hread]
  intro m' hm' heq
  rw [hsplit, List.map_append, List.map_cons] at hnodup
  exact (List.nodup_append.mp hnodup).2.2 _ (List.mem_map_of_mem hm') _ List.mem_cons_self heq.symm

include hmiss in
/-- The last install shows: a missing token has become resident. -/
theorem installed_ne {pre suf : List (ℤ × ℤ)} (hsplit : ps = pre ++ suf) (hne : pre ≠ [])
    (hpre : pre.foldlM installMiss s = .ok s') : s' ≠ s := by
  rintro rfl
  obtain ⟨front, ⟨t, v⟩, rfl⟩ := (List.eq_nil_or_concat pre).resolve_left hne
  rw [List.concat_eq_append] at hpre hsplit
  obtain ⟨s1, h1, h2⟩ := Folds.ok_of_foldlM_append hpre
  rw [List.foldlM_cons] at h2
  obtain ⟨s2, h2, h3⟩ := Folds.ok_of_bind h2
  cases h3
  obtain ⟨hm, hv⟩ := hmiss (t, v) (by rw [hsplit]; simp)
  have hin : InRange s1 t := by
    have hr := hm.1
    unfold InRange at hr ⊢
    rwa [(installMisses_ok h1).1] at *
  have hnew := (installMiss_ok h2).2.2.2 hin
  rw [hm.2] at hnew
  dsimp only at hv
  omega

include hnodup hmiss in
/-- **The loop that installs the misses** leaves no trace of a raise exactly when a
stray token, if there is one, sits in the first victim. -/
theorem installMisses_atomic :
    (∀ r, ps.foldlM installMiss s = .error r → r.state = s) ↔
      ((∃ m ∈ ps, HoldsStray s m.2) → ∃ m, ps.head? = some m ∧ HoldsStray s m.2) := by
  constructor
  · rintro hatomic ⟨m, hm, hstray⟩
    obtain ⟨pre, suf, hsplit⟩ := List.append_of_mem hm
    cases hrun : ps.foldlM installMiss s with
    | ok s' =>
        -- every install has returned, the one of `m` too
        rw [hsplit] at hrun
        obtain ⟨s1, h1, h2⟩ := Folds.ok_of_foldlM_append hrun
        rw [List.foldlM_cons] at h2
        obtain ⟨s2, h2, -⟩ := Folds.ok_of_bind h2
        exact absurd ((stray_before hnodup hsplit h1).mpr hstray) (installMiss_ok h2).1
    | error r =>
        obtain ⟨pre, m', suf, s1, hsplit, hpre, herr⟩ := Folds.error_of_foldlM hrun
        obtain ⟨hr, hstray'⟩ := installMiss_error herr
        by_cases hnil : pre = []
        · subst hnil
          exact ⟨m', by rw [hsplit]; rfl, (stray_before hnodup hsplit hpre).mp hstray'⟩
        · have hs := hatomic r hrun
          rw [hr] at hs
          exact absurd hs (installed_ne hmiss hsplit hnil hpre)
  · intro hfirst r hrun
    obtain ⟨pre, m, suf, s1, hsplit, hpre, herr⟩ := Folds.error_of_foldlM hrun
    obtain ⟨hr, hstray⟩ := installMiss_error herr
    obtain ⟨m0, hhead, hstray0⟩ := hfirst ⟨m, by rw [hsplit]; simp,
      (stray_before hnodup hsplit hpre).mp hstray⟩
    cases pre with
    | nil =>
        cases hpre
        exact hr
    | cons m1 pre =>
        -- the first install would have raised
        rw [hsplit] at hhead
        cases hhead
        rw [List.foldlM_cons] at hpre
        obtain ⟨s2, h2, -⟩ := Folds.ok_of_bind hpre
        exact absurd hstray0 (installMiss_ok h2).1

end Install

/-! ## The call -/

section Call

variable {s : LookupState} {query : List ℤ} {n : ℕ} {c : Scan}

/-- The unique misses are the missing tokens, each once. -/
theorem ScanSpec.card_missing (hc : ScanSpec s query n c) :
    (missingTokens s query).card = c.unique_misses.length := by
  rw [← List.length_map (f := Prod.snd), ← List.toFinset_card_of_nodup hc.miss_nodup]
  congr 1
  ext t
  rw [List.mem_toFinset, hc.miss_iff, missingTokens, Finset.mem_filter, List.mem_toFinset]

/-- The slots that no query hits are the evictable ones. -/
theorem ScanSpec.unhit_eq (hc : ScanSpec s query n c) : unhitSlots s query = evictableSlots s c := by
  unfold unhitSlots evictableSlots
  refine List.filter_congr fun z _ => ?_
  rw [decide_eq_decide, hc.hit_iff]
  simp only [not_exists, not_and]

/-- The installs of a call: each missing token with its victim. -/
def installs (s : LookupState) (c : Scan) : List (ℤ × ℤ) :=
  (c.unique_misses.map Prod.snd).zip (evictableSlots s c)

/-- The slots that are installed into are the first of the evictable ones. -/
theorem installs_snd (h : c.unique_misses.length ≤ (evictableSlots s c).length) :
    (installs s c).map Prod.snd = (evictableSlots s c).take c.unique_misses.length := by
  unfold installs
  rw [List.zip_eq_zip_take_min, List.map_snd_zip (by simp)]
  congr 1
  rw [List.length_map, Nat.min_eq_left h]

/-- The loop's turns are over distinct slots and missing tokens. -/
theorem installs_spec (hperm : s.lru_slots.Perm ((List.range s.slot_to_token.length).map Int.ofNat))
    (hc : ScanSpec s query n c) (h : c.unique_misses.length ≤ (evictableSlots s c).length) :
    ((installs s c).map fun m => m.2.toNat).Nodup ∧
      ∀ m ∈ installs s c, Missing s m.1 ∧ 0 ≤ m.2 := by
  have hnd : s.lru_slots.Nodup :=
    hperm.nodup_iff.mpr (List.nodup_range.map fun _ _ => Int.ofNat.inj)
  have hpos : ∀ z ∈ evictableSlots s c, 0 ≤ z := by
    intro z hz
    obtain ⟨k, -, rfl⟩ := List.mem_map.mp (hperm.mem_iff.mp (List.mem_of_mem_filter hz))
    exact Int.natCast_nonneg k
  constructor
  · rw [show (fun m : ℤ × ℤ => m.2.toNat) = Int.toNat ∘ Prod.snd from rfl, ← List.map_map,
      installs_snd h]
    exact toNat_nodup ((hnd.filter _).sublist (List.take_sublist _ _)) fun z hz =>
      hpos z (List.mem_of_mem_take hz)
  · rintro ⟨t, v⟩ hm
    obtain ⟨ht, hv⟩ := List.of_mem_zip hm
    exact ⟨((hc.miss_iff t).mp ht).2, hpos v hv⟩

/-- Past the capacity check, a call raises what the loop raises. -/
theorem allocate_error_iff (h : c.unique_misses.length ≤ (evictableSlots s c).length) {r : Raised} :
    allocate query s c = .error r ↔ (installs s c).foldlM installMiss s = .error r := by
  unfold allocate installs
  unfold evictableSlots at h ⊢
  dsimp only
  rw [if_neg (by omega)]
  cases ((c.unique_misses.map Prod.snd).zip
      (s.lru_slots.filter (· ∉ c.hit_slot_set))).foldlM installMiss s with
  | error e =>
      constructor
      · intro he; cases he; rfl
      · intro he; cases he; rfl
  | ok s' =>
      constructor
      · intro he; cases he
      · intro he; cases he

end Call

/-- **When a raise leaves no trace.** For every state, consistent or not, and every row:
a call that raises leaves the three tables as they were if and only if, should a victim
slot hold a token outside the token table, the first victim slot does. -/
theorem lookup_atomic_iff (s : LookupState) (query : List ℤ) :
    (∀ r, lookup_allocate_evict query s = .error r → r.state = s) ↔ StrayFirst s query := by
  by_cases hok : s.lru_slots.Perm ((List.range s.slot_to_token.length).map Int.ofNat) ∧
      ∀ t ∈ query, EntryOk s t
  -- the checks before the loop pass, and the scan returns
  · obtain ⟨hperm, hentries⟩ := hok
    obtain ⟨c, hscan, hc, -⟩ := scanQueries_of_entries hentries
    rw [lookup_eq_allocate hperm hscan]
    -- there are enough victims, so that the call comes to its installs
    by_cases hle : c.unique_misses.length ≤ (evictableSlots s c).length
    · obtain ⟨hnodup, hmiss⟩ := installs_spec hperm hc hle
      have hall : Allocates s query :=
        ⟨hperm, hentries, by rw [hc.card_missing, hc.unhit_eq]; exact hle⟩
      have htaken : takenSlots s query = (installs s c).map Prod.snd := by
        rw [installs_snd hle, takenSlots, hc.card_missing, hc.unhit_eq]
      -- only an install can raise then
      have hraise : (∀ r, allocate query s c = .error r → r.state = s) ↔
          ∀ r, (installs s c).foldlM installMiss s = .error r → r.state = s :=
        forall_congr' fun r => by rw [allocate_error_iff hle]
      rw [hraise, installMisses_atomic hnodup hmiss]
      unfold StrayFirst
      -- the installs take the slots in this order, so the first one is the head of the list
      rw [htaken, List.head?_map]
      constructor
      · rintro h - ⟨z, hz, hstray⟩
        obtain ⟨m, hm, rfl⟩ := List.mem_map.mp hz
        obtain ⟨m0, hhead, hstray0⟩ := h ⟨m, hm, hstray⟩
        exact ⟨m0.2, by rw [hhead]; rfl, hstray0⟩
      · rintro h ⟨m, hm, hstray⟩
        obtain ⟨z, hhead, hstray0⟩ := h hall ⟨m.2, List.mem_map_of_mem hm, hstray⟩
        obtain ⟨m0, hm0, rfl⟩ := Option.map_eq_some_iff.mp hhead
        exact ⟨m0, hm0, hstray0⟩
    · -- the capacity check comes before the loop
      refine iff_of_true (fun r h => ?_) fun hall => ?_
      · unfold allocate at h
        unfold evictableSlots at hle
        dsimp only at h
        rw [if_pos (by omega)] at h
        cases h
        rfl
      · have henough := hall.enough
        rw [hc.card_missing, hc.unhit_eq] at henough
        exact absurd henough hle
  -- a call that fails in its checks or in the scan has written nothing
  · exact iff_of_true (fun r h => lookup_error_early hok h) fun hall =>
      absurd ⟨hall.perm, hall.entries⟩ hok

/-- Two tokens and two slots; the second slot holds token 5. The misses are tokens 0
and 1: the first is installed when the second one's victim is found stray. -/
theorem lookup_half_applied :
    ¬ ∀ (s : LookupState) (query : List ℤ) (r : Raised),
      lookup_allocate_evict query s = .error r →
        r.state.token_to_slot = s.token_to_slot ∧ r.state.slot_to_token = s.slot_to_token ∧
          r.state.lru_slots = s.lru_slots := by
  intro h
  have hrun : lookup_allocate_evict [0, 1] ⟨[-1, -1], [-1, 5], [0, 1]⟩
      = .error ⟨"slot 1 contains out-of-range token 5", ⟨[0, -1], [0, 5], [0, 1]⟩⟩ := by
    decide
  exact absurd (h _ _ _ hrun).1 (by decide)

end AsuAscend.Lookup
