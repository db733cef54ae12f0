/-
`lookup_allocate_evict` with the reported misses chosen from outside.

The oracle reports a repeated missing token at its first occurrence. Here the
position is a parameter: `w t` is the query position that reports the miss of `t`
(`Selector`). Only the test on `pending_misses` in the query scan changes; the
rest is the oracle's own code. The choice is all there is to it: two calls that
report the same misses have the same results (`CallSpec.determined`), and with the
oracle's choice the call is the oracle's (`lookup_at_eq`).

## Why a selector

On the device the position that reports a miss is the one whose compare-and-swap wins. A
schedule of the kernel is therefore compared with the oracle in two steps: the kernel computes
`lookup_allocate_evict_at w` for the selector `w` that the schedule has decided, and this module
says how that call relates to the oracle's. A selector only has to name, for each missing
token, some position at which it stands (`Selector`).
-/
import AsuAscend.Lookup.Call

set_option autoImplicit false

open SentinelTable InverseTables

namespace AsuAscend.Lookup

/-! ## The scan with chosen positions -/

/-- `scanQuery`, with the miss of `token` reported at position `w token`. -/
def scanQueryAt (w : ℤ → ℕ) (s : LookupState) (c : Scan) (q : ℤ × ℕ) : Except Raised Scan :=
  let token := q.1
  let pos := q.2
  if token < 0 ∨ token ≥ s.token_to_slot.length then .ok c
  else
    let slot := read s.token_to_slot token.toNat
    if slot ≥ 0 then
      if slot ≥ s.slot_to_token.length then
        .error ⟨s!"token {token} maps outside the slot table", s⟩
      else
        .ok { c with
          slot_ids := c.slot_ids.set pos slot
          hit_slot_set := insert slot c.hit_slot_set }
    else if slot = NOT_FOUND ∧ pos = w token then
      .ok { c with
        pending_misses := insert token c.pending_misses
        unique_misses := c.unique_misses ++ [(pos, token)]
        miss_mask := c.miss_mask.set pos true }
    else if slot ≠ NOT_FOUND then
      .error ⟨s!"token {token} has transient/invalid slot {slot}", s⟩
    else .ok c

def scanQueriesAt (w : ℤ → ℕ) (s : LookupState) (query : List ℤ) : Except Raised Scan :=
  query.zipIdx.foldlM (scanQueryAt w s) (Scan.init query.length)

/-- `lookup_allocate_evict`, with the miss of each token reported at position `w`. -/
def lookup_allocate_evict_at (w : ℤ → ℕ) (query : List ℤ) (s : LookupState) :
    Except Raised (Outputs × LookupState) :=
  let slot_count := s.slot_to_token.length
  if s.lru_slots.length ≠ slot_count then
    .error ⟨"lru_slots length must match slot_to_token", s⟩
  else if s.lru_slots.insertionSort (· ≤ ·) ≠ (List.range slot_count).map Int.ofNat then
    .error ⟨"lru_slots must be a permutation of all slot ids", s⟩
  else do
    let c ← scanQueriesAt w s query
    allocate query s c

/-- `w` names a query position of each missing token of the row. -/
def Selector (s : LookupState) (query : List ℤ) (w : ℤ → ℕ) : Prop :=
  ∀ t ∈ query, Missing s t → query[w t]? = some t

/-- What the scan records after the queries `query`. -/
def Selected (s : LookupState) (query : List ℤ) (w : ℤ → ℕ) (c : Scan) : Prop :=
  ∀ p t, (p, t) ∈ c.unique_misses ↔ query[p]? = some t ∧ Missing s t ∧ w t = p

/-- An entry that is not selected: a hit, a token out of range, or one that is selected
elsewhere. -/
theorem Selected.skip {s : LookupState} {pre : List ℤ} {w : ℤ → ℕ} {c c' : Scan} {t : ℤ}
    (h : Selected s pre w c) (hc : c'.unique_misses = c.unique_misses)
    (ht : Missing s t → w t ≠ pre.length) : Selected s (pre ++ [t]) w c' := by
  intro p u
  rw [hc, h p u, getElem?_concat]
  constructor
  · rintro ⟨hp, hm⟩; exact ⟨Or.inl hp, hm⟩
  · rintro ⟨hp | ⟨rfl, rfl⟩, hm, hw⟩
    · exact ⟨hp, hm, hw⟩
    · exact absurd hw (ht hm)

/-- The entry that is selected for its token. -/
theorem Selected.miss {s : LookupState} {pre : List ℤ} {w : ℤ → ℕ} {c c' : Scan} {t : ℤ}
    (h : Selected s pre w c) (hc : c'.unique_misses = c.unique_misses ++ [(pre.length, t)])
    (hmiss : Missing s t) (hw : w t = pre.length) : Selected s (pre ++ [t]) w c' := by
  intro p u
  rw [hc, List.mem_append, List.mem_singleton, h p u, getElem?_concat, Prod.mk.injEq]
  constructor
  · rintro (⟨hp, hm⟩ | ⟨rfl, rfl⟩)
    · exact ⟨Or.inl hp, hm⟩
    · exact ⟨Or.inr ⟨rfl, rfl⟩, hmiss, hw⟩
  · rintro ⟨hp | hp, hm⟩
    · exact Or.inl ⟨hp, hm⟩
    · exact Or.inr hp

/-- One turn of the scan with chosen positions. -/
theorem scanQueryAt_spec {s : LookupState} (hwf : Wf s) {w : ℤ → ℕ} {pre : List ℤ} {t : ℤ} {n : ℕ}
    {c : Scan} (h : ScanShape s pre n c) (hsel : Selected s pre w c) (hn : pre.length < n) :
    ∃ c', scanQueryAt w s c (t, pre.length) = .ok c' ∧ ScanShape s (pre ++ [t]) n c' ∧
      Selected s (pre ++ [t]) w c' := by
  unfold scanQueryAt
  dsimp only
  by_cases hout : t < 0 ∨ t ≥ s.token_to_slot.length
  · rw [if_pos hout]
    have hnr : ¬ InRange s t := by unfold InRange; omega
    exact ⟨c, rfl, h.skip fun hr => hnr hr.1, hsel.skip rfl fun hm => absurd hm.1 hnr⟩
  rw [if_neg hout]
  have hr : InRange s t := by unfold InRange; omega
  by_cases hpos : read s.token_to_slot t.toNat ≥ 0
  · rw [if_pos hpos, if_neg (by have := hwf.slot_lt hpos; omega)]
    refine ⟨_, rfl, h.hit ⟨hr, hpos⟩ hn, hsel.skip rfl fun hm => ?_⟩
    have := hm.2
    omega
  rw [if_neg hpos]
  have hval : read s.token_to_slot t.toNat = -1 := by
    have := hwf.fwd_sentinel.read t.toNat; omega
  have hmiss : Missing s t := ⟨hr, hval⟩
  -- only the chosen position reports the miss
  by_cases hw : pre.length = w t
  · rw [if_pos ⟨hval, hw⟩]
    exact ⟨_, rfl, h.miss hmiss hn, hsel.miss rfl hmiss hw.symm⟩
  · rw [if_neg fun hc => hw hc.2, if_neg (by rw [hval]; decide)]
    exact ⟨c, rfl, h.skip fun hres => hpos hres.2, hsel.skip rfl fun _ heq => hw heq.symm⟩

/-- **The scan with chosen positions** cannot raise from a well-formed state, and
it is a scan in the sense of `allocate_spec`. -/
theorem scanQueriesAt_spec {s : LookupState} (hwf : Wf s) {query : List ℤ} {w : ℤ → ℕ}
    (hw : Selector s query w) :
    ∃ c, scanQueriesAt w s query = .ok c ∧ ScanSpec s query query.length c ∧
      Selected s query w c := by
  obtain ⟨c, hc, h, hsel⟩ := Folds.foldlM_zipIdx (f := scanQueryAt w s)
    (fun pre c => ScanShape s pre query.length c ∧ Selected s pre w c)
    query (s := Scan.init query.length)
    ⟨scanShape_init s _, fun p t => by simp [Scan.init]⟩
    (fun pre t suf c hq hI => by
      have hn : pre.length < query.length := by rw [hq]; simp
      exact scanQueryAt_spec hwf hI.1 hI.2 hn)
  refine ⟨c, hc, { h with miss_iff := fun t => ?_, miss_nodup := ?_ }, hsel⟩
  · rw [List.mem_map]
    constructor
    · rintro ⟨⟨p, u⟩, hm, rfl⟩
      obtain ⟨hp, hmiss, _⟩ := (hsel p u).mp hm
      exact ⟨List.mem_of_getElem? hp, hmiss⟩
    · rintro ⟨ht, hmiss⟩
      exact ⟨(w t, t), (hsel _ _).mpr ⟨hw t ht hmiss, hmiss, rfl⟩, rfl⟩
  · -- the token of a recorded miss determines its position
    have hnd : c.unique_misses.Nodup :=
      List.Nodup.of_map Prod.fst (h.pos_sorted.imp fun hlt => ne_of_lt hlt)
    refine List.Nodup.map_on ?_ hnd
    rintro ⟨p, t⟩ hp ⟨q, u⟩ hq (rfl : t = u)
    rw [← ((hsel p t).mp hp).2.2, ← ((hsel q t).mp hq).2.2]

/-- A call with chosen positions returns exactly when the misses fit. -/
theorem lookup_at_spec {s : LookupState} (hwf : Wf s) {query : List ℤ} {w : ℤ → ℕ}
    (hw : Selector s query w) :
    ∃ c, ScanSpec s query query.length c ∧ Selected s query w c ∧
      if c.unique_misses.length ≤ (evictableSlots s c).length then
        ∃ out s', lookup_allocate_evict_at w query s = .ok (out, s') ∧ CallSpec s query c out s'
      else lookup_allocate_evict_at w query s =
        .error ⟨"unique misses exceed evictable slot count", s⟩ := by
  obtain ⟨c, hc, hspec, hsel⟩ := scanQueriesAt_spec hwf hw
  have hcall : lookup_allocate_evict_at w query s = allocate query s c := by
    unfold lookup_allocate_evict_at
    dsimp only
    rw [if_neg fun hne => hne hwf.lru_length, if_neg fun hne => hne (lru_sorted_of_perm hwf.perm), hc]
    rfl
  refine ⟨c, hspec, hsel, ?_⟩
  rw [hcall]
  exact allocate_spec hwf hspec

/-! ## The reported misses decide the results

The positions of the misses enter the result through the order in which victims are handed
out, and through nothing else. Two scans with the same list of unique misses therefore give
the same tables, the same order and the same outputs. -/

section Determined

variable {s : LookupState} {query : List ℤ} {c c' : Scan}

/-- Two scans that record the same misses, in whatever way they are given. -/
theorem ScanSpec.unique_misses_eq (hc : ScanSpec s query query.length c)
    (hc' : ScanSpec s query query.length c')
    (h : ∀ m, m ∈ c.unique_misses ↔ m ∈ c'.unique_misses) : c.unique_misses = c'.unique_misses := by
  have hsorted : ∀ {d : Scan}, ScanSpec s query query.length d →
      d.unique_misses.Pairwise fun a b => a.1 < b.1 := fun hd => List.pairwise_map.mp hd.pos_sorted
  have hnd : ∀ {d : Scan}, ScanSpec s query query.length d → d.unique_misses.Nodup := fun hd =>
    List.Nodup.of_map Prod.fst (hd.pos_sorted.imp fun hlt => ne_of_lt hlt)
  refine List.Perm.eq_of_pairwise ?_ (hsorted hc) (hsorted hc')
    ((List.perm_ext_iff_of_nodup (hnd hc) (hnd hc')).mpr h)
  intro a b _ _ hab hba
  exact absurd hab (Nat.lt_asymm hba)

/-- Which slots are hit does not hang on the selector. -/
theorem ScanSpec.hit_eq (hc : ScanSpec s query query.length c)
    (hc' : ScanSpec s query query.length c') : c.hit_slot_set = c'.hit_slot_set := by
  ext z
  rw [hc.hit_iff, hc'.hit_iff]

/-- Two calls that report the same misses leave the same state. -/
theorem CallSpec.state_determined (hc : ScanSpec s query query.length c)
    (hc' : ScanSpec s query query.length c') (hu : c.unique_misses = c'.unique_misses)
    {out out' : Outputs} {s1 s2 : LookupState} (h1 : CallSpec s query c out s1)
    (h2 : CallSpec s query c' out' s2) : s1 = s2 := by
  have hh := hc.hit_eq hc'
  have hev : evictableSlots s c = evictableSlots s c' := by unfold evictableSlots; rw [hh]
  have hpairs : missPairs s c = missPairs s c' := by unfold missPairs; rw [hu, hev]
  have hf : s1.token_to_slot = s2.token_to_slot := by
    refine ext_of_tab h1.fwd_sentinel h2.fwd_sentinel (h1.fwd_length.trans h2.fwd_length.symm) ?_
    intro i
    rw [h1.fwd_tab, h2.fwd_tab, hpairs]
  have hb : s1.slot_to_token = s2.slot_to_token := by
    refine ext_of_tab h1.bwd_sentinel h2.bwd_sentinel (h1.bwd_length.trans h2.bwd_length.symm) ?_
    intro i
    rw [h1.bwd_tab, h2.bwd_tab, hpairs]
  have hl : s1.lru_slots = s2.lru_slots := by
    rw [h1.lru, h2.lru]
    unfold victimSlots hitSlots
    rw [hev, hu, hh]
  obtain ⟨f1, b1, l1⟩ := s1
  obtain ⟨f2, b2, l2⟩ := s2
  simp only at hf hb hl
  rw [hf, hb, hl]

/-- **Two calls that report the same misses have the same results.** -/
theorem CallSpec.determined (hc : ScanSpec s query query.length c)
    (hc' : ScanSpec s query query.length c')
    (hmiss : ∀ m, m ∈ c.unique_misses ↔ m ∈ c'.unique_misses) {out out' : Outputs}
    {s1 s2 : LookupState} (h1 : CallSpec s query c out s1) (h2 : CallSpec s query c' out' s2) :
    out = out' ∧ s1 = s2 := by
  have hu := hc.unique_misses_eq hc' hmiss
  have hs := h1.state_determined hc hc' hu h2
  refine ⟨?_, hs⟩
  have hids : out.slot_ids = out'.slot_ids := by
    refine List.ext_getElem (h1.ids_length.trans h2.ids_length.symm) fun p hp hp' => ?_
    obtain ⟨t, hq⟩ : ∃ t, query[p]? = some t :=
      ⟨_, List.getElem?_eq_getElem (lt_of_lt_of_eq hp h1.ids_length)⟩
    rw [← read_of_lt hp, ← read_of_lt hp', h1.ids p t hq, h2.ids p t hq, hs]
  have hmask : out.miss_mask = out'.miss_mask := by
    rw [h1.mask, h2.mask]
    refine List.ext_getElem (hc.mask_length.trans hc'.mask_length.symm) fun p hp hp' => ?_
    have heq : c.miss_mask.getD p false = true ↔ c'.miss_mask.getD p false = true := by
      rw [hc.mask_iff, hc'.mask_iff, hu]
    rw [List.getD_eq_getElem _ _ hp, List.getD_eq_getElem _ _ hp'] at heq
    exact Bool.eq_iff_iff.mpr heq
  obtain ⟨i1, m1⟩ := out
  obtain ⟨i2, m2⟩ := out'
  simp only at hids hmask
  rw [hids, hmask]

end Determined

/-! ## The oracle's choice -/

/-- **The oracle is the call that reports every miss at its first occurrence.** -/
theorem lookup_at_eq {s : LookupState} (hwf : Wf s) {query : List ℤ} {w : ℤ → ℕ}
    (hw : Selector s query w) (hfirst : ∀ t ∈ query, Missing s t → ∀ p, query[p]? = some t → w t ≤ p) :
    lookup_allocate_evict_at w query s = lookup_allocate_evict query s := by
  obtain ⟨c, hspec, hf, hcall⟩ := lookup_spec hwf query
  obtain ⟨c', hspec', hsel, hcall'⟩ := lookup_at_spec hwf hw
  -- both scans report a missing token at its first occurrence
  have hmem : ∀ m, m ∈ c'.unique_misses ↔ m ∈ c.unique_misses := by
    rintro ⟨p, t⟩
    rw [hsel p t]
    constructor
    · rintro ⟨hp, hm, rfl⟩
      have ht := List.mem_of_getElem? hp
      obtain ⟨⟨q, u⟩, hqu, rfl⟩ := List.mem_map.mp ((hspec.miss_iff t).mpr ⟨ht, hm⟩)
      have h1 : q ≤ w u := hf _ hqu _ hp
      have h2 := hfirst u ht hm q (hspec.miss_pos _ hqu)
      rw [Nat.le_antisymm h2 h1]
      exact hqu
    · intro hpt
      have hp := hspec.miss_pos _ hpt
      have hm := ((hspec.miss_iff t).mp (List.mem_map.mpr ⟨_, hpt, rfl⟩)).2
      have ht := List.mem_of_getElem? hp
      exact ⟨hp, hm, Nat.le_antisymm (hfirst t ht hm p hp) (hf _ hpt _ (hw t ht hm))⟩
  have hu := hspec'.unique_misses_eq hspec hmem
  have hev : evictableSlots s c' = evictableSlots s c := by
    unfold evictableSlots; rw [hspec'.hit_eq hspec]
  rw [hu, hev] at hcall'
  split_ifs at hcall hcall' with hle
  · obtain ⟨out, s1, hok, h1⟩ := hcall
    obtain ⟨out', s2, hok', h2⟩ := hcall'
    obtain ⟨rfl, rfl⟩ := CallSpec.determined hspec' hspec hmem h2 h1
    rw [hok, hok']
  · rw [hcall, hcall']

/-- No missing token is repeated in the row. -/
def MissesDistinct (s : LookupState) (query : List ℤ) : Prop :=
  ∀ t, Missing s t → ∀ p q : ℕ, query[p]? = some t → query[q]? = some t → p = q

/-- Where no missing token is repeated, every choice is the oracle's. -/
theorem lookup_at_eq_of_distinct {s : LookupState} (hwf : Wf s) {query : List ℤ} {w : ℤ → ℕ}
    (hw : Selector s query w) (hone : MissesDistinct s query) :
    lookup_allocate_evict_at w query s = lookup_allocate_evict query s :=
  lookup_at_eq hwf hw fun t ht hm _ hp => le_of_eq (hone t hm _ _ (hw t ht hm) hp)

end AsuAscend.Lookup
