/-
The working-set guarantee of the batch-LRU approximation.

Fix a window of consecutive calls whose in-range tokens fit in the slots all
together. `WindowInv T s` is what carries the argument through the window: the
tokens `T` queried since it began are resident, and in the LRU order all slots
untouched since then precede the slots of `T`. A call's victims are then taken
from the untouched slots (`misses_fit` counts that there are enough), so no token
of the window is evicted before the window ends.

The window may follow any run of calls, including calls that raised: from a
well-formed state a raise leaves the state as it was.

## The counting

Let the tokens of the window be no more than the slots. At a call of the window let `T` be what
has been touched before. The misses of the call are not in `T`, and the hits inside `T` keep their
slots; so the slots untouched and unhit are at least as many as the misses. They come first in
the order, and are what the call takes.

`working_set_guarantee` states the three parts for the whole window at once: no call raises,
each token of it misses at most once, and stays in the slot that it has got.
-/
import AsuAscend.Lookup.Runs

set_option autoImplicit false

open SentinelTable InverseTables

namespace AsuAscend.Lookup

/-! ## Calls that may raise -/

/-- The state after one call, whether it returns or raises. -/
def execCall (s : LookupState) (query : List ℤ) : LookupState :=
  match lookup_allocate_evict query s with
  | .ok (_, s') => s'
  | .error r => r.state

/-- A call keeps the tables in order and their lengths, also where it raises. -/
theorem execCall_wf {s : LookupState} (hwf : Wf s) (query : List ℤ) :
    Wf (execCall s query) ∧
      (execCall s query).token_to_slot.length = s.token_to_slot.length ∧
      (execCall s query).slot_to_token.length = s.slot_to_token.length := by
  obtain ⟨c, hc, _, hcall⟩ := lookup_spec hwf query
  unfold execCall
  split_ifs at hcall with hle
  · obtain ⟨out, s', hok, h⟩ := hcall
    rw [hok]
    exact ⟨h.wf hwf hc, h.fwd_length, h.bwd_length⟩
  · rw [hcall]
    exact ⟨hwf, rfl, rfl⟩

theorem execCalls_wf {s : LookupState} (hwf : Wf s) (rows : List (List ℤ)) :
    Wf (rows.foldl execCall s) ∧
      (rows.foldl execCall s).token_to_slot.length = s.token_to_slot.length ∧
      (rows.foldl execCall s).slot_to_token.length = s.slot_to_token.length := by
  refine Folds.foldl_prefix (fun _ s' => Wf s' ∧
    s'.token_to_slot.length = s.token_to_slot.length ∧
    s'.slot_to_token.length = s.slot_to_token.length) rows ⟨hwf, rfl, rfl⟩ ?_
  rintro pre row suf s1 _ ⟨h1, h2, h3⟩
  obtain ⟨g1, g2, g3⟩ := execCall_wf h1 row
  exact ⟨g1, g2.trans h2, g3.trans h3⟩

/-! ## The window invariant -/

/-- `T` is resident, and its slots are the tail of the LRU order. -/
structure WindowInv (T : Finset ℤ) (s : LookupState) : Prop where
  resident : ∀ t ∈ T, Resident s t
  order : ∃ untouched touched, s.lru_slots = untouched ++ touched ∧
    ∀ z, z ∈ touched ↔ ∃ t ∈ T, read s.token_to_slot t.toNat = z

/-- The distinct in-range tokens of a row. -/
def rowTokens (s : LookupState) (query : List ℤ) : Finset ℤ :=
  (query.filter (InRange s ·)).toFinset

/-- The tokens of a row are its entries in range. -/
theorem mem_rowTokens {s : LookupState} {query : List ℤ} {t : ℤ} :
    t ∈ rowTokens s query ↔ t ∈ query ∧ InRange s t := by
  unfold rowTokens
  rw [List.mem_toFinset, List.mem_filter, decide_eq_true_iff]

theorem windowInv_empty (s : LookupState) : WindowInv ∅ s where
  resident := fun t ht => absurd ht (by simp)
  order := ⟨s.lru_slots, [], by simp, fun z => by simp⟩

section Step

variable {s s' : LookupState} {query : List ℤ} {c : Scan} {T : Finset ℤ} {A B : List ℤ}

/-- The tail holds one slot for each token of `T`. -/
theorem touched_length (hwf : Wf s) (hres : ∀ t ∈ T, Resident s t)
    (hlru : s.lru_slots = A ++ B)
    (hB : ∀ z, z ∈ B ↔ ∃ t ∈ T, read s.token_to_slot t.toNat = z) : B.length = T.card := by
  have hnd : B.Nodup := by
    have := hwf.lru_nodup
    rw [hlru] at this
    exact (List.nodup_append.mp this).2.1
  have himg : B.toFinset = T.image fun t => read s.token_to_slot t.toNat := by
    ext z
    rw [List.mem_toFinset, hB z, Finset.mem_image]
  rw [← List.toFinset_card_of_nodup hnd, himg]
  apply Finset.card_image_of_injOn
  intro t ht u hu heq
  exact hwf.slot_inj (hres t ht) (hres u hu) heq

/-- **The misses fit in the untouched slots that were not hit.** -/
theorem misses_fit (hwf : Wf s) (hc : ScanSpec s query query.length c)
    (hres : ∀ t ∈ T, Resident s t) (hlru : s.lru_slots = A ++ B)
    (hB : ∀ z, z ∈ B ↔ ∃ t ∈ T, read s.token_to_slot t.toNat = z)
    (hcard : (T ∪ rowTokens s query).card ≤ s.slot_to_token.length) :
    c.unique_misses.length ≤ (A.filter (· ∉ c.hit_slot_set)).length := by
  have hnd : (A ++ B).Nodup := by rw [← hlru]; exact hwf.lru_nodup
  have hBlen := touched_length hwf hres hlru hB
  have hABlen : A.length + B.length = s.slot_to_token.length := by
    rw [← List.length_append, ← hlru, hwf.lru_length]
  -- `R` is what the row adds to the window; it splits into hits and misses
  set R := rowTokens s query \ T with hR
  have hTR : T.card + R.card ≤ s.slot_to_token.length := by
    rw [← Finset.card_union_of_disjoint Finset.disjoint_sdiff, Finset.union_sdiff_self_eq_union]
    exact hcard
  have hsplit : (R.filter fun t => 0 ≤ read s.token_to_slot t.toNat).card +
      (R.filter fun t => ¬ 0 ≤ read s.token_to_slot t.toNat).card = R.card :=
    Finset.card_filter_add_card_filter_not _
  have hmiss : c.unique_misses.length ≤
      (R.filter fun t => ¬ 0 ≤ read s.token_to_slot t.toNat).card := by
    rw [← List.length_map Prod.snd, ← List.toFinset_card_of_nodup hc.miss_nodup]
    apply Finset.card_le_card
    intro t ht
    obtain ⟨htq, hm⟩ := (hc.miss_iff t).mp (List.mem_toFinset.mp ht)
    have hneg := hm.2
    refine Finset.mem_filter.mpr ⟨Finset.mem_sdiff.mpr ⟨mem_rowTokens.mpr ⟨htq, hm.1⟩, ?_⟩, by omega⟩
    intro hT
    have := (hres t hT).2
    omega
  have hhit : (A.filter (· ∈ c.hit_slot_set)).length ≤
      (R.filter fun t => 0 ≤ read s.token_to_slot t.toNat).card := by
    rw [← List.toFinset_card_of_nodup ((List.nodup_append.mp hnd).1.filter _)]
    refine le_trans (Finset.card_le_card
      (t := (R.filter fun t => 0 ≤ read s.token_to_slot t.toNat).image
        fun t => read s.token_to_slot t.toNat) ?_) Finset.card_image_le
    intro z hz
    obtain ⟨hzA, hzhit⟩ := List.mem_filter.mp (List.mem_toFinset.mp hz)
    obtain ⟨t, htq, hr, rfl⟩ := (hc.hit_iff z).mp (of_decide_eq_true hzhit)
    refine Finset.mem_image.mpr ⟨t, Finset.mem_filter.mpr ⟨Finset.mem_sdiff.mpr
      ⟨mem_rowTokens.mpr ⟨htq, hr.1⟩, fun hT => ?_⟩, hr.2⟩, rfl⟩
    -- a touched slot lies in `B`, and `A` and `B` share none
    exact (List.nodup_append.mp hnd).2.2 _ hzA _ ((hB _).mpr ⟨t, hT, rfl⟩) rfl
  have hAlen : (A.filter (· ∈ c.hit_slot_set)).length +
      (A.filter (· ∉ c.hit_slot_set)).length = A.length := by
    have := (List.filter_append_perm (· ∈ c.hit_slot_set) A).length_eq
    simpa [List.length_append] using this
  omega

/-- After the call the touched slots are those that were, less the hits, then the victims and
then the hits. -/
theorem mem_touched (hwf : Wf s) (hc : ScanSpec s query query.length c) {out : Outputs}
    (h : CallSpec s query c out s') (hres : ∀ t ∈ T, Resident s t)
    (hB : ∀ z, z ∈ B ↔ ∃ t ∈ T, read s.token_to_slot t.toNat = z)
    (hkept : ∀ t ∈ T, read s'.token_to_slot t.toNat = read s.token_to_slot t.toNat) (z : ℤ) :
    z ∈ B.filter (· ∉ c.hit_slot_set) ++ victimSlots s c ++ hitSlots s c ↔
      ∃ t ∈ T ∪ rowTokens s query, read s'.token_to_slot t.toNat = z := by
  rw [List.mem_append, List.mem_append, List.mem_filter, decide_eq_true_iff]
  constructor
  -- behind the rest come the slots of the window, the victims and the hits
  · rintro ((⟨hz, _⟩ | hz) | hz)
    · obtain ⟨t, ht, rfl⟩ := (hB z).mp hz
      exact ⟨t, Finset.mem_union_left _ ht, hkept t ht⟩
    · obtain ⟨t, htq, hm, rfl⟩ := h.victim_holds hwf hc hz
      exact ⟨t, Finset.mem_union_right _ (mem_rowTokens.mpr ⟨htq, hm.1⟩), rfl⟩
    · obtain ⟨t, htq, hr, rfl⟩ := (hc.hit_iff z).mp ((mem_hitSlots hwf).mp hz).2
      exact ⟨t, Finset.mem_union_right _ (mem_rowTokens.mpr ⟨htq, hr.1⟩), h.kept hwf hc hr htq⟩
  · rintro ⟨t, ht, rfl⟩
    have hhit : ∀ {u : ℤ}, u ∈ query → Resident s u →
        read s'.token_to_slot u.toNat ∈ hitSlots s c := fun {u} huq hr => by
      rw [h.kept hwf hc hr huq]
      exact (mem_hitSlots hwf).mpr ⟨⟨hr.2, hwf.slot_lt hr.2⟩,
        (hc.hit_iff _).mpr ⟨u, huq, hr, rfl⟩⟩
    rcases Finset.mem_union.mp ht with ht | ht
    · -- a token of the window moves to the end if this row hits it
      rw [hkept t ht]
      by_cases hin : read s.token_to_slot t.toNat ∈ c.hit_slot_set
      · have hr := hres t ht
        exact Or.inr ((mem_hitSlots hwf).mpr ⟨⟨hr.2, hwf.slot_lt hr.2⟩, hin⟩)
      · exact Or.inl (Or.inl ⟨(hB _).mpr ⟨t, ht, rfl⟩, hin⟩)
    -- a token of this row is hit, or has a victim's slot
    · obtain ⟨htq, hr⟩ := mem_rowTokens.mp ht
      rcases hwf.resident_or_missing hr with hres | hmiss
      · exact Or.inr (hhit htq hres)
      · exact Or.inl (Or.inr (h.installed hwf hc htq hmiss))

/-- **One call inside the window**: it returns, keeps every token of `T` in place
and leaves the invariant for `T` with the row's tokens added. -/
theorem window_step (hwf : Wf s) (hT : WindowInv T s)
    (hcard : (T ∪ rowTokens s query).card ≤ s.slot_to_token.length) :
    ∃ c out s', lookup_allocate_evict query s = .ok (out, s') ∧
      ScanSpec s query query.length c ∧ CallSpec s query c out s' ∧
      WindowInv (T ∪ rowTokens s query) s' ∧
      ∀ t ∈ T, read s'.token_to_slot t.toNat = read s.token_to_slot t.toNat := by
  obtain ⟨c, hc, _, hcall⟩ := lookup_spec hwf query
  obtain ⟨A, B, hlru, hB⟩ := hT.order
  have hfit := misses_fit hwf hc hT.resident hlru hB hcard
  have hevict : evictableSlots s c =
      A.filter (· ∉ c.hit_slot_set) ++ B.filter (· ∉ c.hit_slot_set) := by
    unfold evictableSlots; rw [hlru, List.filter_append]
  rw [if_pos (by rw [hevict, List.length_append]; omega)] at hcall
  obtain ⟨out, s', hok, h⟩ := hcall
  have hvict : victimSlots s c =
      (A.filter (· ∉ c.hit_slot_set)).take c.unique_misses.length := by
    unfold victimSlots; rw [hevict, List.take_append_of_le_length hfit]
  have hnd : (A ++ B).Nodup := by rw [← hlru]; exact hwf.lru_nodup
  -- every victim is an untouched slot
  have hkept : ∀ t ∈ T, read s'.token_to_slot t.toNat = read s.token_to_slot t.toNat := by
    intro t ht
    refine h.kept_of_notVictim hwf hc (hT.resident t ht) fun hv => ?_
    rw [hvict] at hv
    have hA := (List.mem_filter.mp (List.mem_of_mem_take hv)).1
    exact (List.nodup_append.mp hnd).2.2 _ hA _ ((hB _).mpr ⟨t, ht, rfl⟩) rfl
  refine ⟨c, out, s', hok, hc, h, ⟨?_, ?_⟩, hkept⟩
  · intro t ht
    rcases Finset.mem_union.mp ht with ht | ht
    · refine ⟨h.inRange_iff.mpr (hT.resident t ht).1, ?_⟩
      rw [hkept t ht]
      exact (hT.resident t ht).2
    · obtain ⟨htq, hr⟩ := mem_rowTokens.mp ht
      exact h.resident hwf hc htq hr
  · refine ⟨(A.filter (· ∉ c.hit_slot_set)).drop c.unique_misses.length,
      B.filter (· ∉ c.hit_slot_set) ++ victimSlots s c ++ hitSlots s c, ?_,
      mem_touched hwf hc h hT.resident hB hkept⟩
    rw [h.lru, hevict, List.drop_append_of_le_length hfit]
    simp only [List.append_assoc]

end Step

/-! ## The whole window -/

/-- No token misses twice: not in two calls, and not at two positions of one. -/
def MissOnce (calls : List LookupCall) : Prop :=
  ∀ (i j : ℕ) (c d : LookupCall) (p p' : ℕ) (t : ℤ), calls[i]? = some c → calls[j]? = some d →
    c.query[p]? = some t → d.query[p']? = some t →
    c.out.miss_mask.getD p false = true → d.out.miss_mask.getD p' false = true → i = j ∧ p = p'

/-- From its first query on, a token in range for `s` sits in one slot. -/
def StaysPut (s : LookupState) (calls : List LookupCall) : Prop :=
  ∀ (i j : ℕ) (c d : LookupCall) (t : ℤ), i ≤ j → calls[i]? = some c → calls[j]? = some d →
    t ∈ c.query → InRange s t → 0 ≤ read c.after.token_to_slot t.toNat ∧
      read d.after.token_to_slot t.toNat = read c.after.token_to_slot t.toNat

/-- What the window guarantees, given the tokens `T` queried before its calls. -/
structure WindowGuarantee (s : LookupState) (T : Finset ℤ) (calls : List LookupCall) : Prop where
  kept : ∀ c ∈ calls, ∀ t ∈ T, read c.after.token_to_slot t.toNat = read s.token_to_slot t.toNat
  no_miss : ∀ c ∈ calls, ∀ t ∈ T, ∀ p, c.query[p]? = some t → c.out.miss_mask.getD p false = false
  miss_once : MissOnce calls
  stays : StaysPut s calls

/-- A set mask bit means that the token was missing. -/
theorem missing_of_mask {s s' : LookupState} {query : List ℤ} {c : Scan} {out : Outputs}
    (h : CallSpec s query c out s') (hc : ScanSpec s query query.length c) {p : ℕ} {t : ℤ}
    (hp : query[p]? = some t) (hmask : out.miss_mask.getD p false = true) :
    (p, t) ∈ c.unique_misses ∧ Missing s t := by
  obtain ⟨u, hu⟩ := (h.mask_iff hc).mp hmask
  have hpu := hc.miss_pos _ hu
  rw [hp] at hpu
  rw [Option.some.inj hpu]
  exact ⟨hu, ((hc.miss_iff u).mp (List.mem_map.mpr ⟨_, hu, rfl⟩)).2⟩

section Cons

variable {s : LookupState} {T : Finset ℤ} {c : Scan} {call : LookupCall} {rest : List LookupCall}

/-- A token that misses in the first call is one that the later calls find, so it misses once. -/
theorem MissOnce.cons (h : CallSpec s call.query c call.out call.after)
    (hc : ScanSpec s call.query call.query.length c)
    (hg : WindowGuarantee call.after (T ∪ rowTokens s call.query) rest) :
    MissOnce (call :: rest) := by
  -- a token that misses now is in the working set of every later call
  have hlater : ∀ {d : LookupCall} {p p' : ℕ} {t : ℤ}, d ∈ rest → call.query[p]? = some t →
      d.query[p']? = some t → call.out.miss_mask.getD p false = true →
      d.out.miss_mask.getD p' false ≠ true := by
    intro d p p' t hd hp hp' hm hm'
    have ht : t ∈ T ∪ rowTokens s call.query := Finset.mem_union_right _
      (mem_rowTokens.mpr ⟨List.mem_of_getElem? hp, (missing_of_mask h hc hp hm).2.1⟩)
    rw [hg.no_miss d hd t ht p' hp'] at hm'
    cases hm'
  intro i j d e p p' t hi hj hp hp' hm hm'
  rcases i with _ | i <;> rcases j with _ | j
  · obtain rfl := Option.some.inj hi
    obtain rfl := Option.some.inj hj
    have h1 := (missing_of_mask h hc hp hm).1
    have h2 := (missing_of_mask h hc hp' hm').1
    exact ⟨rfl, congrArg Prod.fst (hc.miss_inj h1 h2 rfl)⟩
  · obtain rfl := Option.some.inj hi
    exact absurd hm' (hlater (List.mem_of_getElem? hj) hp hp' hm)
  · obtain rfl := Option.some.inj hj
    exact absurd hm (hlater (List.mem_of_getElem? hi) hp' hp hm')
  · obtain ⟨h1, h2⟩ := hg.miss_once i j d e p p' t hi hj hp hp' hm hm'
    exact ⟨by rw [h1], h2⟩

theorem StaysPut.cons (hwf : Wf s) (h : CallSpec s call.query c call.out call.after)
    (hc : ScanSpec s call.query call.query.length c)
    (hg : WindowGuarantee call.after (T ∪ rowTokens s call.query) rest) :
    StaysPut s (call :: rest) := by
  intro i j d e t hij hi hj htd hr
  rcases i with _ | i
  · obtain rfl := Option.some.inj hi
    refine ⟨(h.resident hwf hc htd hr).2, ?_⟩
    rcases j with _ | j
    · obtain rfl := Option.some.inj hj
      rfl
    · exact hg.kept e (List.mem_of_getElem? hj) t
        (Finset.mem_union_right _ (mem_rowTokens.mpr ⟨htd, hr⟩))
  · rcases j with _ | j
    · omega
    · exact hg.stays i j d e t (by omega) hi hj htd (h.inRange_iff.mpr hr)

/-- One more call in front: its tokens are held for the calls after it. -/
theorem WindowGuarantee.cons (hwf : Wf s) (hT : WindowInv T s)
    (h : CallSpec s call.query c call.out call.after)
    (hc : ScanSpec s call.query call.query.length c)
    (hkept : ∀ t ∈ T, read call.after.token_to_slot t.toNat = read s.token_to_slot t.toNat)
    (hg : WindowGuarantee call.after (T ∪ rowTokens s call.query) rest) :
    WindowGuarantee s T (call :: rest) where
  kept := by
    intro d hd t ht
    rcases List.mem_cons.mp hd with rfl | hd
    · exact hkept t ht
    · exact (hg.kept d hd t (Finset.mem_union_left _ ht)).trans (hkept t ht)
  no_miss := by
    intro d hd t ht p hp
    rcases List.mem_cons.mp hd with rfl | hd
    · rw [← Bool.not_eq_true]
      intro hm
      have h1 := (missing_of_mask h hc hp hm).2.2
      have h2 := (hT.resident t ht).2
      omega
    · exact hg.no_miss d hd t (Finset.mem_union_left _ ht) p hp
  miss_once := MissOnce.cons h hc hg
  stays := StaysPut.cons hwf h hc hg

end Cons

/-- **The window**, call by call: what it has touched is newer than the rest, and so the rest is
evicted first. -/
theorem window_run (window : List (List ℤ)) (s : LookupState) (T : Finset ℤ) (hwf : Wf s)
    (hT : WindowInv T s)
    (hcard : (T ∪ rowTokens s window.flatten).card ≤ s.slot_to_token.length) :
    ∃ calls, runCalls s window = .ok calls ∧ WindowGuarantee s T calls := by
  induction window generalizing s T with
  | nil =>
      refine ⟨[], rfl, by simp, by simp, ?_, ?_⟩
      · intro i j c d p p' t hi
        simp at hi
      · intro i j c d t _ hi
        simp at hi
  | cons query window ih =>
      have hflat : rowTokens s (query :: window).flatten =
          rowTokens s query ∪ rowTokens s window.flatten := by
        ext t
        rw [Finset.mem_union, mem_rowTokens, mem_rowTokens, mem_rowTokens, List.flatten_cons,
          List.mem_append, or_and_right]
      rw [hflat, ← Finset.union_assoc] at hcard
      obtain ⟨c, out, s', hok, hc, h, hT', hkept⟩ := window_step hwf hT
        (le_trans (Finset.card_le_card Finset.subset_union_left) hcard)
      -- a call does not change which tokens are in range
      have hrow : rowTokens s' window.flatten = rowTokens s window.flatten := by
        ext t
        rw [mem_rowTokens, mem_rowTokens, h.inRange_iff]
      obtain ⟨rest, hrest, hg⟩ := ih s' (T ∪ rowTokens s query) (h.wf hwf hc) hT'
        (by rw [hrow, h.bwd_length]; exact hcard)
      refine ⟨⟨query, out, s'⟩ :: rest, ?_, .cons hwf hT h hc hkept hg⟩
      rw [runCalls, hok]
      simp only [bind, Except.bind, hrest]
      rfl

/-- **The working-set guarantee.** After any run of calls, returning or raising,
from a state meeting the README invariants: if the in-range tokens of a window of
calls are at most as many as the slots, no call of the window raises, each token
misses at most once in the window, and from its first query on it stays resident
in one slot. -/
theorem working_set_guarantee (s : LookupState) (hwf : Wf s) (before window : List (List ℤ))
    (hfit : (window.flatten.filter (InRange s ·)).toFinset.card ≤ s.slot_to_token.length) :
    ∃ calls, runCalls (before.foldl execCall s) window = .ok calls ∧
      MissOnce calls ∧ StaysPut s calls := by
  obtain ⟨hwf0, hl1, hl2⟩ := execCalls_wf hwf before
  have hr : ∀ t, InRange (before.foldl execCall s) t ↔ InRange s t := fun t => by
    unfold InRange; rw [hl1]
  have hrow : rowTokens (before.foldl execCall s) window.flatten =
      (window.flatten.filter (InRange s ·)).toFinset := by
    ext t
    rw [mem_rowTokens, hr, List.mem_toFinset, List.mem_filter, decide_eq_true_iff]
  obtain ⟨calls, hrun, hg⟩ := window_run window _ ∅ hwf0 (windowInv_empty _)
    (by rw [Finset.empty_union, hrow, hl2]; exact hfit)
  exact ⟨calls, hrun, hg.miss_once, fun i j c d t hij hi hj ht h =>
    hg.stays i j c d t hij hi hj ht ((hr t).mpr h)⟩

/-- A window after a call that has filled part of the cache. -/
theorem working_set_guarantee_after_one_call :
    ∃ calls, runCalls (([[6, 7]] : List (List ℤ)).foldl execCall
        ⟨[0, 1, 2, -1, -1, -1, -1, -1], [0, 1, 2], [0, 1, 2]⟩) [[3, 4, 3, 9], [5], [4, 3]] = .ok calls ∧
      MissOnce calls ∧
      StaysPut ⟨[0, 1, 2, -1, -1, -1, -1, -1], [0, 1, 2], [0, 1, 2]⟩ calls :=
  working_set_guarantee ⟨[0, 1, 2, -1, -1, -1, -1, -1], [0, 1, 2], [0, 1, 2]⟩ (by decide)
    [[6, 7]] [[3, 4, 3, 9], [5], [4, 3]] (by decide)

end AsuAscend.Lookup
