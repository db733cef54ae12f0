/-
Rounds of lookup and maintenance on one request row.

The lookup moves slots from the free list to tokens and the maintenance moves as
many back, so the pool is whole again after every round. The maintenance never
walks forever: of the `R + k` occupied slots after a lookup that placed `k` tokens,
at most `QUERY_COUNT` are protected, and with `R` at least that many, `k` unprotected
ones are left (`enough_evictables`).

## What a round keeps

After the lookup of a round the head is the number of tokens that were placed, the entries of the
free list before the head are slots that are occupied now, and the rest is free still
(`Allocated`). The maintenance pushes as many slots back, to the places before the head
(`TakenBack`), and with the head at 0 the row is ready again (`round_spec`). `rounds_keep_pool`
carries this through any number of rounds, with queries and seeds that are arbitrary each time.
-/
import AsuAscend.HbmIndex.Allocate
import AsuAscend.HbmIndex.Maintain

set_option autoImplicit false

open MachineWords SentinelTable

namespace AsuAscend.HbmIndex

/-! ## Freeing slots of inverse tables -/

section

variable {d : Sizes} {row : Row}

/-- A store behind the part that is kept. -/
theorem set_take_append {xs ys : List ℤ} {n : ℕ} (hn : n < xs.length) (v : ℤ) :
    (xs.take (n + 1) ++ ys).set n v = xs.take n ++ (v :: ys) := by
  rw [List.set_append_left _ _ (by rw [List.length_take]; omega),
    List.take_succ_eq_append_getElem hn, List.set_append_right _ _ (by rw [List.length_take]; omega),
    List.length_take, Nat.min_eq_left (by omega), Nat.sub_self, List.set_cons_zero,
    List.append_assoc, List.singleton_append]

/-- What the freed slots do to the row: they fill the free list below the head, from
the head down. -/
structure Evicted (row : Row) (h : ℕ) (victims : List ℕ) (row' : Row) : Prop where
  inverse : MutuallyInverse row'.index row'.slotToIndex
  count : (residentTokens row').card + victims.length = (residentTokens row).card
  freeSlots : row'.freeSlots = row.freeSlots.take (h - victims.length) ++
    ((victims.reverse.map fun v : ℕ => (v : ℤ)) ++ row.freeSlots.drop h)

/-- **Taking back slots**, on lists that are mutually inverse: what is left is inverse again,
and the slots stand before the head of the free list. -/
theorem evictAll_spec (hinv : MutuallyInverse row.index row.slotToIndex)
    (hi32 : row.index.length ≤ 2 ^ 31) {h : ℕ} (hh : row.freeHead = h)
    (hle : h ≤ row.freeSlots.length) (hf32 : row.freeSlots.length ≤ 2 ^ 31) {victims : List ℕ}
    (hnd : victims.Nodup) (hlen : victims.length ≤ h)
    (hocc : ∀ v ∈ victims, v < row.slotToIndex.length ∧ read row.slotToIndex v ≠ NOT_FOUND) :
    Evicted row h victims (evictAll row victims) := by
  induction victims using List.reverseRecOn with
  | nil => exact ⟨hinv, rfl, by simp⟩
  | append_singleton victims v ih =>
      rw [List.length_append, List.length_singleton] at hlen
      rw [List.nodup_append] at hnd
      have hocc' := fun u hu => hocc u (List.mem_append_left _ hu)
      obtain ⟨hv, htok⟩ := hocc v (by simp)
      have ih := ih hnd.1 (by omega) hocc'
      have hfresh : v ∉ victims := fun hmem => hnd.2.2 _ hmem _ (by simp) rfl
      obtain ⟨hl1, hl2, hl3⟩ := evictAll_lengths row victims
      -- the victim still holds its token, so both entries are those of one pair
      have hread : read (evictAll row victims).slotToIndex v = read row.slotToIndex v := by
        rw [evictAll_slot fun u hu => (hocc' u hu).1, if_neg hfresh]
      have htab : tab (evictAll row victims).slotToIndex v =
          some (read row.slotToIndex v).toNat := by
        have := ih.inverse.symm.sentinel_fwd.read v
        rw [hread] at this
        rw [tab_eq_some, hread]
        unfold NOT_FOUND at htok
        omega
      have hback := (ih.inverse.inverse _ _).mpr htab
      have htlt := lt_of_tab_eq_some hback
      have hu : u32 (read row.slotToIndex v) = (read row.slotToIndex v).toNat :=
        u32_of_nonneg (by rw [tab_eq_some, hread] at htab; omega) (by omega)
      have hmem : (read row.slotToIndex v).toNat ∈ present (evictAll row victims).index := by
        rw [mem_present, tab_eq_some.mp hback]
        omega
      have hhead : u32 ((evictAll row victims).freeHead - 1) = h - victims.length - 1 := by
        rw [evictAll_freeHead, hh, u32_of_nonneg (by omega) (by omega)]
        omega
      rw [evictAll_concat]
      refine ⟨?_, ?_, ?_⟩
      · simp only [evictSlot, hread, hu]
        exact ih.inverse.drop (by omega) htab
      · have hcount := ih.count
        simp only [residentTokens, evictSlot, hread, hu, NOT_FOUND] at hcount ⊢
        rw [present_clear htlt, Finset.card_erase_of_mem hmem, List.length_append,
          List.length_singleton]
        have := Finset.card_pos.mpr ⟨_, hmem⟩
        omega
      · simp only [evictSlot, ih.freeSlots, hhead]
        obtain ⟨n, hn⟩ : ∃ n, h - victims.length = n + 1 := ⟨h - victims.length - 1, by omega⟩
        rw [hn, Nat.add_sub_cancel, set_take_append (by omega), List.length_append,
          List.length_singleton]
        simp only [List.reverse_append, List.reverse_singleton, List.map_cons, List.cons_append,
          List.nil_append]
        congr 2
        omega

end

/-! ## One round -/

/-- One served round: the lookup of `query`, then the maintenance. -/
structure Round where
  query : List ℤ
  seed : UInt32
  slotOut : List ℤ
  after : Row

def round (d : Sizes) (fuel : ℕ) (reqId : UInt32) (query : List ℤ) (seed : UInt32) (row : Row) :
    Except Halt Round := do
  let c ← processRow d query row
  let after ← maintainRow d fuel seed reqId c.1 c.2
  return ⟨query, seed, c.1, after⟩

/-- Rounds one after another, on one row. -/
def runRounds (d : Sizes) (fuel : ℕ) (reqId : UInt32) :
    List (List ℤ × UInt32) → Row → Except Halt (List Round)
  | [], _ => .ok []
  | (query, seed) :: rest, row => do
      let r ← round d fuel reqId query seed row
      let rs ← runRounds d fuel reqId rest r.after
      return r :: rs

/-- What a round leaves behind, with `resident` tokens resident. -/
structure RoundOk (d : Sizes) (resident : ℕ) (r : Round) : Prop where
  ready : Ready d r.after
  residents : (residentTokens r.after).card = resident
  out_length : r.slotOut.length = r.query.length
  kept : ∀ p q, r.query[p]? = some q →
    0 ≤ read r.slotOut p ∧ read r.slotOut p < d.SLOT_COUNT ∧
      read r.after.index q.toNat = read r.slotOut p ∧
      read r.after.slotToIndex (read r.slotOut p).toNat = q
  slots_inj : ∀ p q p' q', r.query[p]? = some q → r.query[p']? = some q' →
    read r.slotOut p = read r.slotOut p' → q = q'

section

variable {d : Sizes} {row : Row} {query : List ℤ} {k : ℕ} {c : List ℤ × Row}

/-- The slot of a query, after the lookup. -/
theorem Allocated.slot_of (h : Allocated d row query k c) {q : ℤ} (hq : q ∈ query)
    (hq0 : 0 ≤ q) : 0 ≤ read c.2.index q.toNat ∧ read c.2.index q.toNat < d.SLOT_COUNT ∧
      read c.2.slotToIndex (read c.2.index q.toNat).toNat = q := by
  have hres := h.resident q hq
  have hs := h.inverse.sentinel_fwd.read q.toNat
  unfold NOT_FOUND at hres
  have htab : tab c.2.index q.toNat = some (read c.2.index q.toNat).toNat := by
    rw [tab_eq_some]; omega
  have hback := (h.inverse.inverse _ _).mp htab
  have hlt := lt_of_tab_eq_some hback
  rw [h.slot_length] at hlt
  refine ⟨by omega, by omega, ?_⟩
  rw [tab_eq_some.mp hback]
  omega

/-- The slots handed out are those that the index names for the query. -/
theorem Allocated.mem_out (h : Allocated d row query k c) {z : ℤ} :
    z ∈ c.1 ↔ ∃ q ∈ query, read c.2.index q.toNat = z := by
  rw [h.out, List.mem_map]

/-- The slot of the `p`-th query. -/
theorem Allocated.out_get (h : Allocated d row query k c) {p : ℕ} {q : ℤ}
    (hp : query[p]? = some q) : read c.1 p = read c.2.index q.toNat := by
  unfold SentinelTable.read
  rw [List.getD_eq_getElem?_getD, h.out, List.getElem?_map, hp]
  rfl

/-- The counting behind the end of the walk. -/
theorem enough_evictables (h : Allocated d row query k c)
    (hres : query.length ≤ (residentTokens row).card) :
    k ≤ ((List.range d.SLOT_COUNT).filter fun slot =>
      read c.2.slotToIndex slot ≠ NOT_FOUND ∧ (slot : ℤ) ∉ c.1).length := by
  have hoccupied : (present c.2.slotToIndex).card = (residentTokens row).card + k := by
    rw [← h.inverse.card_present]; exact h.count
  have hprotected : (c.1.map Int.toNat).toFinset.card ≤ query.length := by
    refine (List.toFinset_card_le _).trans ?_
    rw [List.length_map, h.out, List.length_map]
  have hsub : present c.2.slotToIndex \ (c.1.map Int.toNat).toFinset ⊆
      ((List.range d.SLOT_COUNT).filter fun slot =>
        read c.2.slotToIndex slot ≠ NOT_FOUND ∧ (slot : ℤ) ∉ c.1).toFinset := by
    intro slot hslot
    rw [Finset.mem_sdiff, mem_present, List.mem_toFinset] at hslot
    obtain ⟨hocc, hnot⟩ := hslot
    rw [List.mem_toFinset, List.mem_filter, List.mem_range, decide_eq_true_iff]
    refine ⟨?_, hocc, fun hmem => hnot (List.mem_map.mpr ⟨_, hmem, Int.toNat_natCast slot⟩)⟩
    by_contra hge
    exact hocc (read_of_ge (by rw [h.slot_length]; omega))
  have hcard := (Finset.card_le_card hsub).trans (List.toFinset_card_le _)
  have hdiff := Finset.le_card_sdiff (c.1.map Int.toNat).toFinset (present c.2.slotToIndex)
  omega

/-- The head stays inside the free list: no more tokens miss than there are queries. -/
theorem Allocated.head_le_free (h : Allocated d row query k c) (hd : d.Fits)
    (hlen : query.length = d.QUERY_COUNT) : k ≤ d.FREE_SLOT_COUNT := by
  have hk := h.head_le
  have hquery := hd.query_le_free
  omega

theorem Allocated.free_length (h : Allocated d row query k c) (hr : Ready d row) :
    c.2.freeSlots.length = d.FREE_SLOT_COUNT := by
  rw [h.freeSlots, hr.free_length]

/-- After the lookup the scan stays inside the row's tables. -/
theorem Allocated.walkable (h : Allocated d row query k c) (hd : d.Fits) (hr : Ready d row)
    (hk : k ≤ d.FREE_SLOT_COUNT) : Walkable d c.2 := by
  have hflen := h.free_length hr
  refine ⟨h.slot_length, fun slot _ hne => ?_, ?_, ?_⟩
  · -- an occupied slot holds a token of the index
    have hi32 := hd.index_i32
    have hle := h.index_length
    have hs := h.inverse.symm.sentinel_fwd.read slot
    unfold NOT_FOUND at hne
    have htab : tab c.2.slotToIndex slot = some (read c.2.slotToIndex slot).toNat := by
      rw [tab_eq_some]; omega
    have hlt := lt_of_tab_eq_some ((h.inverse.inverse _ _).mpr htab)
    rw [u32_of_nonneg (by omega) (by omega)]
    exact hlt
  · rw [h.freeHead, hflen]
    exact_mod_cast hk
  · rw [hflen]
    exact hd.free_i32

/-- A slot that the lookup has not handed out is still free. -/
theorem Allocated.unused (h : Allocated d row query k c) (hr : Ready d row) {z : ℤ}
    (hz : z ∈ row.freeSlots.drop k) :
    0 ≤ z ∧ z < d.SLOT_COUNT ∧ read c.2.slotToIndex z.toNat = NOT_FOUND := by
  obtain ⟨j, hj, rfl⟩ := List.mem_iff_getElem.mp hz
  rw [List.getElem_drop, ← read_of_lt]
  rw [List.length_drop, hr.free_length] at hj
  obtain ⟨h0, h1, _⟩ := hr.free_at (show k + j < d.FREE_SLOT_COUNT by omega)
  exact ⟨h0, h1, h.free (k + j) (by omega) (by omega)⟩

/-- The slots that the maintenance takes back. -/
structure TakenBack (d : Sizes) (c : List ℤ × Row) (k : ℕ) (victims : List ℕ) : Prop where
  nodup : victims.Nodup
  length : victims.length = k
  taken : ∀ v ∈ victims, v < d.SLOT_COUNT ∧ read c.2.slotToIndex v ≠ NOT_FOUND ∧ (v : ℤ) ∉ c.1

section TakenBack

variable {victims : List ℕ}

/-- The slots taken back were occupied after the lookup. -/
theorem TakenBack.occupied (hv : TakenBack d c k victims) (h : Allocated d row query k c) :
    ∀ v ∈ victims, v < c.2.slotToIndex.length ∧ read c.2.slotToIndex v ≠ NOT_FOUND := by
  intro v hmem
  rw [h.slot_length]
  exact ⟨(hv.taken v hmem).1, (hv.taken v hmem).2.1⟩

/-- So the row after both halves of the round is known list by list. -/
theorem TakenBack.evicted (hv : TakenBack d c k victims) (h : Allocated d row query k c)
    (hd : d.Fits) (hr : Ready d row) (hk : k ≤ d.FREE_SLOT_COUNT) :
    Evicted c.2 k victims (evictAll c.2 victims) := by
  have hflen := h.free_length hr
  have hf32 := hd.free_i32
  have hi32 : c.2.index.length ≤ 2 ^ 31 := by
    rw [h.index_length]
    exact hd.index_i32
  exact evictAll_spec h.inverse hi32 h.freeHead (by omega) (by omega) hv.nodup hv.length.le
    (hv.occupied h)

theorem TakenBack.slot (hv : TakenBack d c k victims) (h : Allocated d row query k c) (slot : ℕ) :
    read (evictAll c.2 victims).slotToIndex slot =
      if slot ∈ victims then NOT_FOUND else read c.2.slotToIndex slot :=
  evictAll_slot (fun v hmem => (hv.occupied h v hmem).1) slot

/-- The free list: the victims, then what the lookup has not handed out. -/
theorem TakenBack.freeSlots (hv : TakenBack d c k victims) (h : Allocated d row query k c)
    (hd : d.Fits) (hr : Ready d row) (hk : k ≤ d.FREE_SLOT_COUNT) :
    (evictAll c.2 victims).freeSlots =
      (victims.reverse.map fun v : ℕ => (v : ℤ)) ++ row.freeSlots.drop k := by
  rw [(hv.evicted h hd hr hk).freeSlots, hv.length, Nat.sub_self, List.take_zero, List.nil_append,
    h.freeSlots]

/-- The pool is whole again. -/
theorem TakenBack.ready (hv : TakenBack d c k victims) (h : Allocated d row query k c)
    (hd : d.Fits) (hr : Ready d row) (hk : k ≤ d.FREE_SLOT_COUNT) :
    Ready d (evictAll c.2 victims) := by
  obtain ⟨hl1, hl2, hl3⟩ := evictAll_lengths c.2 victims
  -- the free list is the victims in reverse and what was left of it
  have hfreeList := hv.freeSlots h hd hr hk
  constructor
  · rw [hl1, h.index_length]
  · rw [hl2, h.slot_length]
  · rw [hl3, h.free_length hr]
  · exact (hv.evicted h hd hr hk).inverse
  · rw [evictAll_freeHead, h.freeHead, hv.length, Int.sub_self]
  · rw [hfreeList, List.nodup_append]
    refine ⟨?_, hr.free_nodup.sublist (List.drop_sublist _ _), ?_⟩
    · exact (List.nodup_reverse.mpr hv.nodup).map fun a b hab => by exact_mod_cast hab
    · -- a victim was occupied, a slot of the rest was free
      intro a ha b hb hab
      obtain ⟨v, hvm, rfl⟩ := List.mem_map.mp ha
      have hfree := (h.unused hr hb).2.2
      rw [← hab, Int.toNat_natCast] at hfree
      exact (hv.taken v (List.mem_reverse.mp hvm)).2.1 hfree
  -- a slot taken back is empty now, and one that was free still is
  · intro z hz
    rw [hfreeList] at hz
    rcases List.mem_append.mp hz with hz | hz
    · obtain ⟨v, hvm, rfl⟩ := List.mem_map.mp hz
      rw [List.mem_reverse] at hvm
      refine ⟨by omega, by have := (hv.taken v hvm).1; omega, ?_⟩
      rw [hv.slot h, Int.toNat_natCast, if_pos hvm]
    · obtain ⟨h0, h1, h2⟩ := h.unused hr hz
      refine ⟨h0, h1, ?_⟩
      rw [hv.slot h]
      split_ifs
      · rfl
      · exact h2

/-- A token of the row is still where the lookup has found or placed it. -/
theorem TakenBack.kept (hv : TakenBack d c k victims) (h : Allocated d row query k c)
    (hd : d.Fits) (hr : Ready d row) (hk : k ≤ d.FREE_SLOT_COUNT) {p : ℕ} {q : ℤ}
    (hp : query[p]? = some q) (hq0 : 0 ≤ q) :
    0 ≤ read c.1 p ∧ read c.1 p < d.SLOT_COUNT ∧
      read (evictAll c.2 victims).index q.toNat = read c.1 p ∧
      read (evictAll c.2 victims).slotToIndex (read c.1 p).toNat = q := by
  have hq := List.mem_of_getElem? hp
  obtain ⟨h0, h1, h2⟩ := h.slot_of hq hq0
  rw [h.out_get hp]
  -- the slot is protected, so its entry is not among the freed ones
  have hnot : (read c.2.index q.toNat).toNat ∉ victims := by
    intro hmem
    apply (hv.taken _ hmem).2.2
    rw [Int.toNat_of_nonneg h0]
    exact h.mem_out.mpr ⟨q, hq, rfl⟩
  have hstay : read (evictAll c.2 victims).slotToIndex (read c.2.index q.toNat).toNat = q := by
    rw [hv.slot h, if_neg hnot, h2]
  have htab : tab (evictAll c.2 victims).slotToIndex (read c.2.index q.toNat).toNat =
      some q.toNat := by
    rw [tab_eq_some, hstay]; omega
  have hback := tab_eq_some.mp (((hv.evicted h hd hr hk).inverse.inverse _ _).mpr htab)
  exact ⟨h0, h1, by omega, hstay⟩

end TakenBack

/-- **One round** ends, inside its rows, and gives the row back with its pool whole. -/
theorem round_spec (hd : d.Fits) (hr : Ready d row) (hlen : query.length = d.QUERY_COUNT)
    (hquery : ∀ q ∈ query, InRange d q) (hres : d.QUERY_COUNT ≤ (residentTokens row).card)
    {fuel : ℕ} (hfuel : d.SLOT_COUNT ≤ fuel) (reqId seed : UInt32) :
    ∃ r, round d fuel reqId query seed row = .ok r ∧ r.query = query ∧ r.seed = seed ∧
      RoundOk d (residentTokens row).card r := by
  obtain ⟨c, k, hlook, _, h⟩ := processRow_spec hd hr hlen hquery
  have hk := h.head_le_free hd hlen
  -- the slots that were returned are protected from the maintenance
  have hlast : c.1.length = d.QUERY_COUNT := by rw [h.out, List.length_map, hlen]
  have hslots : ∀ z ∈ c.1, 0 ≤ z ∧ z < d.SLOT_COUNT := by
    intro z hz
    obtain ⟨q, hq, rfl⟩ := h.mem_out.mp hz
    exact ⟨(h.slot_of hq (hquery q hq).1).1, (h.slot_of hq (hquery q hq).1).2.1⟩
  obtain ⟨victims, hnd, hvlen, htaken, hmaint⟩ := maintainRow_spec hd (h.walkable hd hr hk) c.1
    hlast hslots h.freeHead (enough_evictables h (by omega)) hfuel seed reqId
  have hv : TakenBack d c k victims := ⟨hnd, hvlen, htaken⟩
  refine ⟨⟨query, seed, c.1, evictAll c.2 victims⟩, ?_, rfl, rfl, hv.ready h hd hr hk, ?_, ?_, ?_, ?_⟩
  · unfold round
    rw [hlook]
    simp only [bind, Except.bind, pure, Except.pure, hmaint]
  · show (residentTokens (evictAll c.2 victims)).card = _
    have hcount := (hv.evicted h hd hr hk).count
    have := h.count
    omega
  · simp only [h.out, List.length_map]
  · intro p q hp
    dsimp only at hp ⊢
    exact hv.kept h hd hr hk hp (hquery q (List.mem_of_getElem? hp)).1
  · intro p q p' q' hp hp' heq
    dsimp only at hp hp' heq
    have hq := List.mem_of_getElem? hp
    have hq' := List.mem_of_getElem? hp'
    rw [h.out_get hp, h.out_get hp'] at heq
    rw [← (h.slot_of hq (hquery q hq).1).2.2, ← (h.slot_of hq' (hquery q' hq').1).2.2, heq]

end

/-! ## Runs -/

/-- **The pool over a whole run.** From a row whose pool is whole and that has at
least `QUERY_COUNT` resident tokens, every run of rounds, with any in-range queries
and any seeds, goes through: no access leaves its row, every walk ends within one
turn of the slot table, and after each round the pool is whole, as many tokens are
resident as at the start, and each queried token still has the slot returned for it. -/
theorem rounds_keep_pool (row : Row) (hr : Ready hbmSizes row)
    (hres : hbmSizes.QUERY_COUNT ≤ (residentTokens row).card)
    (rounds : List (List ℤ × UInt32))
    (hrounds : ∀ r ∈ rounds, r.1.length = hbmSizes.QUERY_COUNT ∧ ∀ q ∈ r.1, InRange hbmSizes q)
    (fuel : ℕ) (hfuel : hbmSizes.SLOT_COUNT ≤ fuel) (reqId : UInt32) :
    ∃ rs, runRounds hbmSizes fuel reqId rounds row = .ok rs ∧
      rs.map (fun r => (r.query, r.seed)) = rounds ∧
      ∀ r ∈ rs, RoundOk hbmSizes (residentTokens row).card r := by
  induction rounds generalizing row with
  | nil => exact ⟨[], rfl, rfl, fun r hr => absurd hr (by simp)⟩
  | cons qs rounds ih =>
      obtain ⟨query, seed⟩ := qs
      obtain ⟨hlen, hquery⟩ := hrounds _ List.mem_cons_self
      obtain ⟨r, hround, hrq, hrs, hok⟩ :=
        round_spec hbmSizes_fits hr hlen hquery hres hfuel reqId seed
      obtain ⟨rs, hrun, hmap, hall⟩ := ih r.after hok.ready (by rw [hok.residents]; exact hres)
        fun q hq => hrounds q (List.mem_cons_of_mem _ hq)
      refine ⟨r :: rs, ?_, ?_, ?_⟩
      · rw [runRounds]
        simp only [bind, Except.bind, pure, Except.pure, hround, hrun]
      · rw [List.map_cons, hmap, hrq, hrs]
      · intro r' hr'
        rcases List.mem_cons.mp hr' with rfl | hr'
        · exact hok
        · rw [← hok.residents]
          exact hall r' hr'

/-! ## The test case of the scripts

The row that the scripts make has its first slots resident and the others free, and as many
residents as a row has queries or more; this is what the count of unprotected slots asks for. -/

/-- A row of `make_index_case`: token `t` in slot `t` for the first `resident`
tokens, the other slots free. -/
def indexCase (d : Sizes) (resident : ℕ) : Row where
  index := (List.range d.INDEX_SIZE).map fun t => if t < resident then (t : ℤ) else NOT_FOUND
  slotToIndex := (List.range d.SLOT_COUNT).map fun s => if s < resident then (s : ℤ) else NOT_FOUND
  freeSlots := (List.range d.FREE_SLOT_COUNT).map fun i => ((resident + i : ℕ) : ℤ)
  freeHead := 0

/-- The `"miss"` row of `make_query`. -/
def missQuery (d : Sizes) (req_id : ℕ) : List ℤ :=
  (List.range d.QUERY_COUNT).map fun i => (((20000 + req_id * 3000 + i) % d.INDEX_SIZE : ℕ) : ℤ)

/-- An entry of a list that is written out. -/
theorem read_map_range {n i : ℕ} {f : ℕ → ℤ} (h : i < n) :
    read ((List.range n).map f) i = f i := by
  rw [read_of_lt (by simpa using h)]
  simp

/-- The row of the example is in order: the residents are the first slots, and the rest is free.
-/
theorem indexCase_ready {d : Sizes} {resident : ℕ} (hindex : resident ≤ d.INDEX_SIZE)
    (hslot : resident + d.FREE_SLOT_COUNT = d.SLOT_COUNT) : Ready d (indexCase d resident) where
  index_length := by simp [indexCase]
  slot_length := by simp [indexCase]
  free_length := by simp [indexCase]
  inverse := by
    -- both tables hold the number of the place up to `resident`, and nothing behind
    have key : ∀ n m : ℕ, resident ≤ m →
        ∀ i < ((List.range n).map fun t : ℕ => if t < resident then (t : ℤ) else NOT_FOUND).length,
        let xs := (List.range n).map fun t : ℕ => if t < resident then (t : ℤ) else NOT_FOUND
        let ys := (List.range m).map fun t : ℕ => if t < resident then (t : ℤ) else NOT_FOUND
        read xs i = -1 ∨ ∃ j < ys.length, read xs i = j ∧ read ys j = i := by
      intro n m hm i hi
      rw [List.length_map, List.length_range] at hi
      dsimp only
      rw [read_map_range hi]
      by_cases h : i < resident
      · refine Or.inr ⟨i, by rw [List.length_map, List.length_range]; omega, if_pos h, ?_⟩
        rw [read_map_range (by omega), if_pos h]
      · exact Or.inl (if_neg h)
    exact ⟨key _ _ (by omega), key _ _ hindex⟩
  freeHead := rfl
  free_nodup := by
    apply List.Nodup.map _ List.nodup_range
    intro a b hab
    dsimp only at hab
    omega
  free := by
    intro z hz
    obtain ⟨i, hi, rfl⟩ := List.mem_map.mp hz
    rw [List.mem_range] at hi
    refine ⟨by omega, by omega, ?_⟩
    unfold indexCase
    rw [Int.toNat_natCast, read_map_range (by omega), if_neg (by omega)]

/-- It has as many residents as it was made with. -/
theorem indexCase_residents {d : Sizes} {resident : ℕ} (hindex : resident ≤ d.INDEX_SIZE) :
    (residentTokens (indexCase d resident)).card = resident := by
  have hset : residentTokens (indexCase d resident) = Finset.range resident := by
    ext t
    rw [mem_present, Finset.mem_range]
    unfold indexCase
    by_cases ht : t < d.INDEX_SIZE
    · rw [read_map_range ht]
      split_ifs with h
      · exact ⟨fun _ => h, fun _ => by omega⟩
      · exact ⟨fun hne => absurd rfl hne, fun hlt => absurd hlt h⟩
    · rw [read_of_ge (by simpa using ht)]
      exact ⟨fun hne => absurd rfl hne, fun hlt => by omega⟩
  rw [hset, Finset.card_range]

/-- The query of the example asks for tokens in range. -/
theorem missQuery_inRange {d : Sizes} (hpos : 0 < d.INDEX_SIZE) (req_id : ℕ) :
    (missQuery d req_id).length = d.QUERY_COUNT ∧ ∀ q ∈ missQuery d req_id, InRange d q := by
  refine ⟨by simp [missQuery], fun q hq => ?_⟩
  obtain ⟨i, _, rfl⟩ := List.mem_map.mp hq
  have := Nat.mod_lt (20000 + req_id * 3000 + i) hpos
  exact ⟨by omega, by omega⟩

/-- Two rounds that miss everywhere. -/
theorem rounds_keep_pool_misses :
    ∃ rs, runRounds hbmSizes 10240 0 [(missQuery hbmSizes 0, 1), (missQuery hbmSizes 1, 2)]
        (indexCase hbmSizes 8192) = .ok rs ∧
      rs.map (fun r => (r.query, r.seed)) = [(missQuery hbmSizes 0, 1), (missQuery hbmSizes 1, 2)] ∧
      ∀ r ∈ rs, RoundOk hbmSizes (residentTokens (indexCase hbmSizes 8192)).card r := by
  have hindex : 8192 ≤ hbmSizes.INDEX_SIZE := by decide
  refine rounds_keep_pool (indexCase hbmSizes 8192) (indexCase_ready hindex (by decide)) ?_ _ ?_
    10240 (by decide) 0
  · rw [indexCase_residents hindex]; decide
  · intro r hr
    have hpos : 0 < hbmSizes.INDEX_SIZE := by decide
    have hq := missQuery_inRange hpos
    rcases List.mem_cons.mp hr with heq | hr
    · rw [heq]; dsimp only; exact hq 0
    · rw [List.mem_singleton.mp hr]; dsimp only; exact hq 1

end AsuAscend.HbmIndex
