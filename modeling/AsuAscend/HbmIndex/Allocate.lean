/-
The serial pass of the lookup, and the whole lookup of a row.

The kernel's serial pass only looks again at the queries that the vector pass left
without a slot. It nevertheless computes what the plain loop of
`expected_lookup_allocate` computes over all queries, since an entry that the
vector pass has read is never rewritten (`fixQueries_spec`); for that the row only
needs a free slot for each missing token (`Lookupable`). With a whole pool of
unoccupied slots (`Ready`), each missing token takes one of its own (`Allocated`).

## Two predicates for a row

`Ready` is the row that the operators keep between two rounds: index and slots are inverse to
each other, and every entry of the free list is an unoccupied slot, none of them twice.
`Lookupable` is less: each missing token finds a free slot at all. The kernel agrees with the
reference on every row that can be looked up in (`processRow_eq`), the ones with broken tables
included, and the pool is accounted for on rows that are ready.
-/
import AsuAscend.HbmIndex.TileScan

set_option autoImplicit false

open MachineWords WorkSplit SentinelTable

namespace AsuAscend.HbmIndex

/-! ## Rows between two rounds -/

/-- No slot is handed out, and the free list holds distinct unoccupied slots. -/
structure Ready (d : Sizes) (row : Row) : Prop where
  index_length : row.index.length = d.INDEX_SIZE
  slot_length : row.slotToIndex.length = d.SLOT_COUNT
  free_length : row.freeSlots.length = d.FREE_SLOT_COUNT
  inverse : MutuallyInverse row.index row.slotToIndex
  freeHead : row.freeHead = 0
  free_nodup : row.freeSlots.Nodup
  free : ∀ z ∈ row.freeSlots, 0 ≤ z ∧ z < d.SLOT_COUNT ∧ read row.slotToIndex z.toNat = NOT_FOUND

instance (d : Sizes) (row : Row) : Decidable (Ready d row) :=
  decidable_of_iff
    (row.index.length = d.INDEX_SIZE ∧ row.slotToIndex.length = d.SLOT_COUNT ∧
      row.freeSlots.length = d.FREE_SLOT_COUNT ∧ MutuallyInverse row.index row.slotToIndex ∧
      row.freeHead = 0 ∧ row.freeSlots.Nodup ∧ ∀ z ∈ row.freeSlots,
        0 ≤ z ∧ z < d.SLOT_COUNT ∧ read row.slotToIndex z.toNat = NOT_FOUND)
    ⟨fun h => ⟨h.1, h.2.1, h.2.2.1, h.2.2.2.1, h.2.2.2.2.1, h.2.2.2.2.2.1, h.2.2.2.2.2.2⟩,
      fun h => ⟨h.index_length, h.slot_length, h.free_length, h.inverse, h.freeHead, h.free_nodup,
        h.free⟩⟩

/-- A query of the index row. -/
def InRange (d : Sizes) (q : ℤ) : Prop := 0 ≤ q ∧ q < d.INDEX_SIZE

instance (d : Sizes) (q : ℤ) : Decidable (InRange d q) := inferInstanceAs (Decidable (_ ∧ _))

/-- The tokens that have a slot. -/
abbrev residentTokens (row : Row) : Finset ℕ := present row.index

/-! ## The sequential lookup -/

/-- What holds after the queries `pre`, `k` of them having taken a free slot. -/
structure Allocated (d : Sizes) (row : Row) (pre : List ℤ) (k : ℕ) (c : List ℤ × Row) : Prop where
  index_length : c.2.index.length = d.INDEX_SIZE
  slot_length : c.2.slotToIndex.length = d.SLOT_COUNT
  freeSlots : c.2.freeSlots = row.freeSlots
  inverse : MutuallyInverse c.2.index c.2.slotToIndex
  freeHead : c.2.freeHead = k
  head_le : k ≤ pre.length
  free : ∀ j, k ≤ j → j < d.FREE_SLOT_COUNT →
    read c.2.slotToIndex (read row.freeSlots j).toNat = NOT_FOUND
  kept : ∀ t, read row.index t ≠ NOT_FOUND → read c.2.index t = read row.index t
  out : c.1 = pre.map fun q => read c.2.index q.toNat
  resident : ∀ q ∈ pre, read c.2.index q.toNat ≠ NOT_FOUND
  count : (residentTokens c.2).card = (residentTokens row).card + k

section

variable {d : Sizes} {row : Row} {pre : List ℤ} {k : ℕ} {c : List ℤ × Row} {q : ℤ}

/-- An entry of the free list is a slot that nobody occupies. -/
theorem Ready.free_at (hr : Ready d row) {j : ℕ} (hj : j < d.FREE_SLOT_COUNT) :
    0 ≤ read row.freeSlots j ∧ read row.freeSlots j < d.SLOT_COUNT ∧
      read row.slotToIndex (read row.freeSlots j).toNat = NOT_FOUND :=
  hr.free _ (read_mem (by rw [hr.free_length]; exact hj))

/-- No slot is twice in the free list. -/
theorem Ready.free_inj (hr : Ready d row) {i j : ℕ} (hi : i < d.FREE_SLOT_COUNT)
    (hj : j < d.FREE_SLOT_COUNT) (h : read row.freeSlots i = read row.freeSlots j) : i = j := by
  rw [← hr.free_length] at hi hj
  rw [read_of_lt hi, read_of_lt hj] at h
  exact (List.Nodup.getElem_inj_iff hr.free_nodup).mp h

/-- Before the first query nothing has been allocated. -/
theorem Ready.allocated (hr : Ready d row) : Allocated d row [] 0 ([], row) where
  index_length := hr.index_length
  slot_length := hr.slot_length
  freeSlots := rfl
  inverse := hr.inverse
  freeHead := hr.freeHead
  head_le := le_rfl
  free := fun _ _ hj => (hr.free_at hj).2.2
  kept := fun _ _ => rfl
  out := rfl
  resident := fun _ hq => absurd hq (by simp)
  count := rfl

/-- A query whose token has a slot changes nothing. -/
theorem Allocated.hit (h : Allocated d row pre k c) (hq : read c.2.index q.toNat ≠ NOT_FOUND) :
    Allocated d row (pre ++ [q]) k (c.1 ++ [read c.2.index q.toNat], c.2) where
  index_length := h.index_length
  slot_length := h.slot_length
  freeSlots := h.freeSlots
  inverse := h.inverse
  freeHead := h.freeHead
  head_le := by rw [List.length_append]; have := h.head_le; omega
  free := h.free
  kept := h.kept
  out := by rw [List.map_append, ← h.out]; rfl
  resident := by
    intro p hp
    rcases List.mem_append.mp hp with hp | hp
    · exact h.resident p hp
    · rw [List.mem_singleton.mp hp]; exact hq
  count := h.count

/-- The row after a missing token has taken a slot. -/
def placed (row : Row) (q slot : ℤ) : Row where
  index := row.index.set q.toNat slot
  slotToIndex := row.slotToIndex.set slot.toNat q
  freeSlots := row.freeSlots
  freeHead := row.freeHead + 1

/-- A query whose token is missing takes the next free slot. -/
theorem Allocated.place (hr : Ready d row) (h : Allocated d row pre k c) (hq : InRange d q)
    (hmiss : read c.2.index q.toNat = NOT_FOUND) (hk : k < d.FREE_SLOT_COUNT) :
    Allocated d row (pre ++ [q]) (k + 1)
      (c.1 ++ [read row.freeSlots k], placed c.2 q (read row.freeSlots k)) := by
  obtain ⟨hs0, hs1, _⟩ := hr.free_at hk
  obtain ⟨hq0, hq1⟩ := hq
  have hqlt : q.toNat < c.2.index.length := by rw [h.index_length]; omega
  have hslt : (read row.freeSlots k).toNat < c.2.slotToIndex.length := by rw [h.slot_length]; omega
  have hslot : ((read row.freeSlots k).toNat : ℤ) = read row.freeSlots k := Int.toNat_of_nonneg hs0
  have hqz : (q.toNat : ℤ) = q := Int.toNat_of_nonneg hq0
  have hunused := h.free k le_rfl hk
  have htq : tab c.2.index q.toNat = none := by rw [tab_eq_none, hmiss]; decide
  have hts : tab c.2.slotToIndex (read row.freeSlots k).toNat = none := by
    rw [tab_eq_none, hunused]; decide
  -- a token queried before is resident, so it is another one
  have hother : ∀ p ∈ pre, p.toNat ≠ q.toNat := by
    intro p hp heq
    exact h.resident p hp (by rw [heq]; exact hmiss)
  constructor
  · simpa [placed] using h.index_length
  · simpa [placed] using h.slot_length
  · exact h.freeSlots
  · have hput := h.inverse.put hqlt hslt htq hts
    rw [hslot, hqz] at hput
    exact hput
  · simp only [placed, h.freeHead]; omega
  · rw [List.length_append]; have := h.head_le; simp; omega
  · intro j hj hjlt
    -- the free slots are distinct, so those further on stay unused
    have hne : (read row.freeSlots j).toNat ≠ (read row.freeSlots k).toNat := by
      intro heq
      have hj0 := (hr.free_at hjlt).1
      have := hr.free_inj hjlt hk (by omega)
      omega
    simp only [placed]
    rw [read_set hslt, if_neg hne]
    exact h.free j (by omega) hjlt
  · intro t ht
    have hne : t ≠ q.toNat := by
      rintro rfl
      exact ht (by rw [← h.kept _ ht]; exact hmiss)
    simp only [placed]
    rw [read_set hqlt, if_neg hne]
    exact h.kept t ht
  · simp only [placed]
    rw [List.map_append, h.out]
    refine congrArg₂ _ (List.map_congr_left fun p hp => ?_) ?_
    · rw [read_set hqlt, if_neg (hother p hp)]
    · rw [List.map_cons, List.map_nil, read_set hqlt, if_pos rfl]
  · intro p hp
    simp only [placed]
    rw [read_set hqlt]
    split_ifs with hpq
    · intro h1
      rw [h1] at hs0
      exact absurd hs0 (by decide)
    · rcases List.mem_append.mp hp with hp | hp
      · exact h.resident p hp
      · exact absurd (by rw [List.mem_singleton.mp hp]) hpq
  · have hnew : q.toNat ∉ residentTokens c.2 := fun hmem => mem_present.mp hmem hmiss
    have hcount := h.count
    simp only [residentTokens, placed] at hnew hcount ⊢
    rw [present_set hqlt (by omega), Finset.card_insert_of_notMem hnew, hcount]
    omega

/-- One query of the sequential lookup. -/
theorem expectedQuery_spec (hr : Ready d row) (h : Allocated d row pre k c) (hq : InRange d q)
    (hk : k < d.FREE_SLOT_COUNT) :
    ∃ c' k', expectedQuery c q = .ok c' ∧ Allocated d row (pre ++ [q]) k' c' ∧
      c' = if read c.2.index q.toNat = NOT_FOUND
        then (c.1 ++ [read row.freeSlots k], placed c.2 q (read row.freeSlots k))
        else (c.1 ++ [read c.2.index q.toNat], c.2) := by
  have hqlt : q.toNat < c.2.index.length := by
    rw [h.index_length]; have := hq.1; have := hq.2; omega
  unfold expectedQuery
  rw [getValue_ok hqlt]
  simp only [bind, Except.bind, pure, Except.pure]
  by_cases hmiss : read c.2.index q.toNat = NOT_FOUND
  · obtain ⟨hs0, hs1, _⟩ := hr.free_at hk
    have hhead : c.2.freeHead.toNat = k := by rw [h.freeHead]; rfl
    rw [if_pos hmiss, if_pos hmiss, h.freeSlots, hhead,
      getValue_ok (by rw [hr.free_length]; exact hk)]
    dsimp only
    rw [setValue_ok hqlt, setValue_ok (by rw [h.slot_length]; omega)]
    refine ⟨_, k + 1, ?_, h.place hr hq hmiss hk, rfl⟩
    simp only [placed, h.freeSlots]
  · rw [if_neg hmiss, if_neg hmiss]
    exact ⟨_, k, rfl, h.hit hmiss, rfl⟩

end

/-! ## Rows that the lookup can serve -/

/-- The missing tokens of the queries. -/
def missingTokens (row : Row) (query : List ℤ) : Finset ℤ :=
  (query.filter fun q => read row.index q.toNat = NOT_FOUND).toFinset

/-- A row and its queries, with a free slot for each missing token. -/
structure Lookupable (d : Sizes) (query : List ℤ) (row : Row) : Prop where
  index_length : row.index.length = d.INDEX_SIZE
  slot_length : row.slotToIndex.length = d.SLOT_COUNT
  free_length : row.freeSlots.length = d.FREE_SLOT_COUNT
  inverse : MutuallyInverse row.index row.slotToIndex
  freeHead_nonneg : 0 ≤ row.freeHead
  head_le : row.freeHead + (missingTokens row query).card ≤ d.FREE_SLOT_COUNT
  free : ∀ j, row.freeHead.toNat ≤ j → j < d.FREE_SLOT_COUNT →
    0 ≤ read row.freeSlots j ∧ read row.freeSlots j < d.SLOT_COUNT
  query_length : query.length = d.QUERY_COUNT
  inRange : ∀ q ∈ query, InRange d q

/-- What the queries `pre` have changed, whatever the free slots are. -/
structure Looked (d : Sizes) (row : Row) (pre : List ℤ) (c : List ℤ × Row) : Prop where
  index_length : c.2.index.length = d.INDEX_SIZE
  slot_length : c.2.slotToIndex.length = d.SLOT_COUNT
  freeSlots : c.2.freeSlots = row.freeSlots
  freeHead : c.2.freeHead = row.freeHead + (missingTokens row pre).card
  kept : ∀ t, read row.index t ≠ NOT_FOUND → read c.2.index t = read row.index t
  missing : ∀ q, InRange d q → (read c.2.index q.toNat = NOT_FOUND ↔
    read row.index q.toNat = NOT_FOUND ∧ q ∉ pre)
  out_length : c.1.length = pre.length

section

variable {d : Sizes} {row : Row} {query pre : List ℤ} {c : List ℤ × Row} {q : ℤ}

/-- The tokens that are missing are those queried whose index entry is empty. -/
theorem mem_missingTokens : q ∈ missingTokens row query ↔
    q ∈ query ∧ read row.index q.toNat = NOT_FOUND := by
  unfold missingTokens
  rw [List.mem_toFinset, List.mem_filter, decide_eq_true_iff]

/-- One query more is one missing token more, if its entry is empty and it has not come up
before. -/
theorem missingTokens_concat : missingTokens row (pre ++ [q]) =
    if read row.index q.toNat = NOT_FOUND then insert q (missingTokens row pre)
    else missingTokens row pre := by
  ext p
  split_ifs with hq
  · rw [Finset.mem_insert, mem_missingTokens, mem_missingTokens, List.mem_append, List.mem_singleton]
    constructor
    · rintro ⟨hp | hp, hmiss⟩
      · exact Or.inr ⟨hp, hmiss⟩
      · exact Or.inl hp
    · rintro (rfl | ⟨hp, hmiss⟩)
      · exact ⟨Or.inr rfl, hq⟩
      · exact ⟨Or.inl hp, hmiss⟩
  · rw [mem_missingTokens, mem_missingTokens, List.mem_append, List.mem_singleton]
    constructor
    · rintro ⟨hp | rfl, hmiss⟩
      · exact ⟨hp, hmiss⟩
      · exact absurd hmiss hq
    · rintro ⟨hp, hmiss⟩
      exact ⟨Or.inl hp, hmiss⟩

/-- More queries miss at least as many tokens. -/
theorem missingTokens_mono {pre' : List ℤ} (h : ∀ p ∈ pre, p ∈ pre') :
    (missingTokens row pre).card ≤ (missingTokens row pre').card := by
  apply Finset.card_le_card
  intro p hp
  rw [mem_missingTokens] at hp ⊢
  exact ⟨h p hp.1, hp.2⟩

/-- Before the first query nothing has been looked up. -/
theorem Lookupable.looked (h : Lookupable d query row) : Looked d row [] ([], row) where
  index_length := h.index_length
  slot_length := h.slot_length
  freeSlots := rfl
  freeHead := by
    show row.freeHead = row.freeHead + (Finset.card (∅ : Finset ℤ) : ℕ)
    rw [Finset.card_empty]
    omega
  kept := fun _ _ => rfl
  missing := fun _ _ => ⟨fun hmiss => ⟨hmiss, List.not_mem_nil⟩, And.left⟩
  out_length := rfl

/-- The next free slot, for a query that misses. -/
theorem Looked.free_slot (hl : Lookupable d query row) (h : Looked d row pre c)
    (hpre : ∀ p ∈ pre ++ [q], p ∈ query) (hq : InRange d q)
    (hmiss : read c.2.index q.toNat = NOT_FOUND) :
    0 ≤ c.2.freeHead ∧ c.2.freeHead.toNat < d.FREE_SLOT_COUNT ∧
      0 ≤ read row.freeSlots c.2.freeHead.toNat ∧
      read row.freeSlots c.2.freeHead.toNat < d.SLOT_COUNT := by
  obtain ⟨hrow, hnew⟩ := (h.missing q hq).mp hmiss
  have hcard : (missingTokens row pre).card + 1 ≤ (missingTokens row query).card := by
    have hmono : (missingTokens row (pre ++ [q])).card ≤ (missingTokens row query).card :=
      missingTokens_mono hpre
    have hnot : q ∉ missingTokens row pre := fun hmem => hnew (mem_missingTokens.mp hmem).1
    rw [missingTokens_concat, if_pos hrow, Finset.card_insert_of_notMem hnot] at hmono
    exact hmono
  have hhead := h.freeHead
  have h0 := hl.freeHead_nonneg
  have hle := hl.head_le
  have hlt : c.2.freeHead.toNat < d.FREE_SLOT_COUNT := by omega
  exact ⟨by omega, hlt, hl.free _ (by omega) hlt⟩

/-- A query in range has its entry in the index, also after stores into it. -/
theorem Looked.index_lt (h : Looked d row pre c) (hq : InRange d q) :
    q.toNat < c.2.index.length := by
  have h0 := hq.1
  have h1 := hq.2
  rw [h.index_length]
  omega

theorem Looked.concat_length (h : Looked d row pre c) (z : ℤ) :
    (c.1 ++ [z]).length = (pre ++ [q]).length := by
  rw [List.length_append, List.length_append, h.out_length, List.length_singleton,
    List.length_singleton]

/-- A query that misses takes a slot, and its token misses no more. -/
theorem Looked.place (h : Looked d row pre c) (hq : InRange d q)
    (hmiss : read c.2.index q.toNat = NOT_FOUND) {slot : ℤ} (hslot : 0 ≤ slot) :
    Looked d row (pre ++ [q]) (c.1 ++ [slot], placed c.2 q slot) := by
  have hqlt := h.index_lt hq
  obtain ⟨hrow, hnew⟩ := (h.missing q hq).mp hmiss
  have hnot : q ∉ missingTokens row pre := fun hmem => hnew (mem_missingTokens.mp hmem).1
  refine ⟨?_, ?_, h.freeSlots, ?_, fun t ht => ?_, fun p hp => ?_, h.concat_length _⟩
  · exact (List.length_set).trans h.index_length
  · exact (List.length_set).trans h.slot_length
  · show c.2.freeHead + 1 = _
    rw [missingTokens_concat, if_pos hrow, Finset.card_insert_of_notMem hnot, h.freeHead]
    omega
  · have hne : t ≠ q.toNat := by
      rintro rfl
      exact ht hrow
    exact (read_set hqlt _ t).trans ((if_neg hne).trans (h.kept t ht))
  · show read (c.2.index.set q.toNat _) p.toNat = NOT_FOUND ↔ _
    rw [read_set hqlt, List.mem_append, List.mem_singleton]
    have hp0 := hp.1
    have hq0 := hq.1
    -- of all tokens only the query's stops missing
    split_ifs with hpq
    · have heq : p = q := by omega
      unfold NOT_FOUND
      constructor
      · intro hneg
        omega
      · exact fun hboth => absurd (Or.inr heq) hboth.2
    · have hne : p ≠ q := fun heq => hpq (by rw [heq])
      rw [h.missing p hp]
      constructor
      · exact fun hboth => ⟨hboth.1, fun hmem => hmem.elim hboth.2 hne⟩
      · exact fun hboth => ⟨hboth.1, fun hmem => hboth.2 (Or.inl hmem)⟩

/-- A query that hits changes no table. -/
theorem Looked.hit (h : Looked d row pre c) (hq : InRange d q)
    (hhit : read c.2.index q.toNat ≠ NOT_FOUND) (z : ℤ) :
    Looked d row (pre ++ [q]) (c.1 ++ [z], c.2) := by
  have hsame : missingTokens row (pre ++ [q]) = missingTokens row pre := by
    rw [missingTokens_concat]
    split_ifs with hrow
    · -- the token missed before, and an earlier query placed it
      apply Finset.insert_eq_self.mpr
      rw [mem_missingTokens]
      refine ⟨?_, hrow⟩
      by_contra hnew
      exact hhit ((h.missing q hq).mpr ⟨hrow, hnew⟩)
    · rfl
  refine ⟨h.index_length, h.slot_length, h.freeSlots, by rw [hsame]; exact h.freeHead, h.kept,
    fun p hp => ?_, h.concat_length _⟩
  show read c.2.index p.toNat = NOT_FOUND ↔ _
  rw [h.missing p hp, List.mem_append, List.mem_singleton]
  constructor
  · rintro ⟨hrow, hnew⟩
    refine ⟨hrow, fun hmem => hmem.elim hnew ?_⟩
    rintro rfl
    exact hhit ((h.missing p hp).mpr ⟨hrow, hnew⟩)
  · exact fun hboth => ⟨hboth.1, fun hmem => hboth.2 (Or.inl hmem)⟩

/-- One query of the sequential lookup. -/
theorem Looked.step (hl : Lookupable d query row) (h : Looked d row pre c)
    (hpre : ∀ p ∈ pre ++ [q], p ∈ query) (hq : InRange d q) :
    ∃ c', expectedQuery c q = .ok c' ∧ Looked d row (pre ++ [q]) c' ∧
      c' = if read c.2.index q.toNat = NOT_FOUND
        then (c.1 ++ [read row.freeSlots c.2.freeHead.toNat],
          placed c.2 q (read row.freeSlots c.2.freeHead.toNat))
        else (c.1 ++ [read c.2.index q.toNat], c.2) := by
  have hqlt := h.index_lt hq
  unfold expectedQuery
  rw [getValue_ok hqlt]
  simp only [bind, Except.bind, pure, Except.pure]
  by_cases hmiss : read c.2.index q.toNat = NOT_FOUND
  · obtain ⟨_, hfree, hs0, hs1⟩ := h.free_slot hl hpre hq hmiss
    rw [if_pos hmiss, if_pos hmiss, h.freeSlots, getValue_ok (by rw [hl.free_length]; exact hfree)]
    dsimp only
    rw [setValue_ok hqlt, setValue_ok (by rw [h.slot_length]; omega)]
    refine ⟨_, ?_, h.place hq hmiss hs0, rfl⟩
    simp only [placed, h.freeSlots]
  · rw [if_neg hmiss, if_neg hmiss]
    exact ⟨_, rfl, h.hit hq hmiss _, rfl⟩

end

/-! ## The serial pass of the kernel

The vector pass has written a slot for each query whose token was resident at the start. The serial
pass skips those; a missing token that comes up again has its slot in the index by then. So at
each position both loops write what the index says after the positions before it. -/

section

variable {d : Sizes} {row : Row} {query : List ℤ}

/-- The entry that the loop is about to write, in a list that is written from the front. -/
theorem read_append_drop {xs ys : List ℤ} {n : ℕ} (hx : xs.length = n) :
    read (xs ++ ys.drop n) n = read ys n := by
  unfold SentinelTable.read
  rw [List.getD_eq_getElem?_getD, List.getD_eq_getElem?_getD, List.getElem?_append_right (by omega),
    List.getElem?_drop]
  congr 2
  omega

/-- What is there already may be written again. -/
theorem append_drop_succ {xs ys : List ℤ} {n : ℕ} (hn : n < ys.length) :
    xs ++ [read ys n] ++ ys.drop (n + 1) = xs ++ ys.drop n := by
  rw [List.append_assoc, read_of_lt hn, List.singleton_append, ← List.drop_eq_getElem_cons hn]

theorem set_append_drop {xs ys : List ℤ} {n : ℕ} (hx : xs.length = n) (hn : n < ys.length)
    (v : ℤ) : (xs ++ ys.drop n).set n v = xs ++ [v] ++ ys.drop (n + 1) := by
  rw [List.set_append_right _ _ (by omega), List.drop_eq_getElem_cons hn, hx, Nat.sub_self,
    List.set_cons_zero, List.append_assoc, List.singleton_append]

/-- One query of the serial pass does what the sequential lookup does, given the vector pass's
slots for the queries that are still to come. -/
theorem Looked.fixQuery (hd : d.Fits) (hl : Lookupable d query row) {n : ℕ} (hn : n < query.length)
    {c : List ℤ × Row} (hc : Looked d row (query.take n) c)
    {c' : List ℤ × Row} (hturn : expectedQuery c query[n] = .ok c') :
    fixQuery query ⟨c.1 ++ (query.map fun q => read row.index q.toNat).drop n, c.2⟩ n =
      .ok ⟨c'.1 ++ (query.map fun q => read row.index q.toNat).drop (n + 1), c'.2⟩ := by
  have hfree := hd.free_i32
  have hi32 := hd.index_i32
  have hs32 := hd.slot_i32
  have hq := hl.inRange _ (List.getElem_mem hn)
  have hpre : ∀ p ∈ query.take n ++ [query[n]], p ∈ query := by
    intro p hp
    rw [← List.take_succ_eq_append_getElem hn] at hp
    exact List.mem_of_mem_take hp
  -- the plain loop takes this query on from the same state
  obtain ⟨c'', hturn', _, hval⟩ := hc.step hl hpre hq
  obtain rfl : c'' = c' := Except.ok.inj (hturn'.symm.trans hturn)
  -- `snap` is the index as the vector pass has found it
  generalize hsnap : (query.map fun q => read row.index q.toNat) = snap
  have hsl : snap.length = query.length := by rw [← hsnap, List.length_map]
  have hout : c.1.length = n := by
    rw [hc.out_length, List.length_take]; omega
  -- at this position it holds the entry before the lookup
  have hsnapn : read snap n = read row.index query[n].toNat := by
    rw [read_of_lt (by omega)]
    simp only [← hsnap, List.getElem_map]
  have hq0 := hq.1
  have hq1 := hq.2
  have hqu : u32 query[n] = query[n].toNat := u32_of_nonneg hq0 (by omega)
  -- in both loops the entry looked at is that of the query
  have hqlt := hc.index_lt hq
  have hnout : n < (c.1 ++ snap.drop n).length := by
    rw [List.length_append, List.length_drop]; omega
  unfold HbmIndex.fixQuery
  simp only [bind, Except.bind, pure, Except.pure]
  rw [getValue_ok hnout, read_append_drop hout]
  dsimp only
  by_cases hsn : read snap n = NOT_FOUND
  · -- the vector pass found nothing, so the live table is read again
    rw [if_pos hsn, getValue_ok hn, read_of_lt hn]
    dsimp only
    rw [hqu, getValue_ok hqlt]
    dsimp only
    -- still missing: the next free slot is taken, in the order of the list
    by_cases hmiss : read c.2.index query[n].toNat = NOT_FOUND
    · rw [if_pos hmiss] at hval
      obtain ⟨hh0, hh1, hs0, hs1⟩ := hc.free_slot hl hpre hq hmiss
      have hhu : u32 c.2.freeHead = c.2.freeHead.toNat := u32_of_nonneg hh0 (by omega)
      rw [if_pos hmiss, hc.freeSlots, hhu, getValue_ok (by rw [hl.free_length]; exact hh1)]
      dsimp only
      rw [setValue_ok hqlt, u32_of_nonneg hs0 (by omega),
        setValue_ok (by rw [hc.slot_length]; omega), setValue_ok hnout,
        set_append_drop hout (by omega), hval]
      simp only [placed, hc.freeSlots]
    -- a query before this one has brought the token in: its slot is the answer
    · rw [if_neg hmiss] at hval
      rw [if_neg hmiss, setValue_ok hnout, set_append_drop hout (by omega), hval]
  · -- an entry that the vector pass has read is still what it was
    have hkept := hc.kept _ (show read row.index query[n].toNat ≠ NOT_FOUND by
      rw [← hsnapn]; exact hsn)
    rw [if_neg (by rw [hkept, ← hsnapn]; exact hsn)] at hval
    rw [if_neg hsn, hval, hkept, ← hsnapn, append_drop_succ (by omega)]

/-- The two loops side by side: after `n` queries the kernel has the sequential
loop's slots up to `n` and the vector pass's from `n` on. -/
theorem fixQueries_spec (hd : d.Fits) (hl : Lookupable d query row) {n : ℕ}
    (hn : n ≤ d.QUERY_COUNT) :
    ∃ c, (query.take n).foldlM expectedQuery ([], row) = .ok c ∧ Looked d row (query.take n) c ∧
      (List.range n).foldlM (fixQuery query) ⟨query.map fun q => read row.index q.toNat, row⟩ =
        .ok ⟨c.1 ++ (query.map fun q => read row.index q.toNat).drop n, c.2⟩ := by
  have hlen := hl.query_length
  induction n with
  | zero => exact ⟨([], row), rfl, hl.looked, rfl⟩
  | succ n ih =>
      obtain ⟨c, hexp, hc, hfix⟩ := ih (by omega)
      have hnlt : n < query.length := by omega
      obtain ⟨c', hturn, hc', _⟩ := hc.step hl (q := query[n])
        (fun p hp => List.mem_of_mem_take (List.take_succ_eq_append_getElem hnlt ▸ hp))
        (hl.inRange _ (List.getElem_mem hnlt))
      rw [← List.take_succ_eq_append_getElem hnlt] at hc'
      refine ⟨c', ?_, hc', ?_⟩
      · rw [List.take_succ_eq_append_getElem hnlt, List.foldlM_append, hexp]
        simp only [bind, Except.bind, List.foldlM_cons, List.foldlM_nil, hturn, pure, Except.pure]
      · rw [List.range_succ, List.foldlM_append, hfix]
        simp only [bind, Except.bind, List.foldlM_cons, List.foldlM_nil, pure, Except.pure]
        rw [hc.fixQuery hd hl hnlt hturn]

/-- **The lookup of a row**: the kernel computes what the sequential loop computes. -/
theorem processRow_eq (hd : d.Fits) (hl : Lookupable d query row) :
    ∃ c, processRow d query row = .ok c ∧ expectedLookupAllocate query row = .ok c ∧
      Looked d row query c := by
  have hlen := hl.query_length
  obtain ⟨c, hexp, hc, hfix⟩ := fixQueries_spec hd hl le_rfl
  have htake : query.take d.QUERY_COUNT = query := List.take_of_length_le (by omega)
  rw [htake] at hexp hc
  refine ⟨c, ?_, hexp, hc⟩
  have hinit : List.replicate d.QUERY_COUNT NOT_FOUND = query.map fun _ => NOT_FOUND := by
    rw [List.map_const', hlen]
  unfold processRow
  rw [dataCopy_ok (by omega), List.drop_zero, htake]
  simp only [bind, Except.bind, pure, Except.pure, hinit,
    scanTiles_spec hd hl.index_length hl.inRange, hfix]
  rw [List.drop_eq_nil_of_le (by rw [List.length_map]; omega), List.append_nil]

/-- A row in order can be looked up in: there are as many free slots as queries. -/
theorem Ready.lookupable (hd : d.Fits) (hr : Ready d row) (hlen : query.length = d.QUERY_COUNT)
    (hquery : ∀ q ∈ query, InRange d q) : Lookupable d query row where
  index_length := hr.index_length
  slot_length := hr.slot_length
  free_length := hr.free_length
  inverse := hr.inverse
  freeHead_nonneg := by rw [hr.freeHead]
  head_le := by
    have hcard : (missingTokens row query).card ≤ query.length :=
      (List.toFinset_card_le _).trans (List.length_filter_le _ _)
    have := hd.query_le_free
    rw [hr.freeHead]
    omega
  free := fun _ _ hj => ⟨(hr.free_at hj).1, (hr.free_at hj).2.1⟩
  query_length := hlen
  inRange := hquery

/-- The lookup of a row whose pool is whole: one outcome, and what holds of it. -/
theorem processRow_spec (hd : d.Fits) (hr : Ready d row) (hlen : query.length = d.QUERY_COUNT)
    (hquery : ∀ q ∈ query, InRange d q) :
    ∃ c k, processRow d query row = .ok c ∧ expectedLookupAllocate query row = .ok c ∧
      Allocated d row query k c := by
  obtain ⟨c, hker, hexp, _⟩ := processRow_eq hd (hr.lookupable hd hlen hquery)
  obtain ⟨c', hfold, k, hc'⟩ := Folds.foldlM_prefix (f := expectedQuery)
    (fun pre c => ∃ k, Allocated d row pre k c) query (s := ([], row)) ⟨0, hr.allocated⟩ (by
      intro pre q suf c hsplit ⟨k, hc⟩
      have hk : k < d.FREE_SLOT_COUNT := by
        have hhead := hc.head_le
        have hfree := hd.query_le_free
        rw [hsplit, List.length_append, List.length_cons] at hlen
        omega
      have hq : q ∈ query := by
        rw [hsplit]
        exact List.mem_append_right pre List.mem_cons_self
      obtain ⟨c', k', hturn, hc', _⟩ := expectedQuery_spec hr hc (hquery q hq) hk
      exact ⟨c', hturn, k', hc'⟩)
  have heq : c' = c := Except.ok.inj (hfold.symm.trans hexp)
  exact ⟨c, k, hker, hexp, heq ▸ hc'⟩

end

end AsuAscend.HbmIndex
